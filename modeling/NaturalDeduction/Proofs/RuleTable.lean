import Mathlib.Data.List.Forall2
import NaturalDeduction.Proofs.Asks
import NaturalDeduction.Proofs.Survey

/-!
# The rule table

The nine rules over values without sharing, and the check of a node against them.

* `Statement`, `Graph.statement`   a sequent whose parts are trees; its environment is a finite map;
* `Rule.Instance`          the table: conclusion and premises of every application of a rule;
* `Derives`                what the nine rules generate;
* `Graph.Apt`              a sequent whose parts can be compared: an environment, and three values
                           that are well formed up to roles;
* `meets_iff`              what a demand on such a sequent comes to;
* `Ask.Needs`              the statements that the premises must make to answer to what a rule asks;
* `checkNode_eq_ok_iff`    a node passes exactly if it is in the table.
-/

namespace NaturalDeduction

theorem exists_mem_of_forall₂ {α β : Type} {R : α → β → Prop} {l : List α} {l' : List β}
    (h : List.Forall₂ R l l') : ∀ a ∈ l, ∃ b ∈ l', R a b := by
  induction h with
  | nil => exact fun a ha => absurd ha List.not_mem_nil
  | @cons a b l l' hab _ ih =>
    refine List.forall_mem_cons.mpr ⟨⟨b, List.mem_cons_self, hab⟩, fun c hc => ?_⟩
    obtain ⟨d, hd, hcd⟩ := ih c hc
    exact ⟨d, List.mem_cons_of_mem b hd, hcd⟩

/-- A sequent of trees. -/
structure Statement where
  context : String → Option Value
  term : Value
  ty : Value

/-- The applications of the rules: a conclusion and the premises it needs. -/
inductive Rule.Instance : Rule → Statement → List Statement → Prop
  | assm {Γ : String → Option Value} {n : Name} {A : Value} (h : Γ n.word = some A) :
      Instance .assm ⟨Γ, .var n, A⟩ []
  | pairIntro {Γ : String → Option Value} {t u A B : Value} :
      Instance .pairIntro ⟨Γ, .pair t u, .product A B⟩ [⟨Γ, t, A⟩, ⟨Γ, u, B⟩]
  | inlIntro {Γ : String → Option Value} {t A B : Value} :
      Instance .inlIntro ⟨Γ, .inl t, .sum A B⟩ [⟨Γ, t, A⟩]
  | inrIntro {Γ : String → Option Value} {t A B : Value} :
      Instance .inrIntro ⟨Γ, .inr t, .sum A B⟩ [⟨Γ, t, B⟩]
  | caseElim {Γ : String → Option Value} {t u v A B C : Value} :
      Instance .caseElim ⟨Γ, .case t u v, C⟩
        [⟨Γ, t, .sum A B⟩, ⟨Γ, u, .arrow A C⟩, ⟨Γ, v, .arrow B C⟩]
  | fstElim {Γ : String → Option Value} {t A B : Value} :
      Instance .fstElim ⟨Γ, .fst t, A⟩ [⟨Γ, t, .product A B⟩]
  | sndElim {Γ : String → Option Value} {t A B : Value} :
      Instance .sndElim ⟨Γ, .snd t, B⟩ [⟨Γ, t, .product A B⟩]
  | lambdaIntro {Γ : String → Option Value} {n : Name} {t A B : Value} :
      Instance .lambdaIntro ⟨Γ, .lambda n A t, .arrow A B⟩
        [⟨Function.update Γ n.word (some A), t, B⟩]
  | bottomElim {Γ : String → Option Value} {t A : Value} :
      Instance .bottomElim ⟨Γ, .abort t, A⟩ [⟨Γ, t, .bottom⟩]

theorem Rule.Instance.length {R : Rule} {s : Statement} {ss : List Statement}
    (h : R.Instance s ss) : ss.length = R.arity := by
  cases h <;> rfl

/-- What can be derived with the nine rules. -/
inductive Derives : Statement → Prop
  | apply {R : Rule} {s : Statement} {ss : List Statement} (h : R.Instance s ss)
      (hs : ∀ t ∈ ss, Derives t) : Derives s

namespace Graph
variable {g : Graph}

/-- The sequent of trees that a sequent stands for. -/
def statement (g : Graph) (j : Judgement) : Statement :=
  ⟨g.context (g.bindingsOf j.env), g.value j.term, g.value j.ty⟩

/-- The derivation at `p` records a sequent that stands for `s`. -/
def Records (g : Graph) (p : Ref) (s : Statement) : Prop :=
  ∃ j, g.conclusion? p = some j ∧ g.statement j = s

/-! ## sequents that can be compared -/

/-- An environment and three values that are well formed up to roles. -/
structure Apt (g : Graph) (j : Judgement) : Prop where
  kind : (g.get j.env).kind = .env
  env : g.Loose j.env
  term : g.Loose j.term
  ty : g.Loose j.ty

theorem apt_of_looseIn {j : Judgement} (h : ∀ p ∈ j.roots, g.LooseIn p.1 p.2) : g.Apt j := by
  obtain ⟨he, ht, ha⟩ : g.LooseIn .env j.env ∧ g.LooseIn .term j.term ∧ g.LooseIn .type j.ty := by
    simpa [Judgement.roots] using h
  exact ⟨he.2 rfl, he.1, ht.1, ha.1⟩

theorem WellStated.apt {j : Judgement} (h : g.WellStated j) : g.Apt j := by
  obtain ⟨he, ht, ha⟩ := h
  exact ⟨Cell.kind_of_role?_env (fits_iff.mp he.fits).1, he.loose, ht.loose, ha.loose⟩

theorem Apt.bindings {j : Judgement} (h : g.Apt j) : g.Bindings (g.bindingsOf j.env) := by
  obtain ⟨bs, hbs⟩ := Cell.shape_of_kind h.kind
  rw [bindingsOf, hbs]
  exact h.env.bindings hbs

theorem value_of_kind_env {e : Ref} (h : (g.get e).kind = .env) :
    g.value e = .env (g.context (g.bindingsOf e)) := by
  obtain ⟨bs, hbs⟩ := Cell.shape_of_kind h
  rw [value_of_get hbs, bindingsOf, hbs]
  rfl

/-- Sequents that can be compared stand for the same if their parts are the same. -/
theorem statement_eq_iff {i j : Judgement} (hi : g.Apt i) (hj : g.Apt j) :
    g.statement i = g.statement j ↔
      g.same i.env j.env = true ∧ g.same i.term j.term = true ∧ g.same i.ty j.ty = true := by
  rw [same_iff hi.env hj.env, same_iff hi.term hj.term, same_iff hi.ty hj.ty,
    value_of_kind_env hi.kind, value_of_kind_env hj.kind, Value.env.injEq]
  exact Statement.mk.injEq .. ▸ Iff.rfl

end Graph

/-! ## demands -/

/-- The types that have a form. -/
def TypeForm.Holds (g : Graph) : TypeForm → Value → Prop
  | exactly b, A => A = g.value b
  | arrow a b, A => A = .arrow (g.value a) (g.value b)
  | bottom, A => A = .bottom
  | any, _ => True

/-- The one of two that is on the side. -/
def Side.pick {α : Type} : Side → α → α → α
  | left, a, _ => a
  | right, _, b => b

/-- The finite map that an environment must be. -/
def EnvForm.context (g : Graph) : EnvForm → String → Option Value
  | exactly e => g.context (g.bindingsOf e)
  | bindings bs => g.context bs

/-- The parts of a form can be compared. -/
def TypeForm.Apt (g : Graph) : TypeForm → Prop
  | exactly b => g.Loose b
  | arrow a b => g.Loose a ∧ g.Loose b
  | _ => True

/-- The environment of a form can be compared. -/
def EnvForm.Apt (g : Graph) : EnvForm → Prop
  | exactly e => g.Loose e ∧ (g.get e).kind = .env
  | bindings bs => g.Bindings bs

/-- The demand asks for just this sequent. -/
structure Demand.Says (g : Graph) (d : Demand) (s : Statement) : Prop where
  context : d.env.context g = s.context
  term : g.value d.term = s.term
  ty : ∀ A, d.ty.Holds g A ↔ A = s.ty

/-- A demand whose parts can be compared. -/
structure Demand.Apt (g : Graph) (d : Demand) : Prop where
  env : d.env.Apt g
  term : g.Loose d.term
  ty : d.ty.Apt g

namespace Graph
variable {g : Graph}

theorem hasForm_iff {a : Ref} {f : TypeForm} (ha : g.Loose a) (hf : f.Apt g) :
    g.hasForm a f = true ↔ f.Holds g (g.value a) := by
  cases f with
  | exactly b => exact same_iff ha hf
  | any => exact ⟨fun _ => trivial, fun _ => rfl⟩
  | bottom =>
    rw [hasForm, beq_iff_eq]
    constructor
    · intro h
      exact value_of_get h
    · intro h
      have hk : (g.get a).kind = .bottom := by rw [← kind_value, h]; rfl
      exact Cell.shape_of_kind hk
  | arrow c d =>
    rw [hasForm, TypeForm.Holds]
    split
    case h_1 c' d' h =>
      obtain ⟨hc, hd⟩ : g.Loose c' ∧ g.Loose d' := by simpa [Cell.parts] using ha.parts_of_get h
      have hv : g.value a = .arrow (g.value c') (g.value d') := value_of_get h
      rw [Bool.and_eq_true, same_iff hc hf.1, same_iff hd hf.2, hv]
      simp
    case h_2 h =>
      refine ⟨fun e => absurd e (by simp), fun e => ?_⟩
      have hk : (g.get a).kind = .arrow := by rw [← kind_value, e]; rfl
      obtain ⟨c', d', h'⟩ := Cell.shape_of_kind hk
      exact absurd h' (h c' d')

theorem hasBindings_iff {j : Judgement} {f : EnvForm} (hj : g.Apt j) (hf : f.Apt g) :
    g.hasBindings j.env f = true ↔ g.context (g.bindingsOf j.env) = f.context g := by
  cases f with
  | exactly e =>
    show g.same j.env e = true ↔ _
    rw [same_iff hj.env hf.1, value_of_kind_env hj.kind, value_of_kind_env hf.2, Value.env.injEq]
    rfl
  | bindings bs => exact sameBindings_iff hj.bindings hf

/-- A sequent meets a demand if the environment is the one asked for, the term is, and the type
has the form asked for. -/
theorem meets_iff {j : Judgement} {d : Demand} (hj : g.Apt j) (hd : d.Apt g) :
    g.meets j d = true ↔ (g.statement j).context = d.env.context g ∧
      (g.statement j).term = g.value d.term ∧ d.ty.Holds g (g.statement j).ty := by
  rw [meets, Bool.and_eq_true, Bool.and_eq_true, hasBindings_iff hj hd.env, same_iff hj.term hd.term,
    hasForm_iff hj.ty hd.ty, and_assoc]
  rfl

/-! ## premises -/

section
variable {ps : List Ref}

theorem expectArity_eq_ok {R : Rule} : expectArity R ps = .ok () ↔ ps.length = R.arity := by
  unfold expectArity
  split <;> simp_all

theorem premise_eq_ok {i : Nat} {j : Judgement} :
    g.premise ps i = .ok j ↔ ∃ p, ps[i]? = some p ∧ g.conclusion? p = some j := by
  unfold premise
  cases ps[i]? with
  | none => simp
  | some p => cases h : g.conclusion? p <;> simp [h]

/-- A type is a product with a given component on a side. -/
theorem hasComponent_iff {c a : Ref} {s : Side} (hc : g.Loose c) (ha : g.Loose a) :
    g.hasComponent c s a = true ↔ ∃ A B, g.value c = .product A B ∧ s.pick A B = g.value a := by
  unfold hasComponent
  constructor
  · intro h
    split at h
    case h_1 b b' hb =>
      obtain ⟨hl, -⟩ : g.Loose b ∧ g.Loose b' := by simpa [Cell.parts] using hc.parts_of_get hb
      exact ⟨g.value b, g.value b', value_of_get hb, (same_iff hl ha).mp h⟩
    case h_2 b' b hb =>
      obtain ⟨-, hl⟩ : g.Loose b' ∧ g.Loose b := by simpa [Cell.parts] using hc.parts_of_get hb
      exact ⟨g.value b', g.value b, value_of_get hb, (same_iff hl ha).mp h⟩
    case h_3 => exact absurd h (by simp)
  · rintro ⟨A, B, hv, hs⟩
    have hk : (g.get c).kind = .product := by rw [← kind_value, hv]; rfl
    obtain ⟨b, b', hb⟩ := Cell.shape_of_kind hk
    obtain ⟨hl, hl'⟩ : g.Loose b ∧ g.Loose b' := by simpa [Cell.parts] using hc.parts_of_get hb
    rw [value_of_get hb] at hv
    obtain ⟨rfl, rfl⟩ : g.value b = A ∧ g.value b' = B := by
      simpa [valueOf, Cell.fields, Cell.kind] using hv
    rw [hb]
    cases s with
    | left => exact (same_iff hl ha).mpr hs
    | right => exact (same_iff hl' ha).mpr hs

section
variable (hps : ∀ p ∈ ps, ∀ j, g.conclusion? p = some j → g.Apt j)
include hps

/-- A premise that passes records what the demand says, at some type of the form asked for. -/
theorem records_of_expectPremise {i : Nat} {d : Demand} (hd : d.Apt g) {a : Ref}
    (h : g.expectPremise ps i d = .ok a) :
    g.Loose a ∧ d.ty.Holds g (g.value a) ∧
      ∃ p, ps[i]? = some p ∧ g.Records p ⟨d.env.context g, g.value d.term, g.value a⟩ := by
  obtain ⟨j, hj, h⟩ := bind_eq_ok.mp h
  obtain ⟨p, hp, hc⟩ := premise_eq_ok.mp hj
  have hapt : g.Apt j := hps p (List.mem_of_getElem? hp) j hc
  split at h
  case isFalse => exact absurd h (by simp)
  case isTrue hm =>
    obtain rfl := Except.ok.inj h
    obtain ⟨hctx, hterm, hty⟩ := (meets_iff hapt hd).mp hm
    refine ⟨hapt.ty, hty, p, hp, j, hc, ?_⟩
    rw [← hctx, ← hterm]
    rfl

/-- The converse: a premise that records it passes. -/
theorem expectPremise_of_records {i : Nat} {d : Demand} (hd : d.Apt g) {p : Ref}
    (hp : ps[i]? = some p) {A : Value} (hA : d.ty.Holds g A)
    (h : g.Records p ⟨d.env.context g, g.value d.term, A⟩) :
    ∃ a, g.expectPremise ps i d = .ok a ∧ g.Loose a ∧ g.value a = A := by
  obtain ⟨j, hc, hs⟩ := h
  have hapt : g.Apt j := hps p (List.mem_of_getElem? hp) j hc
  have hm : g.meets j d = true := by
    rw [meets_iff hapt hd, hs]
    exact ⟨rfl, rfl, hA⟩
  refine ⟨j.ty, ?_, hapt.ty, congrArg Statement.ty hs⟩
  rw [expectPremise, premise_eq_ok.mpr ⟨p, hp, hc⟩]
  show (if g.meets j d = true then Except.ok j.ty else _) = Except.ok j.ty
  rw [if_pos hm]

/-- The premises from number `i` on, as many as there are demands, record what the demands say. -/
theorem expectAll_iff {ds : List Demand} {ss : List Statement}
    (h : List.Forall₂ (Demand.Says g) ds ss) (hds : ∀ d ∈ ds, d.Apt g) {i : Nat}
    (hlen : ps.length = i + ds.length) :
    g.expectAll ps i ds = .ok () ↔ List.Forall₂ g.Records (ps.drop i) ss := by
  induction h generalizing i with
  | nil =>
    rw [List.drop_eq_nil_of_le (by simp [hlen])]
    exact iff_of_true rfl .nil
  | @cons d s ds ss hs _ ih =>
    obtain ⟨hd, hds⟩ := List.forall_mem_cons.mp hds
    rw [List.length_cons] at hlen
    have hi : i < ps.length := by omega
    have hp : ps[i]? = some ps[i] := List.getElem?_eq_getElem hi
    rw [List.drop_eq_getElem_cons hi, List.forall₂_cons, ← ih hds (by omega), expectAll]
    constructor
    · intro h
      obtain ⟨a, ha, h⟩ := bind_eq_ok.mp h
      obtain ⟨-, hA, p, hp', hr⟩ := records_of_expectPremise hps hd ha
      obtain rfl : ps[i] = p := Option.some.inj (hp.symm.trans hp')
      rw [hs.context, hs.term, (hs.ty _).mp hA] at hr
      exact ⟨hr, h⟩
    · rintro ⟨hr, h⟩
      rw [show s = ⟨d.env.context g, g.value d.term, s.ty⟩ by rw [hs.context, hs.term]] at hr
      obtain ⟨a, ha, -⟩ := expectPremise_of_records hps hd hp ((hs.ty _).mpr rfl) hr
      rw [ha, ok_bind, h]

/-- The one premise records a product with the type `a` on the side. -/
theorem expectProjection_iff (hlen : ps.length = 1) {e t a : Ref}
    (hd : Demand.Apt g ⟨.exactly e, t, .any⟩) {s : Side} (ha : g.Loose a) :
    g.expectProjection ps ⟨.exactly e, t, .any⟩ s a = .ok () ↔
      ∃ A B, s.pick A B = g.value a ∧
        List.Forall₂ g.Records ps [⟨g.context (g.bindingsOf e), g.value t, .product A B⟩] := by
  obtain ⟨q, rfl⟩ := List.length_eq_one_iff.mp hlen
  constructor
  · intro h
    obtain ⟨c, hc, h'⟩ := bind_eq_ok.mp h
    obtain ⟨hloose, -, p, hp, hr⟩ := records_of_expectPremise hps hd hc
    obtain rfl : q = p := Option.some.inj hp
    have hf : g.hasComponent c s a = true := by
      by_contra hf
      rw [if_neg hf] at h'
      exact absurd h' (by simp)
    obtain ⟨A, B, hAB, hs⟩ := (hasComponent_iff hloose ha).mp hf
    exact ⟨A, B, hs, .cons (hAB ▸ hr) .nil⟩
  · rintro ⟨A, B, hs, _ | ⟨hp, -⟩⟩
    obtain ⟨c, hc, hloose, hv⟩ := expectPremise_of_records (i := 0) hps hd rfl trivial hp
    have hf := (hasComponent_iff (s := s) hloose ha).mpr ⟨A, B, hv, hs⟩
    rw [expectProjection, hc, ok_bind, if_pos hf]

end

end

end Graph

/-! ## what the premises are to record -/

/-- The sequents that answer to what is asked. -/
def Ask.Needs (g : Graph) (goal : Judgement) : Ask → List Statement → Prop
  | assumption x, ss => ss = [] ∧
    ∃ w, g.text? x = some w ∧ g.context (g.bindingsOf goal.env) w = some (g.value goal.ty)
  | conclusions cs, ss =>
    ss = cs.map fun c => ⟨g.context (g.bindingsOf goal.env), g.value c.1, g.value c.2⟩
  | falsity t, ss => ss = [⟨g.context (g.bindingsOf goal.env), g.value t, .bottom⟩]
  | disjunction t u v, ss => ∃ A B, ss =
      [⟨g.context (g.bindingsOf goal.env), g.value t, .sum A B⟩,
        ⟨g.context (g.bindingsOf goal.env), g.value u, .arrow A (g.value goal.ty)⟩,
        ⟨g.context (g.bindingsOf goal.env), g.value v, .arrow B (g.value goal.ty)⟩]
  | component s t, ss => ∃ A B, s.pick A B = g.value goal.ty ∧
      ss = [⟨g.context (g.bindingsOf goal.env), g.value t, .product A B⟩]
  | body x a t b, ss => ∃ w, g.text? x = some w ∧
      ss = [⟨Function.update (g.context (g.bindingsOf goal.env)) w (some (g.value a)), g.value t,
        g.value b⟩]

namespace Graph
variable {g : Graph} {ps : List Ref} {goal : Judgement} {R : Rule} {k : Ask}

theorem Apt.demand (hj : g.Apt goal) {t : Ref} (ht : g.Loose t) {f : TypeForm} (hf : f.Apt g) :
    Demand.Apt g ⟨.exactly goal.env, t, f⟩ := ⟨⟨hj.env, hj.kind⟩, ht, hf⟩

section
variable (hj : g.Apt goal)
include hj

theorem Apt.conclusions {cs : List (Ref × Ref)} (h : ∀ c ∈ cs, g.Loose c.1 ∧ g.Loose c.2) :
    ∀ d ∈ cs.map fun c => (⟨.exactly goal.env, c.1, .exactly c.2⟩ : Demand), d.Apt g := by
  intro d hd
  obtain ⟨c, hc, rfl⟩ := List.mem_map.mp hd
  exact hj.demand (h c hc).1 (h c hc).2

/-- Functions from the sides of a disjunction to the type of the goal. -/
theorem Apt.sides {u v c a b : Ref} (hu : g.Loose u) (hv : g.Loose v) (hc : g.Loose c)
    (hab : g.get c = .sum a b) :
    ∀ d ∈ [(⟨.exactly goal.env, u, .arrow a goal.ty⟩ : Demand),
      ⟨.exactly goal.env, v, .arrow b goal.ty⟩], d.Apt g := by
  obtain ⟨ha, hb⟩ : g.Loose a ∧ g.Loose b := by simpa [Cell.parts] using hc.parts_of_get hab
  exact List.forall_mem_cons.mpr ⟨hj.demand hu ⟨ha, hj.ty⟩,
    List.forall_mem_singleton.mpr (hj.demand hv ⟨hb, hj.ty⟩)⟩

theorem Apt.body {x a t b : Ref} (hx : g.isName x = true) (ha : g.Loose a) (ht : g.Loose t)
    (hb : g.Loose b) :
    ∀ d ∈ [(⟨.bindings (g.put x a (g.bindingsOf goal.env)), t, .exactly b⟩ : Demand)], d.Apt g :=
  List.forall_mem_singleton.mpr ⟨hj.bindings.put hx ha, ht, hb⟩

/-- What is asked about can be compared. -/
theorem Apt.ask (h : g.ask R goal = .inr k) : k.All g.Loose fun x => g.isName x = true :=
  ask_all (fun _ hp => hj.term.part hp) (fun _ hp => hj.ty.part hp) (fun _ hx => hj.term.label hx) h

theorem answer_assumption_iff {x : Ref} (hx : g.isName x = true) :
    g.answer [] goal (.assumption x) = .ok () ↔
      ∃ w, g.text? x = some w ∧
        g.context (g.bindingsOf goal.env) w = some (g.value goal.ty) := by
  obtain ⟨n, -, hw⟩ := exists_name hx
  -- a name can always be looked up
  simp only [answer, lookup, hashable_of_isName hx, if_true, find?_text hw, hw, Option.some.injEq,
    exists_eq_left', context]
  cases hf : (g.bindingsOf goal.env).find? fun e => g.text? e.1 == some n.word with
  | none => exact iff_of_false (by simp [Except.mapError]) (by simp)
  | some e =>
    have he : g.Loose e.2 := hj.bindings.values e (List.mem_of_find?_eq_some hf)
    show (if g.same e.2 goal.ty = true then _ else _) = Except.ok () ↔
      some (g.value e.2) = some (g.value goal.ty)
    rw [Option.some.injEq, ← same_iff he hj.ty]
    split <;> simp_all

variable (hps : ∀ p ∈ ps, ∀ j, g.conclusion? p = some j → g.Apt j)
include hps

theorem answer_disjunction_iff {t u v : Ref} (ht : g.Loose t) (hu : g.Loose u) (hv : g.Loose v)
    (hlen : ps.length = 3) : g.answer ps goal (.disjunction t u v) = .ok () ↔
      ∃ ss, List.Forall₂ g.Records ps ss ∧ (Ask.disjunction t u v).Needs g goal ss := by
  have hd : Demand.Apt g ⟨.exactly goal.env, t, .any⟩ := hj.demand ht trivial
  obtain ⟨p, q, r, rfl⟩ := List.length_eq_three.mp hlen
  -- the sides of the disjunction are read off the first premise
  have hsides : ∀ {c a b : Ref}, g.Loose c → g.get c = .sum a b →
      (g.expectAll [p, q, r] 1 [⟨.exactly goal.env, u, .arrow a goal.ty⟩,
        ⟨.exactly goal.env, v, .arrow b goal.ty⟩] = .ok () ↔
      List.Forall₂ g.Records [q, r]
        [⟨g.context (g.bindingsOf goal.env), g.value u, .arrow (g.value a) (g.value goal.ty)⟩,
          ⟨g.context (g.bindingsOf goal.env), g.value v, .arrow (g.value b) (g.value goal.ty)⟩]) := by
    intro c a b hc hab
    exact expectAll_iff hps (.cons ⟨rfl, rfl, fun _ => Iff.rfl⟩
      (.cons ⟨rfl, rfl, fun _ => Iff.rfl⟩ .nil)) (hj.sides hu hv hc hab) rfl
  constructor
  · intro h
    obtain ⟨c, hc, h⟩ := bind_eq_ok.mp h
    obtain ⟨hloose, -, _, ⟨⟩, hp⟩ := records_of_expectPremise hps hd hc
    split at h
    case h_2 => cases h
    case h_1 a b hab =>
      rw [value_of_get hab] at hp
      exact ⟨_, .cons hp ((hsides hloose hab).mp h), _, _, rfl⟩
  · rintro ⟨_, hr, A, B, rfl⟩
    obtain ⟨hp, hqr⟩ := List.forall₂_cons.mp hr
    obtain ⟨c, hc, hloose, hcv⟩ := expectPremise_of_records (i := 0) hps hd rfl trivial hp
    have hk : (g.get c).kind = .sum := by rw [← kind_value, hcv]; rfl
    obtain ⟨a, b, hab⟩ := Cell.shape_of_kind hk
    rw [value_of_get hab] at hcv
    obtain ⟨rfl, rfl⟩ : g.value a = A ∧ g.value b = B := by
      simpa [valueOf, Cell.fields, Cell.kind] using hcv
    rw [answer, hc, ok_bind]
    simp only [hab]
    exact (hsides hloose hab).mpr hqr

/-- The premises answer if they record what is needed. -/
theorem answer_iff (hk : k.All g.Loose fun x => g.isName x = true) (hlen : ps.length = k.arity) :
    g.answer ps goal k = .ok () ↔ ∃ ss, List.Forall₂ g.Records ps ss ∧ k.Needs g goal ss := by
  cases k with
  | assumption x =>
    obtain rfl := List.length_eq_zero_iff.mp hlen
    refine (answer_assumption_iff hj hk).trans ⟨fun h => ⟨[], .nil, rfl, h⟩, ?_⟩
    rintro ⟨_, -, -, h⟩
    exact h
  | conclusions cs =>
    have hsays : List.Forall₂ (Demand.Says g)
        (cs.map fun c => ⟨.exactly goal.env, c.1, .exactly c.2⟩)
        (cs.map fun c => ⟨g.context (g.bindingsOf goal.env), g.value c.1, g.value c.2⟩) := by
      rw [List.forall₂_map_left_iff, List.forall₂_map_right_iff, List.forall₂_same]
      exact fun c _ => ⟨rfl, rfl, fun _ => Iff.rfl⟩
    refine (expectAll_iff hps hsays (hj.conclusions hk) (by simp [hlen, Ask.arity])).trans ?_
    simp only [List.drop_zero, Ask.Needs, exists_eq_right]
  | falsity t =>
    have hsays : List.Forall₂ (Demand.Says g) [⟨.exactly goal.env, t, .bottom⟩]
        [⟨g.context (g.bindingsOf goal.env), g.value t, .bottom⟩] :=
      .cons ⟨rfl, rfl, fun _ => Iff.rfl⟩ .nil
    have hds := List.forall_mem_singleton.mpr (hj.demand (f := .bottom) hk trivial)
    refine (expectAll_iff hps hsays hds hlen).trans ?_
    simp only [List.drop_zero, Ask.Needs, exists_eq_right]
  | disjunction t u v => exact answer_disjunction_iff hj hps hk.1 hk.2.1 hk.2.2 hlen
  | component s t =>
    refine (expectProjection_iff hps hlen (hj.demand hk trivial) hj.ty).trans ⟨?_, ?_⟩
    · rintro ⟨A, B, hs, hr⟩
      exact ⟨_, hr, A, B, hs, rfl⟩
    · rintro ⟨_, hr, A, B, hs, rfl⟩
      exact ⟨A, B, hs, hr⟩
  | body x a t b =>
    obtain ⟨hx, ha, ht, hb⟩ := hk
    obtain ⟨n, -, hw⟩ := exists_name hx
    have hsays : List.Forall₂ (Demand.Says g)
        [⟨.bindings (g.put x a (g.bindingsOf goal.env)), t, .exactly b⟩]
        [⟨Function.update (g.context (g.bindingsOf goal.env)) n.word (some (g.value a)), g.value t,
          g.value b⟩] := .cons ⟨context_put hw, rfl, fun _ => Iff.rfl⟩ .nil
    rw [answer, Graph.bind, if_pos (hashable_of_isName hx)]
    refine (expectAll_iff hps hsays (hj.body hx ha ht hb) hlen).trans ?_
    simp only [List.drop_zero, Ask.Needs, hw, Option.some.injEq, exists_eq_left', exists_eq_right]

end

end Graph

/-! ## the nine rules -/

namespace Rule

theorem Instance.kind_term {R : Rule} {s : Statement} {ss : List Statement}
    (h : R.Instance s ss) : s.term.kind = R.termKind := by
  cases h <;> rfl

theorem Instance.kind_ty {R : Rule} {s : Statement} {ss : List Statement} (h : R.Instance s ss)
    {k : Kind} (hk : R.typeKind? = some k) : s.ty.kind = k := by
  cases h <;> cases hk <;> rfl

end Rule

namespace Graph
variable {g : Graph} {ps : List Ref} {goal : Judgement}

/-- The node has the premises that some application of the rule to the goal needs. -/
def Fits (g : Graph) (R : Rule) (ps : List Ref) (goal : Judgement) : Prop :=
  ∃ ss, List.Forall₂ g.Records ps ss ∧ R.Instance (g.statement goal) ss

theorem shaped_of_instance {R : Rule} {ss : List Statement}
    (h : R.Instance (g.statement goal) ss) : g.Shaped R goal := by
  constructor
  · rw [← kind_value]
    exact h.kind_term
  · intro k hk
    rw [← kind_value]
    exact h.kind_ty hk

theorem shaped_of_checkNode {R : Rule} (h : g.checkNode R ps goal = .ok ()) :
    g.Shaped R goal := by
  rw [checkNode_eq] at h
  split at h
  case h_1 => cases h
  case h_2 k hk => exact shaped_of_ask hk

theorem statement_of_get {t a : Cell} (ht : g.get goal.term = t) (ha : g.get goal.ty = a) :
    g.statement goal = ⟨g.context (g.bindingsOf goal.env), g.valueOf t, g.valueOf a⟩ := by
  rw [statement, value_of_get ht, value_of_get ha]

theorem valueOf_lambda {x : Ref} {n : Name} (h : g.value x = .name n) {a t : Ref} :
    g.valueOf (.lambda x a t) = .lambda n (g.value a) (g.value t) :=
  congrArg (fun v => Value.node .lambda [v, g.value a, g.value t]) h

theorem statement_of_term {t : Cell} (ht : g.get goal.term = t) :
    g.statement goal = ⟨g.context (g.bindingsOf goal.env), g.valueOf t, g.value goal.ty⟩ :=
  (statement_of_get ht rfl).trans (by rw [← value_eq_valueOf])

section
variable (hj : g.Apt goal)
include hj

/-- **The rules ask for the premises of their table.** -/
theorem needs_iff {R : Rule} {k : Ask} (h : g.ask R goal = .inr k) (ss : List Statement) :
    k.Needs g goal ss ↔ R.Instance (g.statement goal) ss := by
  have hs := shaped_of_ask h
  cases R with
  | assm =>
    obtain ⟨x, ht⟩ := Cell.shape_of_kind hs.term
    obtain ⟨n, hn, hw⟩ := exists_name (hj.term.label (x := x) (by simp [ht, Cell.labels]))
    have hv : g.valueOf (.var x) = .var n := congrArg (fun v => Value.node .var [v]) hn
    simp only [ask, ht, Sum.inr.injEq] at h
    rw [← h, statement_of_term ht, hv]
    constructor
    · rintro ⟨rfl, w, hw', hb⟩
      obtain rfl : n.word = w := Option.some.inj (hw.symm.trans hw')
      exact .assm hb
    · rintro ⟨hb⟩
      exact ⟨rfl, n.word, hw, hb⟩
  | pairIntro =>
    obtain ⟨t, u, ht⟩ := Cell.shape_of_kind hs.term
    obtain ⟨a, b, ha⟩ := Cell.shape_of_kind (hs.ty _ rfl)
    simp only [ask, ht, ha, Sum.inr.injEq] at h
    rw [← h, statement_of_get ht ha]
    constructor
    · rintro rfl
      exact .pairIntro
    · rintro ⟨⟩
      rfl
  | inlIntro | inrIntro =>
    obtain ⟨t, ht⟩ := Cell.shape_of_kind hs.term
    obtain ⟨a, b, ha⟩ := Cell.shape_of_kind (hs.ty _ rfl)
    simp only [ask, ht, ha, Sum.inr.injEq] at h
    rw [← h, statement_of_get ht ha]
    constructor
    · rintro rfl
      constructor
    · rintro ⟨⟩
      rfl
  | caseElim =>
    obtain ⟨t, u, v, ht⟩ := Cell.shape_of_kind hs.term
    simp only [ask, ht, Sum.inr.injEq] at h
    rw [← h, statement_of_term ht]
    constructor
    · rintro ⟨A, B, rfl⟩
      exact .caseElim
    · intro hi
      cases hi
      exact ⟨_, _, rfl⟩
  | fstElim | sndElim =>
    obtain ⟨t, ht⟩ := Cell.shape_of_kind hs.term
    simp only [ask, ht, Sum.inr.injEq] at h
    rw [← h, statement_of_term ht]
    constructor
    · rintro ⟨A, B, hA, rfl⟩
      rw [← hA]
      constructor
    · intro hi
      cases hi
      exact ⟨_, _, rfl, rfl⟩
  | lambdaIntro =>
    obtain ⟨x, a, t, ht⟩ := Cell.shape_of_kind hs.term
    obtain ⟨b, c, ha⟩ := Cell.shape_of_kind (hs.ty _ rfl)
    obtain ⟨n, hn, hw⟩ := exists_name (hj.term.label (x := x) (by simp [ht, Cell.labels]))
    obtain ⟨hla, -⟩ : g.Loose a ∧ g.Loose t := by simpa [Cell.parts] using hj.term.parts_of_get ht
    obtain ⟨hlb, -⟩ : g.Loose b ∧ g.Loose c := by simpa [Cell.parts] using hj.ty.parts_of_get ha
    simp only [ask, ht, ha] at h
    split at h
    case isFalse => cases h
    case isTrue hab =>
      obtain rfl := Sum.inr.inj h
      -- the premise binds the domain of the type, the table the type of the parameter
      rw [statement_of_get ht ha, valueOf_lambda hn, (same_iff hla hlb).mp hab]
      constructor
      · rintro ⟨w, hw', rfl⟩
        obtain rfl : n.word = w := Option.some.inj (hw.symm.trans hw')
        exact .lambdaIntro
      · rintro ⟨⟩
        exact ⟨n.word, hw, rfl⟩
  | bottomElim =>
    obtain ⟨t, ht⟩ := Cell.shape_of_kind hs.term
    simp only [ask, ht, Sum.inr.injEq] at h
    rw [← h, statement_of_term ht]
    constructor
    · rintro rfl
      exact .bottomElim
    · rintro ⟨⟩
      rfl

/-- A goal that is at fault is not a conclusion of the rule. -/
theorem not_instance_of_fault {R : Rule} {f : RuleFault} (h : g.ask R goal = .inl f)
    (ss : List Statement) : ¬ R.Instance (g.statement goal) ss := by
  intro hi
  rcases fault_of_ask h with ⟨hs, -⟩ | ⟨x, a, b, t, c, -, rfl, ht, ha, hab⟩
  · exact hs (shaped_of_instance hi)
  · obtain ⟨hla, -⟩ : g.Loose a ∧ g.Loose t := by simpa [Cell.parts] using hj.term.parts_of_get ht
    obtain ⟨hlb, -⟩ : g.Loose b ∧ g.Loose c := by simpa [Cell.parts] using hj.ty.parts_of_get ha
    have hne : g.value a ≠ g.value b := fun h =>
      Bool.false_ne_true (hab.symm.trans ((same_iff hla hlb).mpr h))
    obtain ⟨n, hn, -⟩ := exists_name (hj.term.label (x := x) (by simp [ht, Cell.labels]))
    rw [statement_of_get ht ha, valueOf_lambda hn] at hi
    generalize g.value a = A at hi hne
    cases hi
    exact hne rfl

variable (hps : ∀ p ∈ ps, ∀ j, g.conclusion? p = some j → g.Apt j)
include hps

/-- **A node passes exactly if it is in the table**: its premises record what an application of its
rule to the goal needs. -/
theorem checkNode_eq_ok_iff {R : Rule} : g.checkNode R ps goal = .ok () ↔ g.Fits R ps goal := by
  rw [checkNode_eq, Fits]
  cases hk : g.ask R goal with
  | inl f =>
    refine iff_of_false (by simp) ?_
    rintro ⟨ss, -, hi⟩
    exact not_instance_of_fault hj hk ss hi
  | inr k =>
    simp only [← needs_iff hj hk]
    constructor
    · intro h
      obtain ⟨⟨⟩, hl, h⟩ := bind_eq_ok.mp h
      have hlen : ps.length = k.arity := (expectArity_eq_ok.mp hl).trans (arity_of_ask hk).symm
      exact (answer_iff hj hps (hj.ask hk) hlen).mp h
    · rintro ⟨ss, hr, hi⟩
      have hl : ps.length = R.arity := hr.length_eq.trans ((needs_iff hj hk ss).mp hi).length
      rw [expectArity_eq_ok.mpr hl, ok_bind]
      exact (answer_iff hj hps (hj.ask hk) (hl.trans (arity_of_ask hk).symm)).mpr ⟨ss, hr, hi⟩

end

end Graph

end NaturalDeduction

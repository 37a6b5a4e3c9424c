import NaturalDeduction.Proofs.Forgery
import NaturalDeduction.Proofs.Twins

/-!
# Checks that agree

The rules are checked in the same way in two derivations whose nodes look alike and record sequents
that are twins: the same nodes pass, and the first one that does not is rejected in the same words.

* `RuleFault.Twin`       two faults about twins; `RuleFault.Twin.reject`: the rejections are equal;
* `Graph.InStep P`        two steps in the checks of two nodes: both give results that stand in the
                         relation `P`, or both stop for the same cause;
* `checkNode_inStep`      the checks of two nodes agree;
* `plainRules_of_parallel`   so do the recursions over two parallel derivations;
* `checkConclusion_of_matches`   and the comparisons of the roots with the targets.
-/

namespace NaturalDeduction

/-! ## faults -/

/-- Two expectations about twins. -/
inductive Expectation.Twin (g g' : Graph) : Expectation → Expectation → Prop
  | demand {d d' : Demand} (h : d.Twin g g' d') : Expectation.Twin g g' (.demand d) (.demand d')
  | scrutinee : Expectation.Twin g g' .scrutinee .scrutinee
  | component (s : Side) {a a' : Ref} (h : g.Twin g' .type a a') :
      Expectation.Twin g g' (.component s a) (.component s a')

/-- Two faults about twins. -/
inductive RuleFault.Twin (g g' : Graph) : RuleFault → RuleFault → Prop
  | term {t t' : Ref} (h : g.Twin g' .term t t') : RuleFault.Twin g g' (.term t) (.term t')
  | type {a a' : Ref} (h : g.Twin g' .type a a') : RuleFault.Twin g g' (.type a) (.type a')
  | arity (n : Nat) : RuleFault.Twin g g' (.arity n) (.arity n)
  | unbound {x x' e e' : Ref} (hx : g.Namesakes g' x x') (he : g.Twin g' .env e e') :
      RuleFault.Twin g g' (.unbound x e) (.unbound x' e')
  | assumption {x x' a a' b b' : Ref} (hx : g.Namesakes g' x x') (ha : g.Twin g' .type a a')
      (hb : g.Twin g' .type b b') : RuleFault.Twin g g' (.assumption x a b) (.assumption x' a' b')
  | parameter {x x' a a' b b' : Ref} (hx : g.Namesakes g' x x') (ha : g.Twin g' .type a a')
      (hb : g.Twin g' .type b b') : RuleFault.Twin g g' (.parameter x a b) (.parameter x' a' b')
  | premise (i : Nat) {e e' : Expectation} (h : Expectation.Twin g g' e e') :
      RuleFault.Twin g g' (.premise i e) (.premise i e')

section
variable {g g' : Graph} {ps ps' : List Ref}

theorem Expectation.Twin.text {e e' : Expectation} (h : Expectation.Twin g g' e e') :
    e.text g = e'.text g' := by
  cases h with
  | demand h => exact h.text
  | scrutinee => rfl
  | component s h => rw [Expectation.text, Expectation.text, h.showValue (by decide)]

variable (hps : List.Forall₂ (g.Matches g' (g.Twins g')) ps ps')
include hps

theorem Graph.showPremise_of_matches (i : Nat) : g.showPremise ps i = g'.showPremise ps' i := by
  rw [showPremise_eq, showPremise_eq]
  rcases rel_iff.mp (forall₂_iff_getElem?.mp hps i) with ⟨p, p', hp, hp', hm⟩ | ⟨hp, hp'⟩
  · rw [hp, hp', Option.map_some, Option.map_some]
    rcases rel_iff.mp hm.sequent with ⟨j, j', hj, hj', h⟩ | ⟨hj, hj'⟩
    · rw [hj, hj']
      exact h.showJudgement
    · rw [hj, hj']
  · rw [hp, hp']
    rfl

theorem RuleFault.Twin.message {f f' : RuleFault} (h : RuleFault.Twin g g' f f') (R : Rule) :
    f.message g R ps = f'.message g' R ps' := by
  cases h with
  | term h => rw [RuleFault.message, RuleFault.message, h.showValue (by decide)]
  | type h => rw [RuleFault.message, RuleFault.message, h.showValue (by decide)]
  | arity n => rfl
  | unbound hx he => rw [RuleFault.message, RuleFault.message, hx.str, he.showEnv]
  | assumption hx ha hb =>
    rw [RuleFault.message, RuleFault.message, hx.str, ha.showValue (by decide),
      hb.showValue (by decide)]
  | parameter hx ha hb =>
    rw [RuleFault.message, RuleFault.message, hx.str, ha.showValue (by decide),
      hb.showValue (by decide)]
  | premise i h =>
    rw [RuleFault.message, RuleFault.message, Graph.showPremise_of_matches hps, h.text]

/-- Faults about twins lead to the same rejection. -/
theorem RuleFault.Twin.reject {f f' : RuleFault} (h : RuleFault.Twin g g' f f') (R : Rule)
    (path : Location) : f.reject g R ps path = f'.reject g' R ps' path := by
  rw [RuleFault.reject, RuleFault.reject, h.message hps]
  cases h with
  | premise i h =>
    simp only
    rcases rel_iff.mp (forall₂_iff_getElem?.mp hps i) with ⟨p, p', hp, hp', hm⟩ | ⟨hp, hp'⟩
    · simp only [hp, hp', hm.rule]
      rfl
    · simp only [hp, hp']
  | _ => rfl

end

namespace Graph
variable {g g' : Graph}

/-! ## steps -/

/-- Two steps give results that stand in the relation `P`, or stop for the same cause. -/
inductive InStep (g g' : Graph) {α β : Type} (P : α → β → Prop) :
    Except NodeStop α → Except NodeStop β → Prop
  | ok {a : α} {b : β} (h : P a b) : InStep g g' P (.ok a) (.ok b)
  | fault {f f' : RuleFault} (h : RuleFault.Twin g g' f f') :
      InStep g g' P (.error (.fault f)) (.error (.fault f'))
  | failure (f : Failure) : InStep g g' P (.error (.failure f)) (.error (.failure f))

section
variable {α β γ δ : Type} {P : α → β → Prop} {Q : γ → δ → Prop}

theorem InStep.bind {x : Except NodeStop α} {y : Except NodeStop β} {k : α → Except NodeStop γ}
    {l : β → Except NodeStop δ} (h : g.InStep g' P x y)
    (hk : ∀ a b, P a b → g.InStep g' Q (k a) (l b)) : g.InStep g' Q (x >>= k) (y >>= l) := by
  cases h with
  | ok h => exact hk _ _ h
  | fault h => exact .fault h
  | failure f => exact .failure f

/-- A test with the same outcome on both sides. -/
theorem InStep.test {c d : Bool} (h : c = d) {x z : Except NodeStop α} {y w : Except NodeStop β}
    (hx : g.InStep g' P x y) (hz : g.InStep g' P z w) :
    g.InStep g' P (if c = true then x else z) (if d = true then y else w) := by
  subst h
  cases c
  · exact hz
  · exact hx

end

section
variable {ρ : Role} {r r' s s' : Ref}

theorem Twin.same (h : g.Twin g' ρ r r') {σ : Role} (hs : g.Twin g' σ s s') :
    g.same r s = g'.same r' s' := by
  rw [Bool.eq_iff_iff, same_iff h.left.loose hs.left.loose, same_iff h.right.loose hs.right.loose,
    h.value, hs.value]

theorem Twin.parts_of_get (h : g.Twin g' ρ r r') (hρ : ρ ≠ .env) {c c' : Cell} (hc : g.get r = c)
    (hc' : g'.get r' = c') :
    List.Forall₂ (fun p p' => p.1 = p'.1 ∧ g.Twin g' p.1 p.2 p'.2) c.parts c'.parts := by
  subst hc hc'
  exact h.parts hρ

theorem Twin.hasComponent {a a' b b' : Ref} (ha : g.Twin g' .type a a')
    (hb : g.Twin g' .type b b') (s : Side) : g.hasComponent a s b = g'.hasComponent a' s b' := by
  rw [Bool.eq_iff_iff, hasComponent_iff ha.left.loose hb.left.loose,
    hasComponent_iff ha.right.loose hb.right.loose, ha.value, hb.value]

end

/-! ## premises -/

section
variable {ps ps' : List Ref} (hps : List.Forall₂ (g.Matches g' (g.Twins g')) ps ps')
include hps

theorem premise_inStep (i : Nat) :
    g.InStep g' (g.Twins g') (g.premise ps i) (g'.premise ps' i) := by
  unfold premise
  rcases rel_iff.mp (forall₂_iff_getElem?.mp hps i) with ⟨p, p', hp, hp', hm⟩ | ⟨hp, hp'⟩
  · rcases rel_iff.mp hm.sequent with ⟨j, j', hj, hj', h⟩ | ⟨hj, hj'⟩
    · simp only [hp, hp', hj, hj']
      exact .ok h
    · simp only [hp, hp', hj, hj']
      exact .failure _
  · simp only [hp, hp']
    exact .failure _

theorem expectArity_inStep (R : Rule) :
    g.InStep g' (fun _ _ => True) (expectArity R ps) (expectArity R ps') := by
  unfold expectArity
  rw [← hps.length_eq]
  split
  · exact .ok trivial
  · exact .fault (.arity _)

theorem expectPremise_inStep (i : Nat) {d d' : Demand} (hd : d.Twin g g' d') :
    g.InStep g' (g.Twin g' .type) (g.expectPremise ps i d) (g'.expectPremise ps' i d') := by
  refine (premise_inStep hps i).bind fun j j' hj => ?_
  exact .test (hd.meets hj) (.ok hj.ty) (.fault (.premise i (.demand hd)))

theorem expectProjection_inStep {d d' : Demand} (hd : d.Twin g g' d') (s : Side) {a a' : Ref}
    (ha : g.Twin g' .type a a') :
    g.InStep g' (fun _ _ => True) (g.expectProjection ps d s a)
      (g'.expectProjection ps' d' s a') := by
  refine (expectPremise_inStep hps 0 hd).bind fun c c' hc => ?_
  exact .test (hc.hasComponent ha s) (.ok trivial) (.fault (.premise 0 (.component s ha)))

theorem expectAll_inStep {ds ds' : List Demand} (h : List.Forall₂ (Demand.Twin g g') ds ds')
    (i : Nat) :
    g.InStep g' (fun _ _ => True) (g.expectAll ps i ds) (g'.expectAll ps' i ds') := by
  induction h generalizing i with
  | nil => exact .ok trivial
  | cons hd _ ih => exact (expectPremise_inStep hps i hd).bind fun _ _ _ => ih (i + 1)

end

/-! ## nodes -/

theorem Twins.demand {j j' : Judgement} (h : g.Twins g' j j') {t t' : Ref}
    (ht : g.Twin g' .term t t') {f f' : TypeForm} (hf : TypeForm.Twin g g' f f') :
    Demand.Twin g g' ⟨.exactly j.env, t, f⟩ ⟨.exactly j'.env, t', f'⟩ :=
  ⟨EnvForm.twin_exactly h.env, ht, hf⟩

/-- Twins are cells of one kind with twins for parts. -/
theorem Twin.cells {ρ : Role} {r r' : Ref} (h : g.Twin g' ρ r r') (hρ : ρ ≠ .env) :
    (g.get r).Rel (g.Twin g') (g.Namesakes g') (g'.get r') :=
  ⟨h.kind, h.labels hρ, h.parts hρ⟩

section
variable {ps ps' : List Ref} {goal goal' : Judgement}
  (h : g.Twins g' goal goal')
include h

theorem answer_assumption_inStep {x x' : Ref} (hx : g.Namesakes g' x x') :
    g.InStep g' (fun _ _ => True) (g.answer ps goal (.assumption x))
      (g'.answer ps' goal' (.assumption x')) := by
  simp only [answer, lookup, hashable_of_isName hx.left, hashable_of_isName hx.right, if_true]
  rcases rel_iff.mp (h.env.find? hx) with ⟨a, a', hf, hf', ha⟩ | ⟨hf, hf'⟩
  · rw [hf, hf']
    exact .test (ha.same h.ty) (.ok trivial) (.fault (.assumption hx ha h.ty))
  · rw [hf, hf']
    exact .fault (.unbound hx h.env)

variable (hps : List.Forall₂ (g.Matches g' (g.Twins g')) ps ps')
include hps

theorem answer_disjunction_inStep {t t' u u' v v' : Ref} (ht : g.Twin g' .term t t')
    (hu : g.Twin g' .term u u') (hv : g.Twin g' .term v v') :
    g.InStep g' (fun _ _ => True) (g.answer ps goal (.disjunction t u v))
      (g'.answer ps' goal' (.disjunction t' u' v')) := by
  refine (expectPremise_inStep hps 0 (h.demand ht .any)).bind fun c c' hc => ?_
  -- the types of the scrutinees are both sums or both something else
  by_cases hk : (g.get c).kind = .sum
  · obtain ⟨a, b, hab⟩ := Cell.shape_of_kind hk
    obtain ⟨a', b', hab'⟩ := Cell.shape_of_kind (hc.kind.symm.trans hk)
    obtain ⟨ha, hb⟩ : g.Twin g' .type a a' ∧ g.Twin g' .type b b' := by
      simpa [Cell.parts] using hc.parts_of_get (by decide) hab hab'
    simp only [hab, hab']
    exact expectAll_inStep hps
      (.cons (h.demand hu (.arrow ha h.ty)) (.cons (h.demand hv (.arrow hb h.ty)) .nil)) 1
  · have hk' : (g'.get c').kind ≠ .sum := hc.kind ▸ hk
    split
    · exact absurd (by simp_all [Cell.kind]) hk
    · split
      · exact absurd (by simp_all [Cell.kind]) hk'
      · exact .fault (.premise 0 .scrutinee)

/-- Premises that match answer in the same way to what is asked about twins. -/
theorem answer_inStep {k k' : Ask} (hk : k.Rel (g.Twin g') (g.Namesakes g') k') :
    g.InStep g' (fun _ _ => True) (g.answer ps goal k) (g'.answer ps' goal' k') := by
  cases hk with
  | assumption hx => exact answer_assumption_inStep h hx
  | conclusions hcs =>
    refine expectAll_inStep hps ?_ 0
    rw [List.forall₂_map_left_iff, List.forall₂_map_right_iff]
    exact hcs.imp fun _ _ hc => h.demand hc.1 (.exactly hc.2)
  | falsity ht => exact expectAll_inStep hps (.cons (h.demand ht .bottom) .nil) 0
  | disjunction ht hu hv => exact answer_disjunction_inStep h hps ht hu hv
  | component s ht => exact expectProjection_inStep hps (h.demand ht .any) s h.ty
  | body hx ha ht hb =>
    simp only [answer, Graph.bind, hashable_of_isName hx.left, hashable_of_isName hx.right, if_true]
    -- the binding is put into environments that may be in different orders
    exact expectAll_inStep hps (.cons ⟨EnvForm.twin_put h.env hx ha, ht, .exactly hb⟩ .nil) 0

/-- **The checks of two nodes agree** if their goals are twins and their premises match. -/
theorem checkNode_inStep (R : Rule) :
    g.InStep g' (fun _ _ => True) (g.checkNode R ps goal) (g'.checkNode R ps' goal') := by
  have hask : Sum.LiftRel (RuleFault.Twin g g') (Ask.Rel (g.Twin g') (g.Namesakes g'))
      (g.ask R goal) (g'.ask R goal') :=
    ask_rel (h.term.cells (by decide)) (h.ty.cells (by decide)) (fun _ _ _ _ ha hb => ha.same hb)
      (.term h.term) (.type h.ty) fun _ _ _ _ _ _ hx ha hb => .parameter hx ha hb
  rw [checkNode_eq, checkNode_eq]
  generalize g.ask R goal = x at hask
  generalize g'.ask R goal' = y at hask
  cases hask with
  | inl hf => exact .fault hf
  | inr hk => exact (expectArity_inStep hps R).bind fun _ _ _ => answer_inStep h hps hk

end

/-! ## derivations -/

/-- Loops over two lists of premises that stand in a relation, one by one. -/
theorem forM_zipIdx_congr {ε α β : Type} {P : α → β → Prop} {f : α × Nat → Except ε Unit}
    {k : β × Nat → Except ε Unit} {l : List α} {l' : List β} (h : List.Forall₂ P l l')
    (hf : ∀ i a b, l[i]? = some a → l'[i]? = some b → P a b → f (a, i) = k (b, i)) :
    l.zipIdx.forM f = l'.zipIdx.forM k := by
  suffices ∀ n, (∀ i a b, l[i]? = some a → l'[i]? = some b → P a b → f (a, n + i) = k (b, n + i)) →
      (l.zipIdx n).forM f = (l'.zipIdx n).forM k from
    this 0 fun i a b ha hb hab => by rw [Nat.zero_add, hf i a b ha hb hab]
  clear hf
  induction h with
  | nil => exact fun n _ => rfl
  | @cons a b l l' hab _ ih =>
    intro n hf
    show (f (a, n) >>= fun _ => _) = (k (b, n) >>= fun _ => _)
    have hhead : f (a, n) = k (b, n) := hf 0 a b rfl rfl hab
    rw [hhead, ih (n + 1) fun i c d hc hd hcd => ?_]
    rw [Nat.add_right_comm, Nat.add_assoc]
    exact hf (i + 1) c d hc hd hcd

section
variable {tree tree' : Ref} {goal goal' : Judgement}

theorem checkAt_of_parallel (h : g.Parallel g' (g.Twins g') tree tree')
    (hgoal : g.Twins g' goal goal') (path : List Nat) :
    g.checkAt path tree goal = g'.checkAt path tree' goal' := by
  have hps : List.Forall₂ (g.Matches g' (g.Twins g')) (g.premisesOf tree) (g'.premisesOf tree') :=
    h.premises.imp fun _ _ hp => hp.root
  rw [checkAt, checkAt, h.root.rule]
  cases g'.ruleOf? tree' with
  | none => rfl
  | some R =>
    have hnode := checkNode_inStep hgoal hps R
    simp only
    generalize g.checkNode R (g.premisesOf tree) goal = x at hnode ⊢
    generalize g'.checkNode R (g'.premisesOf tree') goal' = y at hnode ⊢
    cases hnode with
    | ok => rfl
    | fault hf => simp only [hf.reject hps]
    | failure f => rfl

/-- The recursions over two parallel derivations have the same outcome. -/
theorem plainRules_of_parallel {n : Nat} (h : g.Parallel g' (g.Twins g') tree tree')
    (hgoal : g.Twins g' goal goal') (path : List Nat) :
    g.plainRules n path tree goal = g'.plainRules n path tree' goal' := by
  induction n generalizing path tree tree' goal goal' with
  | zero => rfl
  | succ n ih =>
    rw [plainRules_succ, plainRules_succ, checkAt_of_parallel h hgoal,
      forM_zipIdx_congr h.premises fun i p p' _ _ hp => ?_]
    unfold plainPremise
    rcases rel_iff.mp hp.root.sequent with ⟨j, j', hj, hj', htwins⟩ | ⟨hj, hj'⟩
    · rw [hj, hj']
      exact ih hp htwins (i :: path)
    · rw [hj, hj']

theorem checkConclusion_of_matches (h : g.Matches g' (g.Twins g') tree tree')
    (hgoal : g.Twins g' goal goal') :
    g.checkConclusion tree goal = g'.checkConclusion tree' goal' := by
  unfold checkConclusion
  rcases rel_iff.mp h.sequent with ⟨j, j', hj, hj', htwins⟩ | ⟨hj, hj'⟩
  · have hd := hgoal.demand hgoal.term (.exactly hgoal.ty)
    simp only [hj, hj', hd.meets htwins, htwins.showJudgement, hgoal.showJudgement, h.rule]
  · rw [hj, hj']

end

end Graph

end NaturalDeduction

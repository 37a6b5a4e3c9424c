import Mathlib.Data.Sum.Basic
import NaturalDeduction.Check.Node
import NaturalDeduction.Proofs.Value

/-!
# What the rules ask

The check of a node in two parts: what its rule makes of the goal, as data, and whether the premises
answer to it.

* `Ask`               what a rule asks of the premises once the goal has the form that it needs;
* `Graph.ask`         what a rule makes of a goal: a fault, or what it asks;
* `Graph.answer`      whether the premises answer to it;
* `checkNode_eq`      the check of a node is the one, the number of premises, and the other;
* `ask_all`           what is asked is about parts of the goal;
* `ask_rel`           two goals whose parts are related are asked for what is related.
-/

namespace NaturalDeduction

namespace Rule

/-- The kind of the terms that a rule is about. -/
def termKind : Rule → Kind
  | assm => .var
  | pairIntro => .pair
  | inlIntro => .inl
  | inrIntro => .inr
  | caseElim => .case
  | fstElim => .fst
  | sndElim => .snd
  | lambdaIntro => .lambda
  | bottomElim => .abort

/-- The kind of the types that a rule proves, if it is fixed. -/
def typeKind? : Rule → Option Kind
  | pairIntro => some .product
  | inlIntro => some .sum
  | inrIntro => some .sum
  | lambdaIntro => some .arrow
  | _ => none

end Rule

/-- What a rule asks of the premises. -/
inductive Ask where
  /-- nothing, but the name is bound to the type of the goal -/
  | assumption (x : Ref)
  /-- they derive terms of types, one by one -/
  | conclusions (cs : List (Ref × Ref))
  /-- a proof of falsity -/
  | falsity (t : Ref)
  /-- a disjunction, and functions from its sides to the type of the goal -/
  | disjunction (t u v : Ref)
  /-- a conjunction with the type of the goal on this side -/
  | component (s : Side) (t : Ref)
  /-- a term of a type, where a name is bound to another type -/
  | body (x a t b : Ref)
  deriving DecidableEq, Repr

/-- The references that are asked about have `P`, and the names have `Q`. -/
def Ask.All (P Q : Ref → Prop) : Ask → Prop
  | assumption x => Q x
  | conclusions cs => ∀ c ∈ cs, P c.1 ∧ P c.2
  | falsity t => P t
  | disjunction t u v => P t ∧ P u ∧ P v
  | component _ t => P t
  | body x a t b => Q x ∧ P a ∧ P t ∧ P b

/-- The same is asked about references and names that are related. -/
inductive Ask.Rel (T : Role → Ref → Ref → Prop) (N : Ref → Ref → Prop) : Ask → Ask → Prop
  | assumption {x x' : Ref} (hx : N x x') : Ask.Rel T N (.assumption x) (.assumption x')
  | conclusions {cs cs' : List (Ref × Ref)}
      (h : List.Forall₂ (fun c c' => T .term c.1 c'.1 ∧ T .type c.2 c'.2) cs cs') :
      Ask.Rel T N (.conclusions cs) (.conclusions cs')
  | falsity {t t' : Ref} (ht : T .term t t') : Ask.Rel T N (.falsity t) (.falsity t')
  | disjunction {t t' u u' v v' : Ref} (ht : T .term t t') (hu : T .term u u')
      (hv : T .term v v') : Ask.Rel T N (.disjunction t u v) (.disjunction t' u' v')
  | component (s : Side) {t t' : Ref} (ht : T .term t t') :
      Ask.Rel T N (.component s t) (.component s t')
  | body {x x' a a' t t' b b' : Ref} (hx : N x x') (ha : T .type a a') (ht : T .term t t')
      (hb : T .type b b') : Ask.Rel T N (.body x a t b) (.body x' a' t' b')

/-- Cells of one kind whose parts and names are related, one by one. -/
structure Cell.Rel (T : Role → Ref → Ref → Prop) (N : Ref → Ref → Prop) (c c' : Cell) : Prop where
  kind : c.kind = c'.kind
  labels : List.Forall₂ N c.labels c'.labels
  parts : List.Forall₂ (fun p p' => p.1 = p'.1 ∧ T p.1 p.2 p'.2) c.parts c'.parts

/-- The type of the first premise is left open. -/
def Ask.isOpen : Ask → Bool
  | disjunction _ _ _ => true
  | component _ _ => true
  | _ => false

/-- The number of premises that are asked for. -/
def Ask.arity : Ask → Nat
  | assumption _ => 0
  | conclusions cs => cs.length
  | falsity _ => 1
  | disjunction _ _ _ => 3
  | component _ _ => 1
  | body _ _ _ _ => 1

namespace Graph

/-- What a rule makes of a goal. -/
def ask (g : Graph) (R : Rule) (goal : Judgement) : RuleFault ⊕ Ask :=
  match R, g.get goal.term, g.get goal.ty with
  | .assm, .var x, _ => .inr (.assumption x)
  | .pairIntro, .pair t u, .product a b => .inr (.conclusions [(t, a), (u, b)])
  | .inlIntro, .inl t, .sum a _ => .inr (.conclusions [(t, a)])
  | .inrIntro, .inr t, .sum _ b => .inr (.conclusions [(t, b)])
  | .caseElim, .case t u v, _ => .inr (.disjunction t u v)
  | .fstElim, .fst t, _ => .inr (.component .left t)
  | .sndElim, .snd t, _ => .inr (.component .right t)
  | .lambdaIntro, .lambda x a t, .arrow b c =>
    if g.same a b then .inr (.body x b t c) else .inl (.parameter x a b)
  | .bottomElim, .abort t, _ => .inr (.falsity t)
  | _, t, _ => .inl (if t.kind = R.termKind then .type goal.ty else .term goal.term)

/-- The premises from number `i` on meet the demands, one by one. -/
def expectAll (g : Graph) (ps : List Ref) : Nat → List Demand → Except NodeStop Unit
  | _, [] => .ok ()
  | i, d :: ds => do
    let _ ← g.expectPremise ps i d
    g.expectAll ps (i + 1) ds

/-- Whether the premises answer to what is asked. -/
def answer (g : Graph) (ps : List Ref) (goal : Judgement) : Ask → Except NodeStop Unit
  | .assumption x => do
    match ← (g.lookup (g.bindingsOf goal.env) x).mapError .failure with
    | none => .error (.fault (.unbound x goal.env))
    | some a =>
      if g.same a goal.ty then .ok () else .error (.fault (.assumption x a goal.ty))
  | .conclusions cs =>
    g.expectAll ps 0 (cs.map fun c => ⟨.exactly goal.env, c.1, .exactly c.2⟩)
  | .falsity t => g.expectAll ps 0 [⟨.exactly goal.env, t, .bottom⟩]
  | .disjunction t u v => do
    let ty ← g.expectPremise ps 0 ⟨.exactly goal.env, t, .any⟩
    match g.get ty with
    | .sum a b =>
      g.expectAll ps 1 [⟨.exactly goal.env, u, .arrow a goal.ty⟩,
        ⟨.exactly goal.env, v, .arrow b goal.ty⟩]
    | _ => .error (.fault (.premise 0 .scrutinee))
  | .component s t => g.expectProjection ps ⟨.exactly goal.env, t, .any⟩ s goal.ty
  | .body x a t b => do
    let Δ ← (g.bind (g.bindingsOf goal.env) x a).mapError .failure
    g.expectAll ps 0 [⟨.bindings Δ, t, .exactly b⟩]

/-- The term and the type of the goal are of the kinds that the rule needs. -/
structure Shaped (g : Graph) (R : Rule) (goal : Judgement) : Prop where
  term : (g.get goal.term).kind = R.termKind
  ty : ∀ k, R.typeKind? = some k → (g.get goal.ty).kind = k

section
variable {g : Graph} {R : Rule} {ps : List Ref} {goal : Judgement}

/-! ## goals of another form -/

/-- The term is looked at before the type. -/
theorem ask_of_kind_ne (h : (g.get goal.term).kind ≠ R.termKind) :
    g.ask R goal = .inl (.term goal.term) := by
  unfold ask
  split
  case h_10 => rw [if_neg h]
  all_goals simp_all [Cell.kind, Rule.termKind]

theorem ask_of_type_ne {k : Kind} (ht : (g.get goal.term).kind = R.termKind)
    (hk : R.typeKind? = some k) (h : (g.get goal.ty).kind ≠ k) :
    g.ask R goal = .inl (.type goal.ty) := by
  unfold ask
  split
  case h_10 => rw [if_pos ht]
  all_goals simp_all [Cell.kind, Rule.typeKind?]

theorem shaped_of_ask {k : Ask} (h : g.ask R goal = .inr k) : g.Shaped R goal := by
  have ht : (g.get goal.term).kind = R.termKind := by
    by_contra ht
    rw [ask_of_kind_ne ht] at h
    cases h
  refine ⟨ht, fun k hk => ?_⟩
  by_contra hne
  rw [ask_of_type_ne ht hk hne] at h
  cases h

/-! ## the steps -/

/-- **The check of a node** looks at the goal, then at the number of premises, then at them. -/
theorem checkNode_eq : g.checkNode R ps goal =
    match g.ask R goal with
    | .inl f => .error (.fault f)
    | .inr k => expectArity R ps >>= fun _ => g.answer ps goal k := by
  by_cases ht : (g.get goal.term).kind = R.termKind
  case neg =>
    rw [ask_of_kind_ne ht]
    cases R <;> simp only [checkNode] <;> split <;> simp_all [Cell.kind, Rule.termKind]
  cases R with
  | assm =>
    obtain ⟨x, ht⟩ := Cell.shape_of_kind ht
    simp only [checkNode, ask, ht]
    rfl
  | pairIntro =>
    obtain ⟨t, u, ht⟩ := Cell.shape_of_kind ht
    unfold checkNode ask
    rw [ht]
    generalize g.get goal.ty = c
    cases c <;> rfl
  | inlIntro | inrIntro =>
    obtain ⟨t, ht⟩ := Cell.shape_of_kind ht
    unfold checkNode ask
    rw [ht]
    generalize g.get goal.ty = c
    cases c <;> rfl
  | caseElim =>
    obtain ⟨t, u, v, ht⟩ := Cell.shape_of_kind ht
    simp only [checkNode, ask, ht]
    rfl
  | fstElim | sndElim | bottomElim =>
    obtain ⟨t, ht⟩ := Cell.shape_of_kind ht
    simp only [checkNode, ask, ht]
    rfl
  | lambdaIntro =>
    obtain ⟨x, a, t, ht⟩ := Cell.shape_of_kind ht
    unfold checkNode ask
    rw [ht]
    generalize g.get goal.ty = c
    cases c with
    | arrow b c =>
      show (if g.same a b = true then _ else _) = _
      simp only
      split <;> rfl
    | _ => rfl

/-! ## parts -/

theorem arity_of_ask {k : Ask} (h : g.ask R goal = .inr k) : k.arity = R.arity := by
  unfold ask at h
  split at h
  case h_8 =>
    split at h <;> cases h
    rfl
  case h_10 => cases h
  all_goals
    cases h
    rfl

theorem mem_of_isOpen {k : Ask} (h : g.ask R goal = .inr k) (hk : k.isOpen = true) :
    R ∈ [.fstElim, .sndElim, .caseElim] := by
  unfold ask at h
  split at h
  case h_8 =>
    split at h <;> cases h
    exact absurd hk Bool.false_ne_true
  case h_10 => cases h
  all_goals
    cases h
    first | decide | exact absurd hk Bool.false_ne_true

/-- What is at fault with a goal: its form, or the type of a parameter. -/
theorem fault_of_ask {f : RuleFault} (h : g.ask R goal = .inl f) :
    ¬ g.Shaped R goal ∧ (f = .term goal.term ∨ f = .type goal.ty) ∨
      ∃ x a b t c, f = .parameter x a b ∧ R = .lambdaIntro ∧ g.get goal.term = .lambda x a t ∧
        g.get goal.ty = .arrow b c ∧ g.same a b = false := by
  by_cases ht : (g.get goal.term).kind = R.termKind
  case neg =>
    rw [ask_of_kind_ne ht] at h
    exact .inl ⟨fun hs => ht hs.term, .inl (Sum.inl.inj h).symm⟩
  by_cases hty : ∀ k, R.typeKind? = some k → (g.get goal.ty).kind = k
  case neg =>
    have hs : ¬ g.Shaped R goal := fun hs => hty hs.ty
    push Not at hty
    obtain ⟨k, hk, hne⟩ := hty
    rw [ask_of_type_ne ht hk hne] at h
    exact .inl ⟨hs, .inr (Sum.inl.inj h).symm⟩
  cases R with
  | lambdaIntro =>
    obtain ⟨x, a, t, ht⟩ := Cell.shape_of_kind ht
    obtain ⟨b, c, ha⟩ := Cell.shape_of_kind (hty _ rfl)
    simp only [ask, ht, ha] at h
    split at h
    case isTrue => cases h
    case isFalse hne =>
      exact .inr ⟨x, a, b, t, c, (Sum.inl.inj h).symm, rfl, ht, ha, Bool.eq_false_iff.mpr hne⟩
  | pairIntro =>
    obtain ⟨t, u, ht⟩ := Cell.shape_of_kind ht
    obtain ⟨a, b, ha⟩ := Cell.shape_of_kind (hty _ rfl)
    simp only [ask, ht, ha, reduceCtorEq] at h
  | inlIntro | inrIntro =>
    obtain ⟨t, ht⟩ := Cell.shape_of_kind ht
    obtain ⟨a, b, ha⟩ := Cell.shape_of_kind (hty _ rfl)
    simp only [ask, ht, ha, reduceCtorEq] at h
  | caseElim =>
    obtain ⟨t, u, v, ht⟩ := Cell.shape_of_kind ht
    simp only [ask, ht, reduceCtorEq] at h
  | assm | fstElim | sndElim | bottomElim =>
    obtain ⟨t, ht⟩ := Cell.shape_of_kind ht
    simp only [ask, ht, reduceCtorEq] at h

/-- What is asked is about parts of the goal. -/
theorem ask_all {P Q : Ref → Prop} (ht : ∀ p ∈ (g.get goal.term).parts, P p.2)
    (ha : ∀ p ∈ (g.get goal.ty).parts, P p.2) (hx : ∀ x ∈ (g.get goal.term).labels, Q x) {k : Ask}
    (h : g.ask R goal = .inr k) : k.All P Q := by
  unfold ask at h
  split at h
  case h_8 =>
    split at h <;> cases h
    simp_all [Ask.All, Cell.parts, Cell.labels]
  case h_10 => cases h
  all_goals
    cases h
    simp_all [Ask.All, Cell.parts, Cell.labels]

end

section
variable {g g' : Graph} {R : Rule} {goal goal' : Judgement} {T : Role → Ref → Ref → Prop}
  {N : Ref → Ref → Prop} {F : RuleFault → RuleFault → Prop}

/-- Goals whose parts are related, one by one, are at fault in the same way, or are asked for what
is related. -/
theorem ask_rel (ht : (g.get goal.term).Rel T N (g'.get goal'.term))
    (ha : (g.get goal.ty).Rel T N (g'.get goal'.ty))
    (hsame : ∀ a a' b b', T .type a a' → T .type b b' → g.same a b = g'.same a' b')
    (hterm : F (.term goal.term) (.term goal'.term)) (htype : F (.type goal.ty) (.type goal'.ty))
    (hparam : ∀ x x' a a' b b', N x x' → T .type a a' → T .type b b' →
      F (.parameter x a b) (.parameter x' a' b')) :
    Sum.LiftRel F (Ask.Rel T N) (g.ask R goal) (g'.ask R goal') := by
  by_cases hk : (g.get goal.term).kind = R.termKind
  case neg =>
    rw [ask_of_kind_ne hk, ask_of_kind_ne (ht.kind ▸ hk)]
    exact .inl hterm
  by_cases hty : ∀ k, R.typeKind? = some k → (g.get goal.ty).kind = k
  case neg =>
    push Not at hty
    obtain ⟨k, hk', hne⟩ := hty
    rw [ask_of_type_ne hk hk' hne, ask_of_type_ne (ht.kind ▸ hk) hk' (ha.kind ▸ hne)]
    exact .inl htype
  have hk' : (g'.get goal'.term).kind = R.termKind := ht.kind ▸ hk
  have hty' : ∀ k, R.typeKind? = some k → (g'.get goal'.ty).kind = k :=
    fun k h => ha.kind ▸ hty k h
  have hlabels := ht.labels
  have hparts := ht.parts
  have hsides := ha.parts
  cases R with
  | assm =>
    obtain ⟨x, hx⟩ := Cell.shape_of_kind hk
    obtain ⟨x', hx'⟩ := Cell.shape_of_kind hk'
    simp only [ask, hx, hx', Cell.labels, List.forall₂_cons] at hlabels ⊢
    exact .inr (.assumption hlabels.1)
  | pairIntro =>
    obtain ⟨t, u, h⟩ := Cell.shape_of_kind hk
    obtain ⟨t', u', h'⟩ := Cell.shape_of_kind hk'
    obtain ⟨a, b, hab⟩ := Cell.shape_of_kind (hty _ rfl)
    obtain ⟨a', b', hab'⟩ := Cell.shape_of_kind (hty' _ rfl)
    simp only [h, h', hab, hab', Cell.parts, List.forall₂_cons] at hparts hsides
    simp only [ask, h, h', hab, hab']
    exact .inr (.conclusions (.cons ⟨hparts.1.2, hsides.1.2⟩
      (.cons ⟨hparts.2.1.2, hsides.2.1.2⟩ .nil)))
  | inlIntro =>
    obtain ⟨t, h⟩ := Cell.shape_of_kind hk
    obtain ⟨t', h'⟩ := Cell.shape_of_kind hk'
    obtain ⟨a, b, hab⟩ := Cell.shape_of_kind (hty _ rfl)
    obtain ⟨a', b', hab'⟩ := Cell.shape_of_kind (hty' _ rfl)
    simp only [h, h', hab, hab', Cell.parts, List.forall₂_cons] at hparts hsides
    simp only [ask, h, h', hab, hab']
    exact .inr (.conclusions (.cons ⟨hparts.1.2, hsides.1.2⟩ .nil))
  | inrIntro =>
    obtain ⟨t, h⟩ := Cell.shape_of_kind hk
    obtain ⟨t', h'⟩ := Cell.shape_of_kind hk'
    obtain ⟨a, b, hab⟩ := Cell.shape_of_kind (hty _ rfl)
    obtain ⟨a', b', hab'⟩ := Cell.shape_of_kind (hty' _ rfl)
    simp only [h, h', hab, hab', Cell.parts, List.forall₂_cons] at hparts hsides
    simp only [ask, h, h', hab, hab']
    exact .inr (.conclusions (.cons ⟨hparts.1.2, hsides.2.1.2⟩ .nil))
  | caseElim =>
    obtain ⟨t, u, v, h⟩ := Cell.shape_of_kind hk
    obtain ⟨t', u', v', h'⟩ := Cell.shape_of_kind hk'
    simp only [ask, h, h', Cell.parts, List.forall₂_cons] at hparts ⊢
    exact .inr (.disjunction hparts.1.2 hparts.2.1.2 hparts.2.2.1.2)
  | fstElim | sndElim =>
    obtain ⟨t, h⟩ := Cell.shape_of_kind hk
    obtain ⟨t', h'⟩ := Cell.shape_of_kind hk'
    simp only [ask, h, h', Cell.parts, List.forall₂_cons] at hparts ⊢
    exact .inr (.component _ hparts.1.2)
  | lambdaIntro =>
    obtain ⟨x, a, t, h⟩ := Cell.shape_of_kind hk
    obtain ⟨x', a', t', h'⟩ := Cell.shape_of_kind hk'
    obtain ⟨b, c, hbc⟩ := Cell.shape_of_kind (hty _ rfl)
    obtain ⟨b', c', hbc'⟩ := Cell.shape_of_kind (hty' _ rfl)
    simp only [h, h', hbc, hbc', Cell.parts, Cell.labels, List.forall₂_cons]
      at hlabels hparts hsides
    simp only [ask, h, h', hbc, hbc', hsame a a' b b' hparts.1.2 hsides.1.2]
    split
    · exact .inr (.body hlabels.1 hsides.1.2 hparts.2.1.2 hsides.2.1.2)
    · exact .inl (hparam x x' a a' b b' hlabels.1 hparts.1.2 hsides.1.2)
  | bottomElim =>
    obtain ⟨t, h⟩ := Cell.shape_of_kind hk
    obtain ⟨t', h'⟩ := Cell.shape_of_kind hk'
    simp only [ask, h, h', Cell.parts, List.forall₂_cons] at hparts ⊢
    exact .inr (.falsity hparts.1.2)

end

end Graph

end NaturalDeduction

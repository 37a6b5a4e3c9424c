import NaturalDeduction.Proofs.Printing

/-!
# The faults of single nodes

* `RuleFault.Apt`       the values in a fault can be compared, hence printed;
* `Graph.Safe`          a step in the check of a node that comes to a result or to such a fault, never
                        to a failure;
* `checkNode_safe`      the check of a node whose sequents can be compared is safe;
* `exists_reject`       such a fault has a message.
-/

namespace NaturalDeduction

def Expectation.Apt (g : Graph) : Expectation → Prop
  | demand d => d.Apt g
  | scrutinee => True
  | component _ a => g.Loose a

/-- The values in a fault of a node with premises `ps` can be compared. -/
def RuleFault.Apt (g : Graph) (ps : List Ref) : RuleFault → Prop
  | term t => g.Loose t
  | type a => g.Loose a
  | arity _ => True
  | unbound x e => g.isName x = true ∧ g.Loose e ∧ (g.get e).kind = .env
  | assumption x a b => g.isName x = true ∧ g.Loose a ∧ g.Loose b
  | parameter x a b => g.isName x = true ∧ g.Loose a ∧ g.Loose b
  | premise i e => (∃ p j, ps[i]? = some p ∧ g.conclusion? p = some j ∧ g.Apt j) ∧ e.Apt g

theorem TypeForm.Apt.loose {g : Graph} {f : TypeForm} (h : f.Apt g) {s : Ref}
    (hs : .part s ∈ f.pieces) : g.Loose s := by
  cases f <;> simp [pieces] at hs
  · exact hs ▸ h
  · rcases hs with rfl | rfl
    · exact h.1
    · exact h.2

namespace Graph
variable {g : Graph} {ps : List Ref} {goal : Judgement}

/-- The premises record sequents that can be compared. -/
def AptPremises (g : Graph) (ps : List Ref) : Prop :=
  ∀ p ∈ ps, ∃ j, g.conclusion? p = some j ∧ g.Apt j

/-- A step that gives a result with `P` or a fault whose values can be compared. -/
def Safe (g : Graph) (ps : List Ref) {α : Type} (P : α → Prop) : Except NodeStop α → Prop
  | .ok a => P a
  | .error (.fault f) => f.Apt g ps
  | .error (.failure _) => False

theorem Safe.bind {α β : Type} {P : α → Prop} {Q : β → Prop} {x : Except NodeStop α}
    {k : α → Except NodeStop β} (hx : g.Safe ps P x) (hk : ∀ a, P a → g.Safe ps Q (k a)) :
    g.Safe ps Q (x >>= k) := by
  cases x with
  | ok a => exact hk a hx
  | error e => cases e <;> exact hx

/-! ## premises -/

theorem expectArity_safe (R : Rule) :
    g.Safe ps (fun _ => ps.length = R.arity) (expectArity R ps) := by
  unfold expectArity
  split
  · assumption
  · trivial

section
variable (hps : g.AptPremises ps)
include hps

theorem exists_premise {i : Nat} (hi : i < ps.length) :
    ∃ p j, ps[i]? = some p ∧ g.conclusion? p = some j ∧ g.Apt j := by
  obtain ⟨j, hj, hapt⟩ := hps ps[i] (List.getElem_mem hi)
  exact ⟨ps[i], j, List.getElem?_eq_getElem hi, hj, hapt⟩

theorem expectPremise_safe {i : Nat} (hi : i < ps.length) {d : Demand} (hd : d.Apt g) :
    g.Safe ps g.Loose (g.expectPremise ps i d) := by
  obtain ⟨p, j, hp, hj, hapt⟩ := exists_premise hps hi
  rw [expectPremise, premise_eq_ok.mpr ⟨p, hp, hj⟩, ok_bind]
  split
  · exact hapt.ty
  · exact ⟨⟨p, j, hp, hj, hapt⟩, hd⟩

theorem expectProjection_safe (hi : 0 < ps.length) {d : Demand} (hd : d.Apt g) (s : Side) {a : Ref}
    (ha : g.Loose a) : g.Safe ps (fun _ => True) (g.expectProjection ps d s a) := by
  refine (expectPremise_safe hps hi hd).bind fun ty _ => ?_
  split
  · trivial
  · exact ⟨exists_premise hps hi, ha⟩

theorem expectAll_safe {ds : List Demand} (hds : ∀ d ∈ ds, d.Apt g) {i : Nat}
    (hlen : i + ds.length ≤ ps.length) : g.Safe ps (fun _ => True) (g.expectAll ps i ds) := by
  induction ds generalizing i with
  | nil => trivial
  | cons d ds ih =>
    obtain ⟨hd, hds⟩ := List.forall_mem_cons.mp hds
    rw [List.length_cons] at hlen
    exact (expectPremise_safe hps (by omega) hd).bind fun _ _ => ih hds (by omega)

/-! ## nodes -/

variable (hj : g.Apt goal)
include hj

/-- Premises, as many as are asked for, answer or there is a fault. -/
theorem answer_safe {k : Ask} (hk : k.All g.Loose fun x => g.isName x = true)
    (hlen : ps.length = k.arity) : g.Safe ps (fun _ => True) (g.answer ps goal k) := by
  cases k with
  | assumption x =>
    rw [answer, lookup, if_pos (hashable_of_isName hk)]
    cases hf : g.find? (g.bindingsOf goal.env) x with
    | none => exact ⟨hk, hj.env, hj.kind⟩
    | some a =>
      obtain ⟨e, he, rfl⟩ := Option.map_eq_some_iff.mp hf
      have hl : g.Loose e.2 := hj.bindings.values e (List.mem_of_find?_eq_some he)
      show g.Safe ps _ (if g.same e.2 goal.ty then _ else _)
      split
      · trivial
      · exact ⟨hk, hl, hj.ty⟩
  | conclusions cs =>
    exact expectAll_safe hps (hj.conclusions hk) (by simp [hlen, Ask.arity])
  | falsity t =>
    have hd := List.forall_mem_singleton.mpr (hj.demand (f := .bottom) hk trivial)
    exact expectAll_safe hps hd (Nat.le_of_eq hlen.symm)
  | disjunction t u v =>
    obtain ⟨ht, hu, hv⟩ := hk
    have hlen : ps.length = 3 := hlen
    refine (expectPremise_safe hps (by omega) (hj.demand ht (f := .any) trivial)).bind fun c hc => ?_
    split
    case h_1 a b hab =>
      exact expectAll_safe hps (hj.sides hu hv hc hab) (Nat.le_of_eq hlen.symm)
    case h_2 => exact ⟨exists_premise hps (by omega), trivial⟩
  | component s t =>
    have hlen : ps.length = 1 := hlen
    exact expectProjection_safe hps (by omega) (hj.demand hk (f := .any) trivial) s hj.ty
  | body x a t b =>
    obtain ⟨hx, ha, ht, hb⟩ := hk
    rw [answer, Graph.bind, if_pos (hashable_of_isName hx)]
    exact expectAll_safe hps (hj.body hx ha ht hb) (Nat.le_of_eq hlen.symm)

/-- **The check of a node** never fails: it passes, or there is a fault to report. -/
theorem checkNode_safe (R : Rule) : g.Safe ps (fun _ => True) (g.checkNode R ps goal) := by
  rw [checkNode_eq]
  cases hk : g.ask R goal with
  | inl f =>
    rcases fault_of_ask hk with ⟨-, rfl | rfl⟩ | ⟨x, a, b, t, c, rfl, -, ht, ha, -⟩
    · exact hj.term
    · exact hj.ty
    · have hx : g.isName x = true := hj.term.label (by simp [ht, Cell.labels])
      obtain ⟨hla, -⟩ : g.Loose a ∧ g.Loose t := by simpa [Cell.parts] using hj.term.parts_of_get ht
      obtain ⟨hlb, -⟩ : g.Loose b ∧ g.Loose c := by simpa [Cell.parts] using hj.ty.parts_of_get ha
      exact ⟨hx, hla, hlb⟩
  | inr k =>
    exact (expectArity_safe R).bind fun _ hl =>
      answer_safe hps hj (hj.ask hk) (hl.trans (arity_of_ask hk).symm)

end

/-! ## messages -/

theorem exists_str {x : Ref} (h : g.isName x = true) : ∃ s, g.str x = .ok s := by
  obtain ⟨n, -, hn⟩ := exists_name h
  exact ⟨n.word, str_of_text? hn⟩

theorem exists_demandText {d : Demand} (h : d.Apt g) : ∃ s, d.text g = .ok s := by
  obtain ⟨s₁, h₁⟩ : ∃ s, d.env.text g = .ok s := by
    have he := h.env
    unfold EnvForm.text
    cases hd : d.env with
    | exactly e =>
      rw [hd] at he
      exact exists_showEnv shown he.1 he.2
    | bindings bs =>
      rw [hd] at he
      exact exists_showBindings shown he
  obtain ⟨s₂, h₂⟩ := exists_showValue shown h.term
  obtain ⟨s₃, h₃⟩ := exists_showPieces shown fun s hs => h.ty.loose hs
  rw [Demand.text, h₁, ok_bind, h₂, ok_bind, h₃]
  exact ⟨_, rfl⟩

theorem exists_expectationText {e : Expectation} (h : e.Apt g) : ∃ s, e.text g = .ok s := by
  cases e with
  | demand d => exact exists_demandText h
  | scrutinee => exact ⟨_, rfl⟩
  | component s a =>
    obtain ⟨t, ht⟩ := exists_showValue shown h
    rw [Expectation.text, ht]
    exact ⟨_, rfl⟩

theorem exists_showPremise {i : Nat}
    (h : ∃ p j, ps[i]? = some p ∧ g.conclusion? p = some j ∧ g.Apt j) :
    ∃ s, g.showPremise ps i = .ok s := by
  obtain ⟨p, j, hp, hj, hapt⟩ := h
  rw [showPremise, hp]
  unfold conclusion? at hj
  cases hc : g.get p with
  | derivation R c q =>
    rw [hc] at hj
    simp only [hc]
    exact exists_showSequent shown hj hapt
  | _ => rw [hc] at hj; cases hj

theorem exists_message (R : Rule) {f : RuleFault} (h : f.Apt g ps) :
    ∃ s, f.message g R ps = .ok s := by
  cases f with
  | term t =>
    obtain ⟨s, hs⟩ := exists_showValue shown h
    exact ⟨_, by rw [RuleFault.message, hs]; rfl⟩
  | type a =>
    obtain ⟨s, hs⟩ := exists_showValue shown h
    exact ⟨_, by rw [RuleFault.message, hs]; rfl⟩
  | arity n => exact ⟨_, rfl⟩
  | unbound x e =>
    obtain ⟨hx, he, hk⟩ := h
    obtain ⟨s, hs⟩ := exists_str hx
    obtain ⟨t, ht⟩ := exists_showEnv shown he hk
    exact ⟨_, by rw [RuleFault.message, hs, ok_bind, ht]; rfl⟩
  | assumption x a b =>
    obtain ⟨hx, ha, hb⟩ := h
    obtain ⟨s, hs⟩ := exists_str hx
    obtain ⟨t, ht⟩ := exists_showValue shown ha
    obtain ⟨u, hu⟩ := exists_showValue shown hb
    exact ⟨_, by rw [RuleFault.message, hs, ok_bind, ht, ok_bind, hu]; rfl⟩
  | parameter x a b =>
    obtain ⟨hx, ha, hb⟩ := h
    obtain ⟨s, hs⟩ := exists_str hx
    obtain ⟨t, ht⟩ := exists_showValue shown ha
    obtain ⟨u, hu⟩ := exists_showValue shown hb
    exact ⟨_, by rw [RuleFault.message, ht, ok_bind, hs, ok_bind, hu]; rfl⟩
  | premise i e =>
    obtain ⟨s, hs⟩ := exists_showPremise h.1
    obtain ⟨t, ht⟩ := exists_expectationText h.2
    exact ⟨_, by rw [RuleFault.message, hs, ok_bind, ht]; rfl⟩

/-- A fault whose values can be compared leads to a rejection. -/
theorem exists_reject (R : Rule) (path : Location) {f : RuleFault} (h : f.Apt g ps) :
    ∃ r, f.reject g R ps path = .ok r := by
  obtain ⟨s, hs⟩ := exists_message R h
  rw [RuleFault.reject, hs, ok_bind]
  cases f with
  | premise i e =>
    obtain ⟨⟨p, j, hp, -⟩, -⟩ := h
    simp only [hp]
    exact ⟨_, rfl⟩
  | _ => exact ⟨_, rfl⟩

end Graph

end NaturalDeduction

import NaturalDeduction.Proofs.Trees

/-!
# The first fault of a value

A walk through a type or a term passes over what it has seen before. What it reports is what a
reader of the whole tree would report who looks at every part, and at each before its own parts.

* `Slot`, `Slot.fits`     what a place in a value is for, and what may stand there, parts aside;
* `Value.parts`           the parts of a value from left to right, with their slots;
* `Value.subvalues`       the value and all that is below it, in pre-order, with the ways there;
* `Slot.fault?`           the way to the first of them that does not fit;
* `Trust.typeFault`, `Trust.termFault`   a walk with a memo that can be trusted reports that, and
                          leaves such a memo behind, whether it passes or stops;
* `typeFault_eq_fault?`, `termFault_eq_fault?`   so do the walks without a memo;
* `Graph.follow?`         the way in the graph: a reported way leads to the part it is about;
* `walks_find_first`      all of this, for both walks.
-/

namespace NaturalDeduction

/-- What a place in a value is for. -/
inductive Slot where
  | type
  | term
  | name
  deriving DecidableEq, Repr

/-- What a value must be to stand in a slot. -/
def Slot.Holds : Slot → Value → Prop
  | type, v => v.IsType
  | term, v => v.IsTerm
  | name, v => ∃ n : Name, v = .name n ∧ n.word ≠ ""

namespace Value

/-- A text that is not empty. -/
def isName : Value → Bool
  | .name n => n.word != ""
  | _ => false

/-- The parts of a value, from left to right, with their fields and their slots. The name of a base
type or of a variable is not looked at on its own. -/
def parts : Value → List (Field × Slot × Value)
  | .arrow a b => [(.dom, .type, a), (.cod, .type, b)]
  | .product a b => [(.left, .type, a), (.right, .type, b)]
  | .sum a b => [(.left, .type, a), (.right, .type, b)]
  | .pair t u => [(.fst, .term, t), (.snd, .term, u)]
  | .inl t => [(.body, .term, t)]
  | .inr t => [(.body, .term, t)]
  | .case t u v => [(.scrutinee, .term, t), (.onLeft, .term, u), (.onRight, .term, v)]
  | .fst t => [(.pair, .term, t)]
  | .snd t => [(.pair, .term, t)]
  | .node .lambda [x, a, t] => [(.param, .name, x), (.paramTy, .type, a), (.body, .term, t)]
  | .abort t => [(.body, .term, t)]
  | _ => []

theorem exists_of_mem_parts {v : Value} {p : Field × Slot × Value} (h : p ∈ v.parts) :
    ∃ k vs, v = .node k vs ∧ p.2.2 ∈ vs := by
  unfold parts at h
  split at h
  all_goals
    simp only [List.mem_cons, List.not_mem_nil, or_false] at h
    try exact ⟨_, _, rfl, by grind⟩

theorem sizeOf_lt_of_mem_parts {v : Value} {p : Field × Slot × Value} (h : p ∈ v.parts) :
    sizeOf p.2.2 < sizeOf v := by
  obtain ⟨k, vs, rfl, hp⟩ := exists_of_mem_parts h
  have hlt := List.sizeOf_lt_of_mem hp
  rw [node.sizeOf_spec]
  omega

/-- The value itself and everything below it in pre-order: the way to it, its slot, and what stands
there. -/
def subvalues (s : Slot) (v : Value) : List (Path × Slot × Value) :=
  ([], s, v) :: v.parts.attach.flatMap fun p =>
    have := sizeOf_lt_of_mem_parts p.2
    (p.1.2.2.subvalues p.1.2.1).map fun q => (p.1.1 :: q.1, q.2)
termination_by sizeOf v

theorem subvalues_eq (s : Slot) (v : Value) : v.subvalues s = ([], s, v) ::
    v.parts.flatMap fun p => (p.2.2.subvalues p.2.1).map fun q => (p.1 :: q.1, q.2) := by
  conv_rhs => rw [← List.attach_map_subtype_val v.parts, List.flatMap_map]
  rw [subvalues]

end Value

/-- Whether a value may stand in a slot, whatever its parts are. -/
def Slot.fits : Slot → Value → Bool
  | type, .bottom => true
  | type, .node .base [x] => x.isName
  | type, .arrow _ _ => true
  | type, .product _ _ => true
  | type, .sum _ _ => true
  | term, .node .var [x] => x.isName
  | term, .pair _ _ => true
  | term, .inl _ => true
  | term, .inr _ => true
  | term, .case _ _ _ => true
  | term, .fst _ => true
  | term, .snd _ => true
  | term, .node .lambda [_, _, _] => true
  | term, .abort _ => true
  | name, v => v.isName
  | _, _ => false

/-- The way to the first part of a value, in pre-order, that does not fit its slot. -/
def Slot.fault? (s : Slot) (v : Value) : Option Path :=
  ((v.subvalues s).find? fun q => !q.2.1.fits q.2.2).map Prod.fst

namespace Slot

/-- A value is looked at before its parts, and these from left to right. -/
theorem fault?_eq (s : Slot) (v : Value) : s.fault? v =
    if s.fits v then v.parts.findSome? fun p => (p.2.1.fault? p.2.2).map (p.1 :: ·) else some [] := by
  unfold fault?
  rw [Value.subvalues_eq, List.find?_cons]
  cases hs : s.fits v with
  | false => rfl
  | true =>
    show ((v.parts.flatMap _).find? _).map Prod.fst = _
    rw [List.find?_flatMap]
    simp only [List.find?_map, if_true, List.map_findSome?]
    congr 1
    funext p
    show ((List.find? _ _).map _).map Prod.fst = ((List.find? _ _).map Prod.fst).map _
    rw [Option.map_map, Option.map_map]
    rfl

theorem fault?_of_isName {v : Value} (h : v.isName = true) : name.fault? v = none := by
  rw [fault?_eq, fits, if_pos h]
  cases v with
  | name n => rfl
  | _ => cases h

theorem fault?_of_isType {A : Value} (h : A.IsType) : type.fault? A = none := by
  induction h with
  | bottom => rw [fault?_eq]; rfl
  | base h =>
    rw [fault?_eq, fits, Value.isName, if_pos (by simpa using h)]
    rfl
  | arrow _ _ ihA ihB | product _ _ ihA ihB | sum _ _ ihA ihB =>
    rw [fault?_eq]
    simp [fits, Value.parts, ihA, ihB]

theorem fault?_of_isTerm {v : Value} (h : v.IsTerm) : term.fault? v = none := by
  induction h with
  | var h =>
    rw [fault?_eq, fits, Value.isName, if_pos (by simpa using h)]
    rfl
  | pair _ _ iht ihu =>
    rw [fault?_eq]
    simp [fits, Value.parts, iht, ihu]
  | inl _ ih | inr _ ih | fst _ ih | snd _ ih | abort _ ih =>
    rw [fault?_eq]
    simp [fits, Value.parts, ih]
  | case _ _ _ iht ihu ihv =>
    rw [fault?_eq]
    simp [fits, Value.parts, iht, ihu, ihv]
  | @lambda n A t h hA _ ih =>
    have hn : name.fault? (.name n) = none := fault?_of_isName (by simpa [Value.isName] using h)
    rw [fault?_eq]
    simp [fits, Value.parts, hn, fault?_of_isType hA, ih]

end Slot

namespace Graph
variable {g : Graph}

/-! ## the walks -/

theorem isName_value (r : Ref) : (g.value r).isName = g.isName r := by
  rw [value_eq_valueOf, isName, text?]
  cases g.get r <;> rfl

/-- Whatever a walk has seen before a value is well formed. -/
def Passed (g : Graph) (ρ : Role) (r : Ref) (seen : RefSet) : Prop :=
  ∀ s < r, seen.contains s = true → g.WellFormed ρ s

theorem passed_empty {ρ : Role} {r : Ref} : g.Passed ρ r {} :=
  fun _ _ hs => absurd hs RefSet.contains_empty

theorem Passed.insert {ρ : Role} {r : Ref} {seen : RefSet} (h : g.Passed ρ r seen) :
    g.Passed ρ r (seen.insert r) := by
  intro s hs hc
  rcases RefSet.contains_insert_iff.mp hc with rfl | hc
  · exact absurd hs (Nat.lt_irrefl s)
  · exact h s hs hc

theorem Passed.mono {ρ : Role} {a r : Ref} {seen : RefSet} (h : g.Passed ρ r seen) (ha : a < r) :
    g.Passed ρ a seen :=
  fun s hs => h s (Nat.lt_trans hs ha)

section
variable {U : Role → Ref → Prop} {I : Memo → Prop} {m : Memo}

theorem Passed.typeWalk {a r : Ref} {seen seen' : RefSet} (h : g.Passed .type r seen)
    (T : g.Trust U g.WellFormed I) (hm : I m) (ha : a < r) (hu : U .type a)
    (hw : g.typeWalk m a seen = .ok seen') :
    Slot.type.fault? (g.value a) = none ∧ g.Passed .type r seen' := by
  obtain ⟨hwf, hseen⟩ := typeWalk_trusted T hm hu
    (fun s hs => h s (Nat.lt_of_le_of_lt hs ha)) (congrArg Except.toOption hw)
  refine ⟨Slot.fault?_of_isType hwf.holds, fun s hs hc => ?_⟩
  rcases hseen s hc with hc | ⟨-, hs⟩
  · exact h s hs hc
  · exact hs

theorem Passed.termWalk {a r : Ref} {w w' : Walk} (h : g.Passed .term r w.seen)
    (T : g.Trust U g.WellFormed I) (hm : I w.memo) (ha : a < r) (hu : U .term a)
    (hw : g.termWalk a w = .ok w') :
    Slot.term.fault? (g.value a) = none ∧ I w'.memo ∧ g.Passed .term r w'.seen := by
  obtain ⟨hwf, hm', hseen⟩ := termWalk_trusted T hm hu
    (fun s hs => h s (Nat.lt_of_le_of_lt hs ha)) (congrArg Except.toOption hw)
  refine ⟨Slot.fault?_of_isTerm hwf.holds, hm', fun s hs hc => ?_⟩
  rcases hseen s hc with hc | ⟨-, hs⟩
  · exact h s hs hc
  · exact hs

theorem mapError_eq_error {ε ε' α : Type} {x : Except ε α} {k : ε → ε'} {e : ε'} :
    x.mapError k = .error e ↔ ∃ d, x = .error d ∧ k d = e := by
  cases x <;> simp [Except.mapError]

/-- A walk through a type that stops does so at the first fault. -/
theorem fault?_of_typeWalk (T : g.Trust U g.WellFormed I) (hm : I m) {r : Ref} {seen : RefSet}
    {p : Path} (hu : U .type r) (hs : g.Passed .type r seen)
    (h : g.typeWalk m r seen = .error p) : Slot.type.fault? (g.value r) = some p := by
  induction r using Nat.strongRecOn generalizing seen p with
  | ind r ih =>
    have lt := g.forall_fields_lt r
    have part : ∀ p ∈ Role.type.parts (g.get r), U p.1 p.2 := fun p => T.part hu
    rw [Slot.fault?_eq]
    rw [typeWalk] at h
    split at h
    case isTrue => cases h
    case isFalse =>
      split at h
      case h_1 => cases h
      case h_2 n hg =>
        split at h
        case isTrue => cases h
        case isFalse hn =>
          obtain rfl := Except.error.inj h
          rw [value_of_get hg, if_neg]
          show ¬ (g.value n).isName = true
          rwa [isName_value]
      case h_3 a b hg | h_4 a b hg | h_5 a b hg =>
        obtain ⟨ha, hb⟩ : a < r ∧ b < r := by simpa [hg, Cell.fields] using lt
        obtain ⟨hua, hub⟩ : U .type a ∧ U .type b := by
          simpa [hg, Role.parts, Cell.role?, Cell.parts] using part
        split at h
        case h_1 q hq =>
          obtain rfl := Except.error.inj h
          have hA := ih a ha hua (hs.insert.mono ha) hq
          simp [value_of_get hg, valueOf, Cell.kind, Cell.fields, Slot.fits, Value.parts, hA]
        case h_2 seen' hq =>
          obtain ⟨hA, hs'⟩ := hs.insert.typeWalk T hm ha hua hq
          obtain ⟨q, hq, rfl⟩ := mapError_eq_error.mp h
          have hB := ih b hb hub (hs'.mono hb) hq
          simp [value_of_get hg, valueOf, Cell.kind, Cell.fields, Slot.fits, Value.parts, hA, hB]
      case h_6 =>
        obtain rfl := Except.error.inj h
        rw [value_eq_valueOf]
        cases hg : g.get r <;> first | rfl | simp_all

/-- A trusted memo makes no difference to what a walk through a type reports. -/
theorem Trust.typeFault (T : g.Trust U g.WellFormed I) (hm : I m) {r : Ref} (hu : U .type r) :
    (g.typeFault m r).1 = Slot.type.fault? (g.value r) ∧ I (g.typeFault m r).2 := by
  cases h : g.typeWalk m r {} with
  | ok seen =>
    have hok : g.typeFault m r = (none, m.learn seen) := by rw [Graph.typeFault, h]
    obtain ⟨hwf, hm'⟩ := typeFault_trusted T hm hu hok
    rw [hok]
    exact ⟨(Slot.fault?_of_isType hwf.holds).symm, hm'⟩
  | error p =>
    rw [Graph.typeFault, h]
    exact ⟨(fault?_of_typeWalk T hm hu passed_empty h).symm, hm⟩

/-- A walk through a term that stops does so at the first fault, and the memo is trusted still. -/
theorem fault?_of_termWalk (T : g.Trust U g.WellFormed I) {r : Ref} {w : Walk} {e : Misfit}
    (hu : U .term r) (hs : g.Passed .term r w.seen) (hm : I w.memo)
    (h : g.termWalk r w = .error e) :
    Slot.term.fault? (g.value r) = some e.path ∧ I e.memo := by
  induction r using Nat.strongRecOn generalizing w e with
  | ind r ih =>
    have lt := g.forall_fields_lt r
    have part : ∀ p ∈ Role.term.parts (g.get r), U p.1 p.2 := fun p => T.part hu
    have hs₀ : g.Passed .term r (w.visit r).seen := hs.insert
    have hm₀ : I (w.visit r).memo := hm
    rw [Slot.fault?_eq]
    rw [termWalk] at h
    split at h
    case isTrue => cases h
    case isFalse =>
      split at h
      case h_1 n hg =>
        split at h
        case isTrue => cases h
        case isFalse hn =>
          obtain rfl := Except.error.inj h
          refine ⟨?_, hm⟩
          rw [value_of_get hg, if_neg]
          show ¬ (g.value n).isName = true
          rwa [isName_value]
      case h_2 a b hg =>
        obtain ⟨ha, hb⟩ : a < r ∧ b < r := by simpa [hg, Cell.fields] using lt
        obtain ⟨hua, hub⟩ : U .term a ∧ U .term b := by
          simpa [hg, Role.parts, Cell.role?, Cell.parts] using part
        split at h
        case h_1 q hq =>
          obtain rfl := Except.error.inj h
          obtain ⟨ht, he⟩ := ih a ha hua (hs₀.mono ha) hm₀ hq
          refine ⟨?_, he⟩
          simp [value_of_get hg, valueOf, Cell.kind, Cell.fields, Slot.fits, Value.parts, ht,
            Misfit.under]
        case h_2 w' hq =>
          obtain ⟨ht, hm', hs'⟩ := hs₀.termWalk T hm₀ ha hua hq
          obtain ⟨q, hq, rfl⟩ := mapError_eq_error.mp h
          obtain ⟨hu', he⟩ := ih b hb hub (hs'.mono hb) hm' hq
          refine ⟨?_, he⟩
          simp [value_of_get hg, valueOf, Cell.kind, Cell.fields, Slot.fits, Value.parts, ht, hu',
            Misfit.under]
      case h_3 a hg | h_4 a hg | h_6 a hg | h_7 a hg | h_9 a hg =>
        have ha : a < r := by simpa [hg, Cell.fields] using lt
        have hua : U .term a := by simpa [hg, Role.parts, Cell.role?, Cell.parts] using part
        obtain ⟨q, hq, rfl⟩ := mapError_eq_error.mp h
        obtain ⟨ht, he⟩ := ih a ha hua (hs₀.mono ha) hm₀ hq
        refine ⟨?_, he⟩
        simp [value_of_get hg, valueOf, Cell.kind, Cell.fields, Slot.fits, Value.parts, ht,
          Misfit.under]
      case h_5 a b c hg =>
        obtain ⟨ha, hb, hc⟩ : a < r ∧ b < r ∧ c < r := by simpa [hg, Cell.fields] using lt
        obtain ⟨hua, hub, huc⟩ : U .term a ∧ U .term b ∧ U .term c := by
          simpa [hg, Role.parts, Cell.role?, Cell.parts] using part
        split at h
        case h_1 q hq =>
          obtain rfl := Except.error.inj h
          obtain ⟨ht, he⟩ := ih a ha hua (hs₀.mono ha) hm₀ hq
          refine ⟨?_, he⟩
          simp [value_of_get hg, valueOf, Cell.kind, Cell.fields, Slot.fits, Value.parts, ht,
            Misfit.under]
        case h_2 w' hq =>
          obtain ⟨ht, hm', hs'⟩ := hs₀.termWalk T hm₀ ha hua hq
          split at h
          case h_1 q hq =>
            obtain rfl := Except.error.inj h
            obtain ⟨hu', he⟩ := ih b hb hub (hs'.mono hb) hm' hq
            refine ⟨?_, he⟩
            simp [value_of_get hg, valueOf, Cell.kind, Cell.fields, Slot.fits, Value.parts, ht, hu',
              Misfit.under]
          case h_2 w'' hq =>
            obtain ⟨hu', hm'', hs''⟩ := hs'.termWalk T hm' hb hub hq
            obtain ⟨q, hq, rfl⟩ := mapError_eq_error.mp h
            obtain ⟨hv, he⟩ := ih c hc huc (hs''.mono hc) hm'' hq
            refine ⟨?_, he⟩
            simp [value_of_get hg, valueOf, Cell.kind, Cell.fields, Slot.fits, Value.parts, ht, hu',
              hv, Misfit.under]
      case h_8 x a b hg =>
        obtain ⟨-, -, hb⟩ : x < r ∧ a < r ∧ b < r := by simpa [hg, Cell.fields] using lt
        obtain ⟨hua, hub⟩ : U .type a ∧ U .term b := by
          simpa [hg, Role.parts, Cell.role?, Cell.parts] using part
        obtain ⟨hty, hmemo⟩ := T.typeFault hm hua
        split at h
        case isFalse hx =>
          obtain rfl := Except.error.inj h
          have hn : Slot.name.fault? (g.value x) = some [] := by
            rw [Slot.fault?_eq, Slot.fits, if_neg (by rwa [isName_value])]
          refine ⟨?_, hm⟩
          simp [value_of_get hg, valueOf, Cell.kind, Cell.fields, Slot.fits, Value.parts, hn]
        case isTrue hx =>
          have hn : Slot.name.fault? (g.value x) = none :=
            Slot.fault?_of_isName (by rwa [isName_value])
          split at h
          case h_1 q m hq =>
            obtain rfl := Except.error.inj h
            rw [hq] at hty hmemo
            refine ⟨?_, hmemo⟩
            simp [value_of_get hg, valueOf, Cell.kind, Cell.fields, Slot.fits, Value.parts, hn,
              ← hty]
          case h_2 m hq =>
            rw [hq] at hty hmemo
            obtain ⟨q, hq, rfl⟩ := mapError_eq_error.mp h
            obtain ⟨ht, he⟩ := ih b hb hub (hs.insert.mono hb) hmemo hq
            refine ⟨?_, he⟩
            simp [value_of_get hg, valueOf, Cell.kind, Cell.fields, Slot.fits, Value.parts, hn,
              ← hty, ht, Misfit.under]
      case h_10 =>
        obtain rfl := Except.error.inj h
        refine ⟨?_, hm⟩
        rw [value_eq_valueOf]
        cases hg : g.get r <;> first | rfl | simp_all

/-- A trusted memo makes no difference to what a walk through a term reports. -/
theorem Trust.termFault (T : g.Trust U g.WellFormed I) (hm : I m) {r : Ref} (hu : U .term r) :
    (g.termFault m r).1 = Slot.term.fault? (g.value r) ∧ I (g.termFault m r).2 := by
  cases h : g.termWalk r ⟨{}, m⟩ with
  | ok w =>
    have hok : g.termFault m r = (none, w.memo.learn w.seen) := by rw [Graph.termFault, h]
    obtain ⟨hwf, hm'⟩ := termFault_trusted T hm hu hok
    rw [hok]
    exact ⟨(Slot.fault?_of_isTerm hwf.holds).symm, hm'⟩
  | error e =>
    rw [Graph.termFault, h]
    obtain ⟨hp, hm'⟩ := fault?_of_termWalk T hu passed_empty hm h
    exact ⟨hp.symm, hm'⟩

end

theorem typeFault_eq_fault? (g : Graph) (r : Ref) :
    (g.typeFault none r).1 = Slot.type.fault? (g.value r) :=
  (g.trust_none.typeFault rfl trivial).1

theorem termFault_eq_fault? (g : Graph) (r : Ref) :
    (g.termFault none r).1 = Slot.term.fault? (g.value r) :=
  (g.trust_none.termFault rfl trivial).1

/-! ## ways -/

/-- The end of a way that starts at `r`: each field is one of the value before it. -/
def follow? (g : Graph) : Ref → Path → Option Ref
  | r, [] => some r
  | r, f :: p => ((g.get r).fields.find? fun e => e.1 == f).bind fun e => g.follow? e.2 p

/-- A part of the tree of a value is the tree of a field. -/
theorem exists_field_of_mem_parts {r : Ref} {p : Field × Slot × Value}
    (h : p ∈ (g.value r).parts) : ∃ e, (g.get r).fields.find? (fun e => e.1 == p.1) = some e ∧
      e.2 < r ∧ g.value e.2 = p.2.2 := by
  have lt := g.forall_fields_lt r
  rw [value_eq_valueOf] at h
  cases hg : g.get r <;>
    simp only [hg, valueOf, Cell.kind, Cell.fields, List.map_cons, List.map_nil, Value.parts,
      List.mem_cons, List.not_mem_nil, or_false, forall_eq_or_imp, forall_eq] at h lt
  case arrow | product | sum | pair =>
    rcases h with rfl | rfl
    · exact ⟨_, rfl, lt.1, rfl⟩
    · exact ⟨_, rfl, lt.2, rfl⟩
  case case | lambda =>
    rcases h with rfl | rfl | rfl
    · exact ⟨_, rfl, lt.1, rfl⟩
    · exact ⟨_, rfl, lt.2.1, rfl⟩
    · exact ⟨_, rfl, lt.2.2, rfl⟩
  case inl | inr | fst | snd | abort =>
    subst h
    exact ⟨_, rfl, lt, rfl⟩

/-- The way to a part of the tree of a value can be followed in the graph. -/
theorem exists_follow? {r : Ref} {s : Slot} {q : Path × Slot × Value}
    (h : q ∈ (g.value r).subvalues s) : ∃ x, g.follow? r q.1 = some x ∧ g.value x = q.2.2 := by
  induction r using Nat.strongRecOn generalizing s q with
  | ind r ih =>
    rw [Value.subvalues_eq] at h
    rcases List.mem_cons.mp h with rfl | h
    · exact ⟨r, rfl, rfl⟩
    · obtain ⟨p, hp, h⟩ := List.mem_flatMap.mp h
      obtain ⟨q, hq, rfl⟩ := List.mem_map.mp h
      obtain ⟨e, he, hlt, hv⟩ := exists_field_of_mem_parts hp
      rw [← hv] at hq
      obtain ⟨x, hx, hq⟩ := ih e.2 hlt hq
      refine ⟨x, ?_, hq⟩
      rw [follow?, he]
      exact hx

end Graph

/-- A walk that finds the first fault of every value in every graph. -/
structure FindsFirst (s : Slot) (walk : Graph → Ref → Option Path) : Prop where
  /-- nothing is reported exactly if the value is well formed -/
  none_iff : ∀ g r, walk g r = none ↔ s.Holds (g.value r)
  /-- a way that is reported leads to a part that does not fit, and all parts before it fit -/
  first : ∀ g r p, walk g r = some p → ∃ before slot x after,
    (g.value r).subvalues s = before ++ (p, slot, g.value x) :: after ∧
      g.follow? r p = some x ∧ slot.fits (g.value x) = false ∧
      ∀ q ∈ before, q.2.1.fits q.2.2 = true
  /-- values with the same tree have the same faults, whatever is shared in them -/
  unshared : ∀ g g' r r', g.value r = g'.value r' → walk g r = walk g' r'

theorem findsFirst_of_eq {s : Slot} {walk : Graph → Ref → Option Path}
    (heq : ∀ g r, walk g r = s.fault? (g.value r))
    (hnone : ∀ g r, walk g r = none ↔ s.Holds (g.value r)) : FindsFirst s walk := by
  refine ⟨hnone, fun g r p h => ?_, fun g g' r r' h => by rw [heq, heq, h]⟩
  rw [heq] at h
  obtain ⟨q, hq, rfl⟩ := Option.map_eq_some_iff.mp h
  obtain ⟨hbad, before, after, hsplit, hfit⟩ := List.find?_eq_some_iff_append.mp hq
  obtain ⟨x, hx, hv⟩ := Graph.exists_follow? (List.mem_of_find?_eq_some hq)
  refine ⟨before, q.2.1, x, after, ?_, hx, ?_, fun b hb => ?_⟩
  · rw [hsplit, hv]
  · rw [hv]
    simpa using hbad
  · simpa using hfit b hb

/-- **The walks through types and terms find the first fault.** Without a memo, a walk reports
nothing exactly if the value is a well-formed type, or term. Otherwise it reports the way to the
first part, in pre-order from left to right, that may not stand where it stands; which parts of the
value are shared makes no difference. -/
theorem walks_find_first : FindsFirst .type (fun g r => (g.typeFault none r).1) ∧
    FindsFirst .term (fun g r => (g.termFault none r).1) := by
  refine ⟨findsFirst_of_eq Graph.typeFault_eq_fault? fun g r => ?_,
    findsFirst_of_eq Graph.termFault_eq_fault? fun g r => ?_⟩
  · exact Graph.typeFault_none_iff.trans (Graph.wellFormed_iff (ρ := .type) nofun)
  · exact Graph.termFault_none_iff.trans (Graph.wellFormed_iff (ρ := .term) nofun)

end NaturalDeduction

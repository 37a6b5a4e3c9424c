import NaturalDeduction.Proofs.Parallel

/-!
# Substitution for base types

Base types are opaque: any types may stand for them.

* `Value.subst σ`         a tree with the type `σ n` for every base type `n`;
* `Listing.subst σ`, `substContext σ`   the same for the types in environments;
* `Rule.Instance.subst`   an application of a rule stays one;
* `check_substituted`     a derivation with types put in for its base types is accepted if the
                          derivation is.
-/

namespace NaturalDeduction

mutual

/-- A type or a term with the type `σ n` for the base type `n`, also in the types of parameters.
There are no environments in types and terms. -/
def Value.subst (σ : Name → Value) : Value → Value
  | .name n => .name n
  | .base n => σ n
  | .node k vs => .node k (Value.substAll σ vs)
  | .env Γ => .env Γ

def Value.substAll (σ : Name → Value) : List Value → List Value
  | [] => []
  | v :: vs => v.subst σ :: Value.substAll σ vs

end

/-- The types of an environment with `σ n` for the base type `n`. -/
def Listing.subst (σ : Name → Value) (l : Listing) : Listing :=
  l.map fun e => (e.1, e.2.subst σ)

def substContext (σ : Name → Value) (Γ : String → Option Value) : String → Option Value :=
  Option.map (Value.subst σ) ∘ Γ

section
variable {σ : Name → Value}

theorem substContext_update (Γ : String → Option Value) (x : String) (A : Value) :
    substContext σ (Function.update Γ x (some A)) =
      Function.update (substContext σ Γ) x (some (A.subst σ)) :=
  Function.comp_update (Option.map (Value.subst σ)) Γ x (some A)

theorem Listing.context_subst (l : Listing) :
    (Listing.subst σ l).context = substContext σ l.context := by
  funext x
  show ((l.map fun e => (e.1, e.2.subst σ)).find? fun e => e.1 == some x).map Prod.snd =
    ((l.find? fun e => e.1 == some x).map Prod.snd).map (Value.subst σ)
  rw [List.find?_map, Option.map_map, Option.map_map]
  rfl

/-- An application of a rule stays one: the shapes that a rule asks for are those of constructors
other than base types, and equal trees stay equal. -/
theorem Rule.Instance.subst {R : Rule} {s : Statement} {ss : List Statement}
    (h : R.Instance s ss) : R.Instance (s.map (substContext σ) (Value.subst σ))
      (ss.map (Statement.map (substContext σ) (Value.subst σ))) := by
  cases h with
  | @assm Γ n A h =>
    have hn : substContext σ Γ n.word = some (A.subst σ) := by
      show (Γ n.word).map (Value.subst σ) = _
      rw [h, Option.map_some]
    exact .assm hn
  | pairIntro => exact .pairIntro
  | inlIntro => exact .inlIntro
  | inrIntro => exact .inrIntro
  | caseElim => exact .caseElim
  | fstElim => exact .fstElim
  | sndElim => exact .sndElim
  | lambdaIntro =>
    simp only [Statement.map, List.map_cons, List.map_nil, substContext_update]
    exact .lambdaIntro
  | bottomElim => exact .bottomElim

section
variable (hσ : ∀ n : Name, n.word ≠ "" → (σ n).IsType)
include hσ

theorem Value.IsType.subst {A : Value} (hA : A.IsType) : (A.subst σ).IsType := by
  induction hA with
  | bottom => exact .bottom
  | base h => exact hσ _ h
  | arrow _ _ ihA ihB => exact .arrow ihA ihB
  | product _ _ ihA ihB => exact .product ihA ihB
  | sum _ _ ihA ihB => exact .sum ihA ihB

theorem Value.IsTerm.subst {t : Value} (ht : t.IsTerm) : (t.subst σ).IsTerm := by
  induction ht with
  | var h => exact .var h
  | pair _ _ iht ihu => exact .pair iht ihu
  | inl _ ih => exact .inl ih
  | inr _ ih => exact .inr ih
  | case _ _ _ iht ihu ihv => exact .case iht ihu ihv
  | fst _ ih => exact .fst ih
  | snd _ ih => exact .snd ih
  | lambda h hA _ ih => exact .lambda h (hA.subst hσ) ih
  | abort _ ih => exact .abort ih

theorem Listing.wellFormed_subst {l : Listing} (h : l.WellFormed) :
    (Listing.subst σ l).WellFormed := by
  intro e he
  obtain ⟨d, hd, rfl⟩ := List.mem_map.mp he
  obtain ⟨hname, hty⟩ := h d hd
  exact ⟨hname, hty.subst hσ⟩

theorem morphism_subst : Morphism (Listing.subst σ) (Value.subst σ) (substContext σ) where
  type _ h := h.subst hσ
  term _ h := h.subst hσ
  listing _ h := Listing.wellFormed_subst hσ h
  context l := l.context_subst
  table h := h.subst

end

end

namespace Graph
variable {g g' : Graph}

/-- **Base types are opaque.** Let a derivation be accepted, its target and all that it records be
well formed, and let types be put in for the base types throughout: in the environments, in the
types and in the parameters of terms. The result is accepted within the same limits. -/
theorem check_substituted (limits : Limits) {tree tree' : Ref} {target target' : Judgement}
    {σ : Name → Value} (hσ : ∀ n : Name, n.word ≠ "" → (σ n).IsType)
    (h : g.check limits tree target = .ok .accept) (hw : g.Grammatical tree target)
    (htarget : g.Image g' (Listing.subst σ) (Value.subst σ) target target')
    (htree : g.Parallel g' (g.Image g' (Listing.subst σ) (Value.subst σ)) tree tree') :
    g'.check limits tree' target' = .ok .accept :=
  check_of_parallel (morphism_subst hσ) h hw htarget htree

/-- A derivation of `{y : Q} ⊢ λx:P. y : P → Q` at 22, and at 31 the same with the type `R + ⊥` for
both `P` and `Q`. -/
def substituted : Graph where
  cells := #[.text "x", .text "y", .text "P", .text "Q", .text "R", .base 2, .base 3, .base 4,
    .bottom, .sum 7 8, .var 1, .lambda 0 5 10, .arrow 5 6, .env [(1, 6)], .env [(1, 6), (0, 5)],
    .rule .assm, .rule .lambdaIntro, .tuple [], .sequent 14 10 6, .derivation 15 18 17,
    .sequent 13 11 12, .tuple [19], .derivation 16 20 21, .lambda 0 9 10, .arrow 9 9,
    .env [(1, 9)], .env [(0, 9), (1, 9)], .sequent 26 10 9, .derivation 15 27 17,
    .sequent 25 23 24, .tuple [28], .derivation 16 29 30]
  below := by decide
  apart := by decide

/-- What is put in for every base type. -/
def everywhere : Name → Value := fun _ => .sum (.base (.text "R")) .bottom

/-- The types `P`, `Q` and `R + ⊥`, and the terms. -/
theorem subst_substituted :
    substituted.value 9 = (substituted.value 5).subst everywhere ∧
      substituted.value 9 = (substituted.value 6).subst everywhere ∧
      substituted.value 10 = (substituted.value 10).subst everywhere ∧
      substituted.value 23 = (substituted.value 11).subst everywhere ∧
      substituted.value 24 = (substituted.value 12).subst everywhere := by
  have name : ∀ {r s}, substituted.get r = .text s → substituted.value r = .name (.text s) :=
    fun h => value_of_get h
  have h7 : substituted.value 7 = .base (.text "R") := by
    rw [value_of_get (c := .base 4) rfl]
    show Value.node .base [substituted.value 4] = _
    rw [name (s := "R") rfl]
  have h9 : substituted.value 9 = .sum (.base (.text "R")) .bottom := by
    rw [value_of_get (c := .sum 7 8) rfl]
    show Value.node .sum [substituted.value 7, substituted.value 8] = _
    rw [h7, value_of_get (r := 8) (c := .bottom) rfl]
    rfl
  have h5 : substituted.value 5 = .base (.text "P") := by
    rw [value_of_get (c := .base 2) rfl]
    show Value.node .base [substituted.value 2] = _
    rw [name (s := "P") rfl]
  have h6 : substituted.value 6 = .base (.text "Q") := by
    rw [value_of_get (c := .base 3) rfl]
    show Value.node .base [substituted.value 3] = _
    rw [name (s := "Q") rfl]
  have h10 : substituted.value 10 = .var (.text "y") := by
    rw [value_of_get (c := .var 1) rfl]
    show Value.node .var [substituted.value 1] = _
    rw [name (s := "y") rfl]
  refine ⟨by rw [h9, h5]; rfl, by rw [h9, h6]; rfl, by rw [h10]; rfl, ?_, ?_⟩
  · rw [value_of_get (c := .lambda 0 9 10) rfl, value_of_get (c := .lambda 0 5 10) rfl]
    show Value.node .lambda [substituted.value 0, substituted.value 9, substituted.value 10] =
      Value.subst everywhere
        (.node .lambda [substituted.value 0, substituted.value 5, substituted.value 10])
    rw [name (s := "x") rfl, h9, h5, h10]
    rfl
  · rw [value_of_get (c := .arrow 9 9) rfl, value_of_get (c := .arrow 5 6) rfl]
    show Value.node .arrow [substituted.value 9, substituted.value 9] =
      Value.subst everywhere (.node .arrow [substituted.value 5, substituted.value 6])
    rw [h9, h5, h6]
    rfl

theorem check_substituted_constant : substituted.check .default 31 ⟨25, 23, 24⟩ = .ok .accept := by
  obtain ⟨hP, hQ, hvar, hlambda, harrow⟩ := subst_substituted
  have hσ : ∀ n : Name, n.word ≠ "" → (everywhere n).IsType :=
    fun _ _ => .sum (.base (by decide)) .bottom
  have hroot : substituted.Image substituted (Listing.subst everywhere) (Value.subst everywhere)
      ⟨13, 11, 12⟩ ⟨25, 23, 24⟩ := by
    refine ⟨rfl, ?_, hlambda, harrow⟩
    show List.Perm [(some "y", substituted.value 9)]
      [(some "y", (substituted.value 6).subst everywhere)]
    rw [hQ]
  have hleaf : substituted.Image substituted (Listing.subst everywhere) (Value.subst everywhere)
      ⟨14, 10, 6⟩ ⟨26, 10, 9⟩ := by
    refine ⟨rfl, ?_, hvar, hQ⟩
    show List.Perm [(some "x", substituted.value 9), (some "y", substituted.value 9)]
      [(some "y", (substituted.value 6).subst everywhere),
        (some "x", (substituted.value 5).subst everywhere)]
    rw [← hP, ← hQ]
    exact .swap _ _ _
  have haccept : substituted.check .default 22 ⟨13, 11, 12⟩ = .ok .accept := by decide +kernel
  have hw : substituted.Grammatical 22 ⟨13, 11, 12⟩ := by
    refine ⟨by decide +kernel, by decide +kernel, by decide +kernel, fun x hx => ?_⟩
    have hm : x ∈ [19, 22] := mem_of_below (by decide) (by decide) hx
    obtain rfl | rfl : x = 19 ∨ x = 22 := by simpa using hm
    all_goals decide +kernel
  apply check_substituted .default hσ haccept hw hroot
  exact Matches.parallel ⟨rfl, .some hroot⟩
    (.cons (Matches.parallel ⟨rfl, .some hleaf⟩ .nil) .nil)

end Graph

end NaturalDeduction

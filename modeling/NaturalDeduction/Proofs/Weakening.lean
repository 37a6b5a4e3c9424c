import NaturalDeduction.Proofs.Parallel

/-!
# Weakening

One more binding in every environment that has room for it.

* `Listing.widen x A`    a listing with `x : A` at its end, unless `x` is bound already;
* `widenContext x A`     the same for finite maps;
* `widenContext_update`  binding a name commutes with widening, whether or not it is `x`;
* `check_widened`        a derivation widened everywhere is accepted if the derivation is.
-/

namespace NaturalDeduction

/-- A listing with `x` bound to `A`, unless it binds `x` already. -/
def Listing.widen (x : String) (A : Value) (l : Listing) : Listing :=
  if x ∈ l.words then l else l ++ [(some x, A)]

/-- A finite map with `x` bound to `A`, unless it binds `x` already. -/
def widenContext (x : String) (A : Value) (Γ : String → Option Value) : String → Option Value :=
  Function.update Γ x (some ((Γ x).getD A))

section
variable {x : String} {A : Value}

theorem widenContext_of_eq_some {Γ : String → Option Value} {y : String} {B : Value}
    (h : Γ y = some B) : widenContext x A Γ y = some B := by
  unfold widenContext
  by_cases e : y = x
  · subst e
    rw [Function.update_self, h, Option.getD_some]
  · rw [Function.update_of_ne e, h]

/-- A name that is bound anew shadows the added binding, if it is the same name. -/
theorem widenContext_update (Γ : String → Option Value) (y : String) (B : Value) :
    widenContext x A (Function.update Γ y (some B)) =
      Function.update (widenContext x A Γ) y (some B) := by
  unfold widenContext
  by_cases e : y = x
  · subst e
    rw [Function.update_self, Option.getD_some, Function.update_idem, Function.update_idem]
  · rw [Function.update_of_ne (Ne.symm e), Function.update_comm (Ne.symm e)]

theorem Listing.context_widen (l : Listing) :
    (l.widen x A).context = widenContext x A l.context := by
  funext y
  unfold Listing.widen
  by_cases hx : x ∈ l.words
  · rw [if_pos hx]
    cases hB : l.context x with
    | none => exact absurd hx (context_eq_none.mp hB)
    | some B =>
      rw [widenContext, hB, Option.getD_some, ← hB, Function.update_eq_self]
  · rw [if_neg hx, widenContext, context_eq_none.mpr hx, Option.getD_none]
    show ((l ++ [(some x, A)]).find? fun e => e.1 == some y).map Prod.snd = _
    rw [List.find?_append, Option.map_or]
    by_cases e : y = x
    · subst e
      rw [Function.update_self]
      show (l.context y).or _ = _
      rw [context_eq_none.mpr hx]
      simp
    · have e' : (some x == some y) = false := by simpa using Ne.symm e
      rw [Function.update_of_ne e, List.find?_cons, e']
      simp [Listing.context]

theorem Listing.wellFormed_widen (hx : x ≠ "") (hA : A.IsType) {l : Listing} (h : l.WellFormed) :
    (l.widen x A).WellFormed := by
  unfold Listing.widen
  split
  · exact h
  · intro e he
    rcases List.mem_append.mp he with he | he
    · exact h e he
    · rw [List.mem_singleton.mp he]
      exact ⟨⟨x, rfl, hx⟩, hA⟩

/-- An application of a rule stays one when its contexts are widened. -/
theorem Rule.Instance.widen {R : Rule} {s : Statement} {ss : List Statement}
    (h : R.Instance s ss) :
    R.Instance (s.map (widenContext x A) id) (ss.map (Statement.map (widenContext x A) id)) := by
  cases h with
  | assm h => exact .assm (widenContext_of_eq_some h)
  | pairIntro => exact .pairIntro
  | inlIntro => exact .inlIntro
  | inrIntro => exact .inrIntro
  | caseElim => exact .caseElim
  | fstElim => exact .fstElim
  | sndElim => exact .sndElim
  | lambdaIntro =>
    simp only [Statement.map, List.map_cons, List.map_nil, widenContext_update]
    exact .lambdaIntro
  | bottomElim => exact .bottomElim

theorem morphism_widen (hx : x ≠ "") (hA : A.IsType) :
    Morphism (Listing.widen x A) id (widenContext x A) where
  type _ h := h
  term _ h := h
  listing _ h := Listing.wellFormed_widen hx hA h
  context l := l.context_widen
  table h := h.widen

end

namespace Graph
variable {g g' : Graph}

/-- **Weakening.** Let a derivation be accepted, its target and all that it records be well formed,
and let `x : A` be added to the target and to every recorded sequent whose environment does not bind
`x`, anywhere among the bindings. The result is accepted within the same limits. -/
theorem check_widened (limits : Limits) {tree tree' : Ref} {target target' : Judgement} {x : String}
    {A : Value} (hx : x ≠ "") (hA : A.IsType) (h : g.check limits tree target = .ok .accept)
    (hw : g.Grammatical tree target) (htarget : g.Image g' (Listing.widen x A) id target target')
    (htree : g.Parallel g' (g.Image g' (Listing.widen x A) id) tree tree') :
    g'.check limits tree' target' = .ok .accept :=
  check_of_parallel (morphism_widen hx hA) h hw htarget htree

/-- A derivation of `{y : Q} ⊢ (λx:P. x, y) : (P → P) × Q` at 27, and at 36 the same with `x : Q` in
every environment but that of the bound variable, which it shares. -/
def widened : Graph where
  cells := #[.text "x", .text "y", .text "P", .text "Q", .base 2, .base 3, .env [(1, 5)],
    .env [(1, 5), (0, 4)], .var 0, .lambda 0 4 8, .arrow 4 4, .sequent 7 8 4, .rule .assm,
    .tuple [], .derivation 12 11 13, .sequent 6 9 10, .rule .lambdaIntro, .tuple [14], .derivation 16 15 17,
    .var 1, .pair 9 19, .product 10 5, .sequent 6 19 5, .derivation 12 22 13, .sequent 6 20 21,
    .rule .pairIntro, .tuple [18, 23], .derivation 25 24 26, .env [(0, 5), (1, 5)],
    .env [(1, 5), (0, 5)], .sequent 28 9 10, .derivation 16 30 17, .sequent 29 19 5,
    .derivation 12 32 13, .sequent 29 20 21, .list [31, 33], .derivation 25 34 35]
  below := by decide
  apart := by decide

theorem value_widened : widened.value 5 = .base (.text "Q") := by
  have hname : widened.value 3 = .name (.text "Q") := value_of_get (c := .text "Q") rfl
  rw [value_of_get (c := .base 3) rfl]
  show Value.node .base [widened.value 3] = _
  rw [hname]

/-- The environments `{x : Q, y : Q}` and `{y : Q, x : Q}` are both `{y : Q}` with `x : Q`. -/
theorem image_widened {e : Ref} (he : e = 28 ∨ e = 29) (t a : Ref) :
    widened.Image widened (Listing.widen "x" (.base (.text "Q"))) id ⟨6, t, a⟩ ⟨e, t, a⟩ := by
  have hold : Listing.widen "x" (.base (.text "Q")) (widened.listing (widened.bindingsOf 6)) =
      [(some "y", widened.value 5), (some "x", widened.value 5)] := by
    show Listing.widen _ _ [(some "y", widened.value 5)] = _
    simp [Listing.widen, Listing.words, value_widened]
  rcases he with rfl | rfl
  · refine ⟨rfl, ?_, rfl, rfl⟩
    rw [hold]
    exact .swap _ _ _
  · refine ⟨rfl, ?_, rfl, rfl⟩
    rw [hold]
    exact .refl _

/-- The bound variable has its own `x`. -/
theorem parallel_leaf_widened :
    widened.Parallel widened (widened.Image widened (Listing.widen "x" (.base (.text "Q"))) id)
      14 14 := by
  have hself : widened.Image widened (Listing.widen "x" (.base (.text "Q"))) id ⟨7, 8, 4⟩
      ⟨7, 8, 4⟩ := by
    refine ⟨rfl, ?_, rfl, rfl⟩
    rw [Listing.widen, if_pos (by decide)]
  exact Matches.parallel ⟨rfl, .some hself⟩ .nil

theorem check_widened_pair : widened.check .default 36 ⟨28, 20, 21⟩ = .ok .accept := by
  have haccept : widened.check .default 27 ⟨6, 20, 21⟩ = .ok .accept := by decide +kernel
  have hw : widened.Grammatical 27 ⟨6, 20, 21⟩ := by
    refine ⟨by decide +kernel, by decide +kernel, by decide +kernel, fun x hx => ?_⟩
    have hm : x ∈ [14, 18, 23, 27] := mem_of_below (by decide) (by decide) hx
    obtain rfl | rfl | rfl | rfl : x = 14 ∨ x = 18 ∨ x = 23 ∨ x = 27 := by simpa using hm
    all_goals decide +kernel
  apply check_widened .default (by decide) (.base (by decide)) haccept hw
    (image_widened (.inl rfl) 20 21)
  refine Matches.parallel ⟨rfl, .some (image_widened (.inr rfl) 20 21)⟩ (.cons ?_ (.cons ?_ .nil))
  · exact Matches.parallel ⟨rfl, .some (image_widened (.inl rfl) 9 10)⟩
      (.cons parallel_leaf_widened .nil)
  · exact Matches.parallel ⟨rfl, .some (image_widened (.inr rfl) 19 5)⟩ .nil

end Graph

end NaturalDeduction

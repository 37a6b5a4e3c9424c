import NaturalDeduction.Proofs.Parallel
import NaturalDeduction.Proofs.Wording

/-!
# Twins

Values that stand for the same, maybe in two graphs, and messages about them.

* `Graph.Twin ρ`, `Graph.Twins`   two values in a role, or two sequents, that stand for the same;
* `Twin.parts`, `Twin.labels`   the parts of twins are twins, and they bear the same names;
* `Twin.find?`            a name is bound to twins in environments that are twins;
* `Twins.showJudgement`   twins have the same text;
* `Demand.Twin`           two demands that ask for the same; they are met by the same sequents and
                          have the same text.
-/

namespace NaturalDeduction

namespace Graph
variable {g g' : Graph}

/-- Two well-formed values in a role that stand for the same tree. -/
structure Twin (g g' : Graph) (ρ : Role) (r r' : Ref) : Prop where
  left : g.WellFormed ρ r
  right : g'.WellFormed ρ r'
  value : g.value r = g'.value r'

/-- Two references to the same name. -/
structure Namesakes (g g' : Graph) (x x' : Ref) : Prop where
  left : g.isName x = true
  value : g.value x = g'.value x'

/-- Two well-formed sequents that stand for the same. -/
structure Twins (g g' : Graph) (j j' : Judgement) : Prop where
  env : g.Twin g' .env j.env j'.env
  term : g.Twin g' .term j.term j'.term
  ty : g.Twin g' .type j.ty j'.ty

/-! ## values -/

section
variable {ρ : Role} {r r' : Ref}

theorem WellFormed.twin (h : g.WellFormed ρ r) (hρ : ρ ≠ .env) (hv : g.value r = g'.value r') :
    g.Twin g' ρ r r' := by
  refine ⟨h, (wellFormed_iff hρ).mpr ?_, hv⟩
  rw [← hv]
  exact h.holds

theorem Twin.kind (h : g.Twin g' ρ r r') : (g.get r).kind = (g'.get r').kind := by
  rw [← kind_value, ← kind_value, h.value]

/-- The parts of twins are twins, one by one. -/
theorem Twin.parts (h : g.Twin g' ρ r r') (hρ : ρ ≠ .env) :
    List.Forall₂ (fun p p' => p.1 = p'.1 ∧ g.Twin g' p.1 p.2 p'.2) (g.get r).parts
      (g'.get r').parts := by
  have hrole := (fits_iff.mp h.left.fits).1
  have hk := h.kind.symm
  have hv := h.value
  have twin : ∀ p ∈ (g.get r).parts, ∀ a', g.value p.2 = g'.value a' → g.Twin g' p.1 p.2 a' :=
    fun p hp a' ha' =>
      (h.left.part (Role.mem_parts.mpr ⟨hrole, hp⟩)).twin (role_of_mem_parts hp) ha'
  cases hc : g.get r <;>
    rw [hc] at hrole hk twin <;>
    rw [value_of_get hc] at hv <;>
    simp only [Cell.role?, reduceCtorEq, Option.some.injEq] at hrole
  case env => exact absurd hrole.symm hρ
  case bottom =>
    rw [show g'.get r' = .bottom from Cell.shape_of_kind hk]
    exact .nil
  case base n | var n =>
    obtain ⟨n', hc'⟩ := Cell.shape_of_kind hk
    rw [hc']
    exact .nil
  case arrow a b | product a b | sum a b | pair a b =>
    obtain ⟨a', b', hc'⟩ := Cell.shape_of_kind hk
    rw [value_of_get hc'] at hv
    obtain ⟨ha, hb⟩ : g.value a = g'.value a' ∧ g.value b = g'.value b' := by
      simpa [valueOf, Cell.kind, Cell.fields] using hv
    rw [hc']
    refine .cons ⟨rfl, twin _ ?_ a' ha⟩ (.cons ⟨rfl, twin _ ?_ b' hb⟩ .nil)
    all_goals simp [Cell.parts]
  case inl a | inr a | fst a | snd a | abort a =>
    obtain ⟨a', hc'⟩ := Cell.shape_of_kind hk
    rw [value_of_get hc'] at hv
    have ha : g.value a = g'.value a' := by simpa [valueOf, Cell.kind, Cell.fields] using hv
    rw [hc']
    refine .cons ⟨rfl, twin _ ?_ a' ha⟩ .nil
    simp [Cell.parts]
  case case a b c =>
    obtain ⟨a', b', c', hc'⟩ := Cell.shape_of_kind hk
    rw [value_of_get hc'] at hv
    obtain ⟨ha, hb, hc⟩ : g.value a = g'.value a' ∧ g.value b = g'.value b' ∧
        g.value c = g'.value c' := by
      simpa [valueOf, Cell.kind, Cell.fields] using hv
    rw [hc']
    refine .cons ⟨rfl, twin _ ?_ a' ha⟩ (.cons ⟨rfl, twin _ ?_ b' hb⟩
      (.cons ⟨rfl, twin _ ?_ c' hc⟩ .nil))
    all_goals simp [Cell.parts]
  case lambda n a b =>
    obtain ⟨n', a', b', hc'⟩ := Cell.shape_of_kind hk
    rw [value_of_get hc'] at hv
    obtain ⟨-, ha, hb⟩ : g.value n = g'.value n' ∧ g.value a = g'.value a' ∧
        g.value b = g'.value b' := by
      simpa [valueOf, Cell.kind, Cell.fields] using hv
    rw [hc']
    refine .cons ⟨rfl, twin _ ?_ a' ha⟩ (.cons ⟨rfl, twin _ ?_ b' hb⟩ .nil)
    all_goals simp [Cell.parts]

/-- Twins bear the same names. -/
theorem Twin.labels (h : g.Twin g' ρ r r') (hρ : ρ ≠ .env) :
    List.Forall₂ (g.Namesakes g') (g.get r).labels (g'.get r').labels := by
  obtain ⟨hrole, hnames⟩ := fits_iff.mp h.left.fits
  have hk := h.kind.symm
  have hv := h.value
  cases hc : g.get r <;>
    rw [hc] at hrole hk hnames <;>
    rw [value_of_get hc] at hv <;>
    simp only [Cell.role?, reduceCtorEq, Option.some.injEq] at hrole
  case env => exact absurd hrole.symm hρ
  case base n | var n =>
    obtain ⟨n', hc'⟩ := Cell.shape_of_kind hk
    rw [value_of_get hc'] at hv
    have hn : g.value n = g'.value n' := by simpa [valueOf, Cell.kind, Cell.fields] using hv
    rw [hc']
    exact .cons ⟨hnames n (by simp [Cell.labels]), hn⟩ .nil
  case lambda n a b =>
    obtain ⟨n', a', b', hc'⟩ := Cell.shape_of_kind hk
    rw [value_of_get hc'] at hv
    obtain ⟨hn, -⟩ : g.value n = g'.value n' ∧ _ := by
      simpa [valueOf, Cell.kind, Cell.fields] using hv
    rw [hc']
    exact .cons ⟨hnames n (by simp [Cell.labels]), hn⟩ .nil
  all_goals
    -- cells of the other kinds bear no names
    have hnil : (g'.get r').labels = [] := by
      cases hc' : g'.get r' <;> rw [hc'] at hk <;> first | rfl | cases hk
    rw [hnil]
    exact .nil

theorem Twin.showValue (h : g.Twin g' ρ r r') (hρ : ρ ≠ .env) (limit : Option Int) :
    g.showValue limit r = g'.showValue limit r' := by
  rw [showValue_eq h.left hρ, showValue_eq h.right hρ, h.value]

theorem Twin.leaves (h : g.Twin g' ρ r r') (hρ : ρ ≠ .env) :
    g.leaves g.str r = g'.leaves g'.str r' := by
  rw [leaves_eq h.left hρ, leaves_eq h.right hρ, h.value]

end

/-! ## names and environments -/

section
variable {x x' e e' : Ref}

section
variable (h : g.Namesakes g' x x')
include h

theorem Namesakes.right : g'.isName x' = true := by
  rw [isName_iff, ← h.value]
  exact isName_iff.mp h.left

theorem Namesakes.exists_text : ∃ s, g.text? x = some s ∧ g'.text? x' = some s := by
  obtain ⟨n, hn, -⟩ := isName_iff.mp h.left
  exact ⟨n.word, text?_of_value hn, text?_of_value (h.value ▸ hn)⟩

theorem Namesakes.str : g.str x = g'.str x' := by
  obtain ⟨s, hs, hs'⟩ := h.exists_text
  rw [str_of_text? hs, str_of_text? hs']

end

theorem Twin.context (h : g.Twin g' .env e e') :
    g.context (g.bindingsOf e) = g'.context (g'.bindingsOf e') := by
  have hk := (wellFormed_env_iff.mp h.left).1
  have hk' := (wellFormed_env_iff.mp h.right).1
  have hv := h.value
  rw [value_of_kind_env hk, value_of_kind_env hk', Value.env.injEq] at hv
  exact hv

/-- Bindings that make the same finite map have the same text. -/
theorem showBindings_of_context_eq {bs bs' : List (Ref × Ref)} (hw : (g.listing bs).WellFormed)
    (hw' : (g'.listing bs').WellFormed) (ho : (g.listing bs).words.Nodup)
    (ho' : (g'.listing bs').words.Nodup) (hc : g.context bs = g'.context bs')
    (limit : Option Int) : g.showBindings limit bs = g'.showBindings limit bs' := by
  rw [context_eq_listing, context_eq_listing] at hc
  rw [showBindings_eq hw, showBindings_eq hw',
    Listing.text_of_perm (Listing.perm_of_context_eq ho ho' hw hw' hc) ho hw]

theorem Twin.showEnv (h : g.Twin g' .env e e') (limit : Option Int) :
    g.showEnv limit e = g'.showEnv limit e' := by
  have hw := (wellFormed_env_iff.mp h.left).2
  have hw' := (wellFormed_env_iff.mp h.right).2
  rw [showEnv_eq h.left, showEnv_eq h.right, ← showBindings_eq hw, ← showBindings_eq hw']
  exact showBindings_of_context_eq hw hw' (nodup_words_listing e) (nodup_words_listing e')
    h.context limit

/-- A name is bound in both environments or in neither, and to twins. -/
theorem Twin.find? (h : g.Twin g' .env e e') (hx : g.Namesakes g' x x') :
    Option.Rel (g.Twin g' .type) (g.find? (g.bindingsOf e) x) (g'.find? (g'.bindingsOf e') x') := by
  have hbs := wellFormed_listing_iff.mp (wellFormed_env_iff.mp h.left).2
  have hbs' := wellFormed_listing_iff.mp (wellFormed_env_iff.mp h.right).2
  obtain ⟨s, hs, hs'⟩ := hx.exists_text
  have hc := congrFun h.context s
  rw [Graph.context, Graph.context] at hc
  rw [find?_text hs, find?_text hs']
  cases hf : (g.bindingsOf e).find? fun b => g.text? b.1 == some s with
  | none =>
    cases hf' : (g'.bindingsOf e').find? fun b => g'.text? b.1 == some s with
    | none => exact .none
    | some b' =>
      rw [hf, hf'] at hc
      cases hc
  | some b =>
    cases hf' : (g'.bindingsOf e').find? fun b => g'.text? b.1 == some s with
    | none =>
      rw [hf, hf'] at hc
      cases hc
    | some b' =>
      rw [hf, hf'] at hc
      have hmem : b ∈ g.bindingsOf e := List.mem_of_find?_eq_some hf
      exact .some ((hbs b hmem).2.twin (by decide) (Option.some.inj hc))

theorem wellFormed_listing_put {bs : List (Ref × Ref)} (hw : (g.listing bs).WellFormed) {a : Ref}
    (hx : g.isName x = true) (ha : g.WellFormed .type a) :
    (g.listing (g.put x a bs)).WellFormed := by
  rw [wellFormed_listing_iff] at hw ⊢
  intro b hb
  rcases mem_put hb with hb | ⟨hv, hb | ⟨d, hd, hb⟩⟩
  · exact hw b hb
  · exact ⟨hb ▸ hx, hv ▸ ha⟩
  · exact ⟨hb ▸ (hw d hd).1, hv ▸ ha⟩

end

/-! ## sequents -/

section
variable {j j' : Judgement} (h : g.Twins g' j j')
include h

theorem Twins.wellStated : g.WellStated j ∧ g'.WellStated j' :=
  ⟨⟨h.env.left, h.term.left, h.ty.left⟩, h.env.right, h.term.right, h.ty.right⟩

theorem Twins.statement : g.statement j = g'.statement j' := by
  rw [Graph.statement, Graph.statement, h.env.context, h.term.value, h.ty.value]

theorem Twins.showJudgement : g.showJudgement j = g'.showJudgement j' := by
  rw [Graph.showJudgement, Graph.showJudgement, h.env.showEnv, h.term.showValue (by decide),
    h.ty.showValue (by decide)]

end

end Graph

/-! ## demands -/

/-- Two environments that are asked for are the same, in the same words. -/
structure EnvForm.Twin (g g' : Graph) (f f' : EnvForm) : Prop where
  left : f.Apt g
  right : f'.Apt g'
  context : f.context g = f'.context g'
  text : f.text g = f'.text g'

/-- Two forms of types with twins in the same places. -/
inductive TypeForm.Twin (g g' : Graph) : TypeForm → TypeForm → Prop
  | exactly {a a' : Ref} (h : g.Twin g' .type a a') : TypeForm.Twin g g' (.exactly a) (.exactly a')
  | arrow {a a' b b' : Ref} (ha : g.Twin g' .type a a') (hb : g.Twin g' .type b b') :
      TypeForm.Twin g g' (.arrow a b) (.arrow a' b')
  | bottom : TypeForm.Twin g g' .bottom .bottom
  | any : TypeForm.Twin g g' .any .any

/-- Two demands ask for the same in the same words. -/
structure Demand.Twin (g g' : Graph) (d d' : Demand) : Prop where
  env : d.env.Twin g g' d'.env
  term : g.Twin g' .term d.term d'.term
  ty : TypeForm.Twin g g' d.ty d'.ty

section
variable {g g' : Graph}

theorem EnvForm.twin_exactly {e e' : Ref} (h : g.Twin g' .env e e') :
    EnvForm.Twin g g' (.exactly e) (.exactly e') where
  left := ⟨h.left.loose, (Graph.wellFormed_env_iff.mp h.left).1⟩
  right := ⟨h.right.loose, (Graph.wellFormed_env_iff.mp h.right).1⟩
  context := h.context
  text := h.showEnv shown

/-- An environment with one more binding, made on either side. -/
theorem EnvForm.twin_put {e e' x x' a a' : Ref} (h : g.Twin g' .env e e')
    (hx : g.Namesakes g' x x') (ha : g.Twin g' .type a a') :
    EnvForm.Twin g g' (.bindings (g.put x a (g.bindingsOf e)))
      (.bindings (g'.put x' a' (g'.bindingsOf e'))) := by
  obtain ⟨s, hs, hs'⟩ := hx.exists_text
  have hbs : g.Bindings (g.bindingsOf e) := by
    obtain ⟨bs, hbs⟩ := Cell.shape_of_kind (Graph.wellFormed_env_iff.mp h.left).1
    rw [Graph.bindingsOf, hbs]
    exact h.left.loose.bindings hbs
  have hbs' : g'.Bindings (g'.bindingsOf e') := by
    obtain ⟨bs, hbs⟩ := Cell.shape_of_kind (Graph.wellFormed_env_iff.mp h.right).1
    rw [Graph.bindingsOf, hbs]
    exact h.right.loose.bindings hbs
  have hput := hbs.put hx.left ha.left.loose
  have hput' := hbs'.put hx.right ha.right.loose
  have hc : g.context (g.put x a (g.bindingsOf e)) =
      g'.context (g'.put x' a' (g'.bindingsOf e')) := by
    rw [Graph.context_put hs, Graph.context_put hs',
      h.context, ha.value]
  refine ⟨hput, hput', hc, ?_⟩
  apply Graph.showBindings_of_context_eq _ _ _ _ hc shown
  · exact Graph.wellFormed_listing_put (Graph.wellFormed_env_iff.mp h.left).2 hx.left ha.left
  · exact Graph.wellFormed_listing_put (Graph.wellFormed_env_iff.mp h.right).2 hx.right ha.right
  · rw [Graph.words_listing]
    exact hput.once
  · rw [Graph.words_listing]
    exact hput'.once

section
variable {f f' : TypeForm} (h : TypeForm.Twin g g' f f')
include h

theorem TypeForm.Twin.apt : f.Apt g ∧ f'.Apt g' := by
  cases h with
  | exactly h => exact ⟨h.left.loose, h.right.loose⟩
  | arrow ha hb => exact ⟨⟨ha.left.loose, hb.left.loose⟩, ha.right.loose, hb.right.loose⟩
  | bottom => exact ⟨trivial, trivial⟩
  | any => exact ⟨trivial, trivial⟩

theorem TypeForm.Twin.holds (A : Value) : f.Holds g A ↔ f'.Holds g' A := by
  cases h with
  | exactly h => rw [Holds, Holds, h.value]
  | arrow ha hb => rw [Holds, Holds, ha.value, hb.value]
  | bottom => exact Iff.rfl
  | any => exact Iff.rfl

theorem TypeForm.Twin.text : g.showPieces shown f.pieces = g'.showPieces shown f'.pieces := by
  have leaves : f.pieces.flatMap (g.pieceLeaves g.str) =
      f'.pieces.flatMap (g'.pieceLeaves g'.str) := by
    cases h with
    | exactly h => simp [pieces, Graph.pieceLeaves, h.leaves (by decide)]
    | arrow ha hb => simp [pieces, Graph.pieceLeaves, ha.leaves (by decide), hb.leaves (by decide)]
    | bottom => simp [pieces, Graph.pieceLeaves]
    | any => simp [pieces, Graph.pieceLeaves]
  rw [Graph.showPieces_eq_finish shown fun s hs => h.apt.1.loose hs,
    Graph.showPieces_eq_finish shown fun s hs => h.apt.2.loose hs, leaves]

end

theorem Demand.Twin.meets {d d' : Demand} (h : d.Twin g g' d') {j j' : Judgement}
    (hj : g.Twins g' j j') : g.meets j d = g'.meets j' d' := by
  obtain ⟨hw, hw'⟩ := hj.wellStated
  rw [Bool.eq_iff_iff, Graph.meets_iff hw.apt ⟨h.env.left, h.term.left.loose, h.ty.apt.1⟩,
    Graph.meets_iff hw'.apt ⟨h.env.right, h.term.right.loose, h.ty.apt.2⟩, hj.statement,
    h.env.context, h.term.value, h.ty.holds]

theorem Demand.Twin.text {d d' : Demand} (h : d.Twin g g' d') : d.text g = d'.text g' := by
  rw [Demand.text, Demand.text, h.env.text, h.term.showValue (by decide), h.ty.text]

end

end NaturalDeduction

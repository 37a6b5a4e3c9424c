import NaturalDeduction.Proofs.PlainRules
import NaturalDeduction.Proofs.Trees

/-!
# Parallel derivations

Two derivations, maybe in two graphs, that have the same shape and record sequents that correspond
to each other.

* `Graph.outline`        what a node shows apart from the sequent it records and its premises;
* `Graph.Parallel S`     the derivations have nodes at the same positions, with the same outlines,
                         and what they record stands in the relation `S`;
* `Graph.Image E f`      a sequent with its environment changed by `E`, its term and type by `f`;
* `Morphism E f C`       such a change keeps the grammar and the rule table;
* `check_of_parallel`    the image of an accepted derivation is accepted.
-/

namespace NaturalDeduction

/-- How a node looks. -/
structure Outline where
  kind : Kind
  rule : Option Rule
  /-- whether the sequence of premises holds numbers, if there is a sequence -/
  premises : Option Bool
  deriving DecidableEq, Repr

section
variable {α β : Type} {R : α → β → Prop}

/-- Both are there and stand in the relation, or neither is. -/
theorem rel_iff {o : Option α} {o' : Option β} :
    Option.Rel R o o' ↔
      (∃ a b, o = some a ∧ o' = some b ∧ R a b) ∨ o = none ∧ o' = none := by
  constructor
  · intro h
    cases h with
    | some h => exact .inl ⟨_, _, rfl, rfl, h⟩
    | none => exact .inr ⟨rfl, rfl⟩
  · rintro (⟨a, b, rfl, rfl, h⟩ | ⟨rfl, rfl⟩)
    · exact .some h
    · exact .none

theorem forall₂_iff_getElem? {l : List α} {l' : List β} :
    List.Forall₂ R l l' ↔ ∀ i : Nat, Option.Rel R l[i]? l'[i]? := by
  constructor
  · intro h
    induction h with
    | nil => exact fun i => .none
    | cons hab _ ih =>
      intro i
      cases i with
      | zero => exact .some hab
      | succ i => exact ih i
  · intro h
    induction l generalizing l' with
    | nil =>
      cases l' with
      | nil => exact .nil
      | cons b l' => exact nomatch h 0
    | cons a l ih =>
      cases l' with
      | nil => exact nomatch h 0
      | cons b l' =>
        have hab : Option.Rel R (some a) (some b) := h 0
        cases hab with
        | some hab => exact .cons hab (ih fun i => h (i + 1))

end

namespace Graph
variable {g g' : Graph} {S : Judgement → Judgement → Prop} {tree tree' x x' : Ref}

/-- What a node shows apart from the sequent that it records and what its premises are. -/
def outline (g : Graph) (x : Ref) : Outline :=
  match g.get x with
  | .derivation _ _ p =>
    ⟨.derivation, g.ruleOf? x, (g.get p).sequence?.map fun _ => (g.get p).holdsBytes⟩
  | c => ⟨c.kind, none, none⟩

/-- Two nodes look alike and record sequents that stand in the relation `S`. -/
structure Matches (g g' : Graph) (S : Judgement → Judgement → Prop) (x x' : Ref) : Prop where
  outline : g.outline x = g'.outline x'
  sequent : Option.Rel S (g.conclusion? x) (g'.conclusion? x')

/-- Two derivations have nodes at the same positions, and these match. -/
def Parallel (g g' : Graph) (S : Judgement → Judgement → Prop) (tree tree' : Ref) : Prop :=
  ∀ p, Option.Rel (g.Matches g' S) (g.nodeAt? tree p) (g'.nodeAt? tree' p)

/-! ## nodes -/

theorem kind_outline (x : Ref) : (g.outline x).kind = (g.get x).kind := by
  unfold outline
  cases g.get x <;> rfl

theorem rule_outline (x : Ref) : (g.outline x).rule = g.ruleOf? x := by
  unfold outline ruleOf?
  cases g.get x <;> rfl

/-- The premises of a node are a sequence of references. -/
theorem sequenceOf?_eq_some_iff : (∃ ps, g.sequenceOf? x = some ps) ↔
    (g.outline x).premises = some false := by
  unfold sequenceOf? outline
  cases g.get x with
  | derivation tag c p =>
    simp only
    cases hb : (g.get p).holdsBytes <;> cases (g.get p).sequence? <;> simp
  | _ => simp

theorem Matches.rule (h : g.Matches g' S x x') : g.ruleOf? x = g'.ruleOf? x' := by
  rw [← rule_outline, ← rule_outline, h.outline]

theorem Matches.kind (h : g.Matches g' S x x') : (g.get x).kind = (g'.get x').kind := by
  rw [← kind_outline, ← kind_outline, h.outline]

theorem Matches.exists_conclusion (h : g.Matches g' S x x') {j : Judgement}
    (hj : g.conclusion? x = some j) : ∃ j', g'.conclusion? x' = some j' ∧ S j j' := by
  rcases rel_iff.mp h.sequent with ⟨i, j', hi, hj', hS⟩ | ⟨hi, -⟩
  · obtain rfl : j = i := Option.some.inj (hj.symm.trans hi)
    exact ⟨j', hj', hS⟩
  · rw [hj] at hi
    cases hi

theorem Matches.isNode (h : g.Matches g' S x x') {R : Rule} {j : Judgement} {ps : List Ref}
    (hx : g.IsNode x R j ps) : ∃ j', g'.IsNode x' R j' (g'.premisesOf x') ∧ S j j' := by
  obtain ⟨j', hj', hS⟩ := h.exists_conclusion hx.conclusion
  obtain ⟨ps', hps'⟩ : ∃ ps', g'.sequenceOf? x' = some ps' := by
    rw [sequenceOf?_eq_some_iff, ← h.outline, ← sequenceOf?_eq_some_iff]
    exact ⟨ps, hx.premises⟩
  have hnode : g'.IsNode x' R j' ps' := ⟨by rw [← h.rule, hx.rule], hj', hps'⟩
  refine ⟨j', ?_, hS⟩
  rw [hnode.premisesOf]
  exact hnode

/-! ## positions -/

theorem Parallel.root (h : g.Parallel g' S tree tree') : g.Matches g' S tree tree' := by
  have hroot : Option.Rel (g.Matches g' S) (some tree) (some tree') := h []
  cases hroot with
  | some hm => exact hm

theorem nodeAt?_cons_of_none {i : Nat} (h : (g.premisesOf x)[i]? = none) (p : List Nat) :
    g.nodeAt? x (i :: p) = none := by
  rw [nodeAt?, h]
  rfl

theorem nodeAt?_singleton (x : Ref) (i : Nat) : g.nodeAt? x [i] = (g.premisesOf x)[i]? := by
  cases hq : (g.premisesOf x)[i]? with
  | none => exact nodeAt?_cons_of_none hq []
  | some q => exact nodeAt?_cons hq []

/-- The premises of parallel derivations are parallel, one by one. -/
theorem Parallel.premises (h : g.Parallel g' S tree tree') :
    List.Forall₂ (g.Parallel g' S) (g.premisesOf tree) (g'.premisesOf tree') := by
  rw [forall₂_iff_getElem?]
  intro i
  have hi := h [i]
  rw [nodeAt?_singleton, nodeAt?_singleton] at hi
  rcases rel_iff.mp hi with ⟨q, q', hq, hq', -⟩ | ⟨hq, hq'⟩
  · rw [hq, hq']
    refine .some fun p => ?_
    rw [← nodeAt?_cons hq, ← nodeAt?_cons hq']
    exact h (i :: p)
  · rw [hq, hq']
    exact .none

/-- Conversely, matching nodes over parallel premises make parallel derivations. -/
theorem Matches.parallel (h : g.Matches g' S x x')
    (hps : List.Forall₂ (g.Parallel g' S) (g.premisesOf x) (g'.premisesOf x')) :
    g.Parallel g' S x x' := by
  intro p
  cases p with
  | nil => exact .some h
  | cons i p =>
    rcases rel_iff.mp (forall₂_iff_getElem?.mp hps i) with ⟨q, q', hq, hq', hpar⟩ | ⟨hq, hq'⟩
    · rw [nodeAt?_cons hq, nodeAt?_cons hq']
      exact hpar p
    · rw [nodeAt?_cons_of_none hq, nodeAt?_cons_of_none hq']
      exact .none

theorem Parallel.exists_premise (h : g.Parallel g' S tree tree') {q' : Ref}
    (hq' : q' ∈ g'.premisesOf tree') : ∃ q ∈ g.premisesOf tree, g.Parallel g' S q q' := by
  have hflip : List.Forall₂ (flip (g.Parallel g' S)) (g'.premisesOf tree') (g.premisesOf tree) :=
    .flip h.premises
  exact exists_mem_of_forall₂ hflip q' hq'

/-- Below parallel derivations there are parallel derivations only. -/
theorem Parallel.exists_below (h : g.Parallel g' S tree tree') (hx' : g'.Below tree' x') :
    ∃ x, g.Below tree x ∧ g.Parallel g' S x x' := by
  induction hx' with
  | refl => exact ⟨tree, .refl, h⟩
  | tail _ hx' ih =>
    obtain ⟨y, hy, hpar⟩ := ih
    obtain ⟨x, hx, hpar⟩ := hpar.exists_premise hx'
    exact ⟨x, hy.tail hx, hpar⟩

theorem Parallel.imp {T : Judgement → Judgement → Prop} (h : g.Parallel g' S tree tree')
    (hST : ∀ x, g.Below tree x → ∀ j, g.conclusion? x = some j → ∀ j', S j j' → T j j') :
    g.Parallel g' T tree tree' := by
  intro p
  rcases rel_iff.mp (h p) with ⟨x, x', hx, hx', hm⟩ | ⟨hx, hx'⟩
  · rw [hx, hx']
    refine .some ⟨hm.outline, ?_⟩
    rcases rel_iff.mp hm.sequent with ⟨j, j', hj, hj', hS⟩ | ⟨hj, hj'⟩
    · rw [hj, hj']
      exact .some (hST x (below_of_nodeAt? hx) j hj j' hS)
    · rw [hj, hj']
      exact .none
  · rw [hx, hx']
    exact .none

theorem Parallel.shallow {n : Nat} (h : g.Parallel g' S tree tree') (hs : g.Shallow n tree) :
    g'.Shallow n tree' := by
  induction hs generalizing tree' with
  | node _ ih =>
    refine .node fun q' hq' => ?_
    obtain ⟨q, hq, hpar⟩ := h.exists_premise hq'
    exact ih q hq hpar

end Graph

/-! ## images -/

/-- A sequent with its context changed by `C`, and its term and type by `f`. -/
def Statement.map (C : (String → Option Value) → String → Option Value) (f : Value → Value)
    (s : Statement) : Statement := ⟨C s.context, f s.term, f s.ty⟩

/-- The changes `E` of environments and `f` of terms and types keep the grammar, change contexts by
`C` and keep the rule table. -/
structure Morphism (E : Listing → Listing) (f : Value → Value)
    (C : (String → Option Value) → String → Option Value) : Prop where
  type : ∀ A : Value, A.IsType → (f A).IsType
  term : ∀ t : Value, t.IsTerm → (f t).IsTerm
  listing : ∀ l : Listing, l.WellFormed → (E l).WellFormed
  context : ∀ l : Listing, (E l).context = C l.context
  table : ∀ {R : Rule} {s : Statement} {ss : List Statement}, R.Instance s ss →
    R.Instance (s.map C f) (ss.map (Statement.map C f))

namespace Graph
variable {g g' : Graph} {E : Listing → Listing} {f : Value → Value}
  {C : (String → Option Value) → String → Option Value}

/-- The sequent `j'` is `j` with its bindings changed by `E`, in any order, and its term and its
type by `f`. -/
structure Image (g g' : Graph) (E : Listing → Listing) (f : Value → Value) (j j' : Judgement) :
    Prop where
  kind : (g'.get j'.env).kind = .env
  env : (g'.listing (g'.bindingsOf j'.env)).Perm (E (g.listing (g.bindingsOf j.env)))
  term : g'.value j'.term = f (g.value j.term)
  ty : g'.value j'.ty = f (g.value j.ty)

section
variable (M : Morphism E f C)
include M

theorem Image.wellStated {j j' : Judgement} (h : g.Image g' E f j j') (hj : g.WellStated j) :
    g'.WellStated j' := by
  obtain ⟨he, ht, ha⟩ := hj
  refine ⟨wellFormed_env_iff.mpr ⟨h.kind, ?_⟩, ?_, ?_⟩
  · exact Listing.wellFormed_of_perm h.env.symm (M.listing _ (wellFormed_env_iff.mp he).2)
  · exact wellFormed_of_isTerm (M.term _ ht.holds) h.term
  · exact wellFormed_of_isType (M.type _ ha.holds) h.ty

theorem Image.statement {j j' : Judgement} (h : g.Image g' E f j j') :
    g'.statement j' = (g.statement j).map C f := by
  unfold Graph.statement Statement.map
  rw [context_eq_listing, context_eq_listing, ← M.context, h.term, h.ty,
    Listing.context_of_perm h.env (nodup_words_listing j'.env)]

theorem Matches.records {x x' : Ref} (h : g.Matches g' (g.Image g' E f) x x') {s : Statement}
    (hx : g.Records x s) : g'.Records x' (s.map C f) := by
  obtain ⟨j, hj, rfl⟩ := hx
  obtain ⟨j', hj', himage⟩ := h.exists_conclusion hj
  exact ⟨j', hj', himage.statement M⟩

theorem forall₂_records {ps ps' : List Ref} {ss : List Statement}
    (h : List.Forall₂ (g.Parallel g' (g.Image g' E f)) ps ps') (hr : List.Forall₂ g.Records ps ss) :
    List.Forall₂ g'.Records ps' (ss.map (Statement.map C f)) := by
  induction h generalizing ss with
  | nil =>
    cases hr
    exact .nil
  | cons hpar _ ih =>
    cases hr with
    | cons hp hr => exact .cons (hpar.root.records M hp) (ih hr)

/-- A node in the rule table stays in it. -/
theorem Parallel.fits {x x' : Ref} {R : Rule} {j j' : Judgement}
    (h : g.Parallel g' (g.Image g' E f) x x') (hj : g.Image g' E f j j')
    (hfit : g.Fits R (g.premisesOf x) j) : g'.Fits R (g'.premisesOf x') j' := by
  obtain ⟨ss, hr, hi⟩ := hfit
  refine ⟨ss.map (Statement.map C f), forall₂_records M h.premises hr, ?_⟩
  rw [hj.statement M]
  exact M.table hi

/-- **The image of an accepted derivation is accepted**, if the target and all that the derivation
records are well formed and the change keeps the grammar and the rule table. -/
theorem check_of_parallel {limits : Limits} {tree tree' : Ref} {target target' : Judgement}
    (h : g.check limits tree target = .ok .accept) (hw : g.Grammatical tree target)
    (htarget : g.Image g' E f target target')
    (hpar : g.Parallel g' (g.Image g' E f) tree tree') :
    g'.check limits tree' target' = .ok .accept := by
  -- every node of the image is one of the rule table, and records a well-formed sequent
  have hnodes : ∀ x', g'.Below tree' x' → ∃ R j' ps', g'.IsNode x' R j' ps' ∧ g'.WellStated j' ∧
      g'.Fits R ps' j' := by
    intro x' hx'
    obtain ⟨x, hx, hpx⟩ := hpar.exists_below hx'
    obtain ⟨R, j, ps, hnode, hfit⟩ := fits_of_accept h hx
    obtain ⟨j', hnode', hj'⟩ := hpx.root.isNode hnode
    rw [← hnode.premisesOf] at hfit
    have hj : g.WellStated j := hw.wellStated (.inr ⟨x, hx, hnode.conclusion⟩)
    exact ⟨R, j', _, hnode', hj'.wellStated M hj, hpx.fits M hj' hfit⟩
  have hapt : ∀ x', g'.Below tree' x' → ∀ j', g'.conclusion? x' = some j' → g'.Apt j' := by
    intro x' hx' j' hj'
    obtain ⟨R, i', ps', hnode', hi', -⟩ := hnodes x' hx'
    obtain rfl := hnode'.eq_of_conclusion hj'
    exact hi'.apt
  have hpass : ∀ x' R j' ps' goal, g'.Below tree' x' → g'.IsNode x' R j' ps' → g'.Fits R ps' j' →
      g'.Apt goal → g'.statement j' = g'.statement goal → g'.Passes x' goal := by
    intro x' R j' ps' goal hx' hnode' hfit' hgoal heq
    refine hnode'.passes hfit' hgoal (fun p' hp' => hapt p' (hx'.tail ?_)) heq
    rw [hnode'.premisesOf]
    exact hp'
  have ht : g.WellStated target := hw.wellStated (.inl rfl)
  have ht' : g'.WellStated target' := htarget.wellStated M ht
  -- the root of the image records the image of the target
  obtain ⟨-, -, -, -, -, -, hend⟩ := check_eq_accept.mp h
  obtain ⟨j, hj, hsame⟩ := checkConclusion_eq_ok_iff.mp hend
  have hjw : g.WellStated j := hw.wellStated (.inr ⟨tree, .refl, hj⟩)
  obtain ⟨R, i', ps', hnode', hi', hfit'⟩ := hnodes tree' .refl
  obtain ⟨j', hj', himage⟩ := hpar.root.exists_conclusion hj
  obtain rfl := hnode'.eq_of_conclusion hj'
  have hroot : g'.statement i' = g'.statement target' := by
    rw [himage.statement M, htarget.statement M, (statement_eq_iff hjw.apt ht.apt).mpr hsame]
  apply check_of_passes limits ht'
  · intro x' hx'
    obtain ⟨R, j', ps', hnode', hj', hfit'⟩ := hnodes x' hx'
    exact ⟨R, j', ps', hnode', hj', hpass x' R j' ps' j' hx' hnode' hfit' hj'.apt rfl⟩
  · exact hpar.shallow (looseIn_of_accept h).1
  · exact hpass tree' R i' ps' target' .refl hnode' hfit' ht'.apt hroot
  · exact checkConclusion_eq_ok_iff.mpr ⟨i', hj', (statement_eq_iff hi'.apt ht'.apt).mp hroot⟩

end

end Graph

end NaturalDeduction

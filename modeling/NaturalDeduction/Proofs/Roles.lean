import Mathlib.Logic.Relation
import NaturalDeduction.Check.Basic

/-!
# The roles of values

A value is looked at in a role: as a type, as a term or as an environment.

* `Cell.role?`, `Cell.labels`, `Cell.parts`   the role that a constructor is made for, the names
                       in a cell, and its parts, each with its own role;
* `Graph.fits`         whether a cell may stand in a role, whatever its parts are;
* `Graph.WellFormed`   the grammar: the cell fits its role, and every part is well formed;
* `Graph.Uses`         a value in a role looks at another one in a role, as a part of a part;
* `Graph.Below`        the nodes of a derivation, however often they are shared;
* `Graph.Occurs`       the roles in which a value occurs in a target or in the conclusions that a
                       derivation records;
* `Graph.RolesApart`   no value occurs in two roles.
-/

namespace NaturalDeduction

/-- What a value is looked at as. -/
inductive Role where
  | type
  | term
  | env
  deriving DecidableEq, Repr

namespace Cell

/-- The role that the constructor of a cell is made for. -/
def role? : Cell → Option Role
  | bottom => some .type
  | base _ => some .type
  | arrow _ _ => some .type
  | product _ _ => some .type
  | sum _ _ => some .type
  | var _ => some .term
  | pair _ _ => some .term
  | inl _ => some .term
  | inr _ => some .term
  | case _ _ _ => some .term
  | fst _ => some .term
  | snd _ => some .term
  | lambda _ _ _ => some .term
  | abort _ => some .term
  | env _ => some .env
  | _ => none

/-- The names in a cell. -/
def labels : Cell → List Ref
  | base n => [n]
  | var n => [n]
  | lambda x _ _ => [x]
  | env bs => bs.map Prod.fst
  | _ => []

/-- The parts of a cell that are types or terms, in the order in which a walk meets them. -/
def parts : Cell → List (Role × Ref)
  | arrow a b => [(.type, a), (.type, b)]
  | product a b => [(.type, a), (.type, b)]
  | sum a b => [(.type, a), (.type, b)]
  | pair t u => [(.term, t), (.term, u)]
  | inl t => [(.term, t)]
  | inr t => [(.term, t)]
  | case t u v => [(.term, t), (.term, u), (.term, v)]
  | fst t => [(.term, t)]
  | snd t => [(.term, t)]
  | lambda _ a t => [(.type, a), (.term, t)]
  | abort t => [(.term, t)]
  | env bs => bs.map fun e => (.type, e.2)
  | _ => []

theorem mem_refs_of_mem_parts {c : Cell} {p : Role × Ref} (h : p ∈ c.parts) :
    c.kind ≠ .list ∧ p.2 ∈ c.refs := by
  cases c <;>
    simp only [parts, List.mem_cons, List.not_mem_nil, or_false, List.mem_map] at h <;>
    refine ⟨by simp [kind], ?_⟩
  case env bs =>
    obtain ⟨e, he, rfl⟩ := h
    exact List.mem_append_right _ (List.mem_flatMap.mpr ⟨e, he, by simp⟩)
  all_goals
    simp only [refs, fields, items, entries]
    grind

end Cell

/-- The parts of a cell in a role; a cell out of place has none. -/
def Role.parts (ρ : Role) (c : Cell) : List (Role × Ref) :=
  if c.role? = some ρ then c.parts else []

theorem Role.mem_parts {ρ : Role} {c : Cell} {p : Role × Ref} :
    p ∈ ρ.parts c ↔ c.role? = some ρ ∧ p ∈ c.parts := by
  unfold parts
  split <;> simp_all

namespace Graph
variable {g : Graph}

/-- A part comes before the value that it is a part of. -/
theorem lt_of_mem_parts {ρ : Role} {r : Ref} {p : Role × Ref} (h : p ∈ ρ.parts (g.get r)) :
    p.2 < r := by
  obtain ⟨hk, hp⟩ := Cell.mem_refs_of_mem_parts (Role.mem_parts.mp h).2
  exact lt_of_mem_refs hk hp

/-- Whether a cell may stand in a role: it has a constructor of that role, and its names are
names. -/
def fits (g : Graph) (ρ : Role) (c : Cell) : Bool :=
  c.role? == some ρ && c.labels.all g.isName

theorem fits_iff {ρ : Role} {c : Cell} :
    g.fits ρ c = true ↔ c.role? = some ρ ∧ ∀ n ∈ c.labels, g.isName n = true := by
  simp [fits]

/-- The grammar of types, terms and environments. -/
inductive WellFormed (g : Graph) : Role → Ref → Prop
  | intro {ρ : Role} {r : Ref} (fits : g.fits ρ (g.get r) = true)
      (parts : ∀ p ∈ ρ.parts (g.get r), WellFormed g p.1 p.2) : WellFormed g ρ r

theorem WellFormed.fits {ρ : Role} {r : Ref} (h : g.WellFormed ρ r) :
    g.fits ρ (g.get r) = true := by
  obtain ⟨hf, -⟩ := h
  exact hf

theorem WellFormed.part {ρ : Role} {r : Ref} (h : g.WellFormed ρ r) {p : Role × Ref}
    (hp : p ∈ ρ.parts (g.get r)) : g.WellFormed p.1 p.2 := by
  obtain ⟨-, hq⟩ := h
  exact hq p hp

/-- A value is well formed in one role at most. -/
theorem WellFormed.role_unique {ρ σ : Role} {r : Ref} (h : g.WellFormed ρ r)
    (h' : g.WellFormed σ r) : ρ = σ :=
  Option.some.inj ((fits_iff.mp h.fits).1.symm.trans (fits_iff.mp h'.fits).1)

/-- A value in a role looks at a value in a role: itself, or a part of one that it looks at. -/
def Uses (g : Graph) : Role × Ref → Role × Ref → Prop :=
  Relation.ReflTransGen fun p q => q ∈ p.1.parts (g.get p.2)

theorem WellFormed.of_uses {p q : Role × Ref} (hp : g.WellFormed p.1 p.2) (h : g.Uses p q) :
    g.WellFormed q.1 q.2 := by
  induction h with
  | refl => exact hp
  | tail _ hq ih => exact ih.part hq

/-! ## what a check looks at -/

/-- The node `x` lies at or below the node `r`. -/
def Below (g : Graph) : Ref → Ref → Prop :=
  Relation.ReflTransGen fun x y => y ∈ g.premisesOf x

end Graph

/-- The three parts of a sequent with their roles. -/
def Judgement.roots (j : Judgement) : List (Role × Ref) :=
  [(.env, j.env), (.term, j.term), (.type, j.ty)]

namespace Graph
variable {g : Graph}

/-- The sequent is the target, or a node of the derivation records it. -/
def Stated (g : Graph) (tree : Ref) (target j : Judgement) : Prop :=
  j = target ∨ ∃ x, g.Below tree x ∧ g.conclusion? x = some j

/-- The value `r` occurs in a role in the target or in a recorded conclusion. -/
def Occurs (g : Graph) (tree : Ref) (target : Judgement) (ρ : Role) (r : Ref) : Prop :=
  ∃ j, g.Stated tree target j ∧ ∃ p ∈ j.roots, g.Uses p (ρ, r)

/-- No value occurs in two of the three roles. -/
def RolesApart (g : Graph) (tree : Ref) (target : Judgement) : Prop :=
  ∀ ρ σ r, g.Occurs tree target ρ r → g.Occurs tree target σ r → ρ = σ

/-- The three parts of a sequent are well formed. -/
def WellStated (g : Graph) (j : Judgement) : Prop :=
  g.WellFormed .env j.env ∧ g.WellFormed .term j.term ∧ g.WellFormed .type j.ty

theorem WellStated.root {j : Judgement} (h : g.WellStated j) {p : Role × Ref}
    (hp : p ∈ j.roots) : g.WellFormed p.1 p.2 := by
  obtain ⟨he, ht, ha⟩ := h
  simp only [Judgement.roots, List.mem_cons, List.not_mem_nil, or_false] at hp
  rcases hp with rfl | rfl | rfl
  · exact he
  · exact ht
  · exact ha

section
variable {tree : Ref} {target : Judgement}

theorem Occurs.part {ρ : Role} {r : Ref} (h : g.Occurs tree target ρ r) {p : Role × Ref}
    (hp : p ∈ ρ.parts (g.get r)) : g.Occurs tree target p.1 p.2 := by
  obtain ⟨j, hj, q, hq, hu⟩ := h
  exact ⟨j, hj, q, hq, hu.tail hp⟩

theorem Stated.occurs {j : Judgement} (h : g.Stated tree target j) {p : Role × Ref}
    (hp : p ∈ j.roots) : g.Occurs tree target p.1 p.2 := ⟨j, h, p, hp, .refl⟩

/-- Where everything is well formed, every value keeps to one role. -/
theorem rolesApart_of_wellStated (h : ∀ j, g.Stated tree target j → g.WellStated j) :
    g.RolesApart tree target := by
  have hw : ∀ ρ r, g.Occurs tree target ρ r → g.WellFormed ρ r := by
    rintro ρ r ⟨j, hj, p, hp, hu⟩
    exact ((h j hj).root hp).of_uses hu
  exact fun ρ σ r hρ hσ => (hw ρ r hρ).role_unique (hw σ r hσ)

end

end Graph

end NaturalDeduction

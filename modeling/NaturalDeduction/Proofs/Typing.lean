import NaturalDeduction.Syntax.Basic
import NaturalDeduction.Proofs.RuleTable

/-!
# Correct derivations

The nine rules over types and terms as they are written, without a graph.

* `Assertion`            a sequent whose context is a finite map;
* `Rule.Application`     the rule table: conclusion and premises of every application of a rule;
* `Derivation.Correct`   every node is an application of its rule to what its premises record;
* `Derivation.height`    the most nodes on a way from the root to a leaf;
* `Ty.value`, `Term.value`, `Assertion.statement`   the same as trees of the kind a graph holds;
* `Derivation.Named`     no name in the derivation is empty;
* `application_iff`      the two rule tables agree.
-/

namespace NaturalDeduction

/-- A sequent whose context is a finite map, so that the order of its bindings does not count. -/
structure Assertion where
  context : String → Option Ty
  term : Term
  ty : Ty

def Sequent.assertion (q : Sequent) : Assertion := ⟨q.ctx.lookup, q.term, q.ty⟩

/-- The applications of the rules: a conclusion and the premises it needs. -/
inductive Rule.Application : Rule → Assertion → List Assertion → Prop
  | assm {Γ : String → Option Ty} {x : String} {A : Ty} (h : Γ x = some A) :
      Application .assm ⟨Γ, .var x, A⟩ []
  | pairIntro {Γ : String → Option Ty} {t u : Term} {A B : Ty} :
      Application .pairIntro ⟨Γ, .pair t u, .product A B⟩ [⟨Γ, t, A⟩, ⟨Γ, u, B⟩]
  | inlIntro {Γ : String → Option Ty} {t : Term} {A B : Ty} :
      Application .inlIntro ⟨Γ, .inl t, .sum A B⟩ [⟨Γ, t, A⟩]
  | inrIntro {Γ : String → Option Ty} {t : Term} {A B : Ty} :
      Application .inrIntro ⟨Γ, .inr t, .sum A B⟩ [⟨Γ, t, B⟩]
  | caseElim {Γ : String → Option Ty} {t u v : Term} {A B C : Ty} :
      Application .caseElim ⟨Γ, .case t u v, C⟩
        [⟨Γ, t, .sum A B⟩, ⟨Γ, u, .arrow A C⟩, ⟨Γ, v, .arrow B C⟩]
  | fstElim {Γ : String → Option Ty} {t : Term} {A B : Ty} :
      Application .fstElim ⟨Γ, .fst t, A⟩ [⟨Γ, t, .product A B⟩]
  | sndElim {Γ : String → Option Ty} {t : Term} {A B : Ty} :
      Application .sndElim ⟨Γ, .snd t, B⟩ [⟨Γ, t, .product A B⟩]
  | lambdaIntro {Γ : String → Option Ty} {x : String} {t : Term} {A B : Ty} :
      Application .lambdaIntro ⟨Γ, .lambda x A t, .arrow A B⟩ [⟨Function.update Γ x (some A), t, B⟩]
  | bottomElim {Γ : String → Option Ty} {t : Term} {A : Ty} :
      Application .bottomElim ⟨Γ, .abort t, A⟩ [⟨Γ, t, .bottom⟩]

namespace Derivation

/-- Every node is an application of its rule to what its premises record. -/
inductive Correct : Derivation → Prop
  | node {R : Rule} {q : Sequent} {ds : List Derivation}
      (h : R.Application q.assertion (ds.map fun d => d.conclusion.assertion))
      (hs : ∀ d ∈ ds, Correct d) : Correct (.node R q ds)

/-- A correct derivation of a sequent, up to the order of the bindings in its context. -/
def Proves (d : Derivation) (q : Sequent) : Prop :=
  d.Correct ∧ d.conclusion.assertion = q.assertion

mutual

/-- The most nodes on a way from the root to a leaf. -/
def height : Derivation → Nat
  | .node _ _ ds => heights ds + 1

/-- The greatest height of several derivations. -/
def heights : List Derivation → Nat
  | [] => 0
  | d :: ds => max d.height (heights ds)

end

mutual

/-- Induction over derivations: what holds of a node if it holds of its premises holds of all. -/
theorem induction {P : Derivation → Prop}
    (node : ∀ R q ds, (∀ d ∈ ds, P d) → P (.node R q ds)) : (d : Derivation) → P d
  | .node R q ds => node R q ds (inductionAll node ds)

theorem inductionAll {P : Derivation → Prop}
    (node : ∀ R q ds, (∀ d ∈ ds, P d) → P (.node R q ds)) : (ds : List Derivation) → ∀ d ∈ ds, P d
  | [] => fun _ hd => absurd hd List.not_mem_nil
  | d :: ds => List.forall_mem_cons.mpr ⟨induction node d, inductionAll node ds⟩

end

theorem heights_le_iff {ds : List Derivation} {n : Nat} :
    heights ds ≤ n ↔ ∀ d ∈ ds, d.height ≤ n := by
  induction ds with
  | nil => simp [heights]
  | cons d ds ih => rw [heights, Nat.max_le, ih, List.forall_mem_cons]

theorem correct_node_iff {R : Rule} {q : Sequent} {ds : List Derivation} :
    (node R q ds).Correct ↔
      R.Application q.assertion (ds.map fun d => d.conclusion.assertion) ∧ ∀ d ∈ ds, d.Correct := by
  constructor
  · rintro ⟨h, hs⟩
    exact ⟨h, hs⟩
  · rintro ⟨h, hs⟩
    exact .node h hs

end Derivation

/-! ## trees -/

def Ty.value : Ty → Value
  | bottom => .bottom
  | base x => .base (.text x)
  | arrow A B => .arrow A.value B.value
  | product A B => .product A.value B.value
  | sum A B => .sum A.value B.value

def Term.value : Term → Value
  | var x => .var (.text x)
  | pair t u => .pair t.value u.value
  | inl t => .inl t.value
  | inr t => .inr t.value
  | case t u v => .case t.value u.value v.value
  | fst t => .fst t.value
  | snd t => .snd t.value
  | lambda x A t => .lambda (.text x) A.value t.value
  | abort t => .abort t.value

theorem Ty.value_injective : Function.Injective Ty.value := by
  intro A
  induction A with
  | bottom | base x =>
    intro B h
    cases B <;> simp_all [value]
  | arrow A A' ih ih' | product A A' ih ih' | sum A A' ih ih' =>
    intro B h
    cases B <;> simp [value] at h
    rw [ih h.1, ih' h.2]

theorem Term.value_injective : Function.Injective Term.value := by
  intro t
  induction t with
  | var x =>
    intro u h
    cases u <;> simp_all [value]
  | pair t t' ih ih' =>
    intro u h
    cases u <;> simp [value] at h
    rw [ih h.1, ih' h.2]
  | case t t' t'' ih ih' ih'' =>
    intro u h
    cases u <;> simp [value] at h
    rw [ih h.1, ih' h.2.1, ih'' h.2.2]
  | lambda x A t ih =>
    intro u h
    cases u <;> simp [value] at h
    rw [h.1, Ty.value_injective h.2.1, ih h.2.2]
  | inl t ih | inr t ih | fst t ih | snd t ih | abort t ih =>
    intro u h
    cases u <;> simp [value] at h
    rw [ih h]

/-- The tree of an assertion. -/
def Assertion.statement (a : Assertion) : Statement :=
  ⟨fun x => (a.context x).map Ty.value, a.term.value, a.ty.value⟩

theorem Assertion.statement_injective : Function.Injective Assertion.statement := by
  rintro ⟨Γ, t, A⟩ ⟨Δ, u, B⟩ h
  obtain ⟨hΓ, ht, hA⟩ : (fun x => (Γ x).map Ty.value) = (fun x => (Δ x).map Ty.value) ∧
      t.value = u.value ∧ A.value = B.value := by simpa [statement] using h
  have hΓΔ : Γ = Δ := by
    funext x
    exact Option.map_injective Ty.value_injective (congrFun hΓ x)
  rw [hΓΔ, Term.value_injective ht, Ty.value_injective hA]

/-! ## names -/

/-- No name in the type is empty. -/
def Ty.Named : Ty → Prop
  | bottom => True
  | base x => x ≠ ""
  | arrow A B => A.Named ∧ B.Named
  | product A B => A.Named ∧ B.Named
  | sum A B => A.Named ∧ B.Named

def Term.Named : Term → Prop
  | var x => x ≠ ""
  | pair t u => t.Named ∧ u.Named
  | inl t => t.Named
  | inr t => t.Named
  | case t u v => t.Named ∧ u.Named ∧ v.Named
  | fst t => t.Named
  | snd t => t.Named
  | lambda x A t => x ≠ "" ∧ A.Named ∧ t.Named
  | abort t => t.Named

def Context.Named (Γ : Context) : Prop := ∀ b ∈ Γ.bindings, b.1 ≠ "" ∧ b.2.Named

def Sequent.Named (q : Sequent) : Prop := q.ctx.Named ∧ q.term.Named ∧ q.ty.Named

inductive Derivation.Named : Derivation → Prop
  | node {R : Rule} {q : Sequent} {ds : List Derivation} (hq : q.Named) (hs : ∀ d ∈ ds, Named d) :
      Named (.node R q ds)

/-! ## the two tables -/

theorem map_update (Γ : String → Option Ty) (x : String) (A : Ty) :
    (fun y => (Function.update Γ x (some A) y).map Ty.value) =
      Function.update (fun y => (Γ y).map Ty.value) x (some A.value) := by
  funext y
  by_cases h : y = x
  · subst h
    simp
  · simp [h]

section
variable {R : Rule} {a : Assertion} {as : List Assertion}

theorem Rule.Application.toInstance (h : R.Application a as) :
    R.Instance a.statement (as.map Assertion.statement) := by
  cases h with
  | @assm Γ x A h =>
    refine .assm (n := .text x) ?_
    show (Γ x).map Ty.value = _
    rw [h]
    rfl
  | @lambdaIntro Γ x t A B =>
    have hp : Assertion.statement ⟨Function.update Γ x (some A), t, B⟩ =
        ⟨Function.update (fun y => (Γ y).map Ty.value) x (some A.value), t.value, B.value⟩ := by
      rw [Assertion.statement, map_update]
    rw [List.map_singleton, hp]
    exact .lambdaIntro (n := .text x)
  | pairIntro => exact .pairIntro
  | inlIntro => exact .inlIntro
  | inrIntro => exact .inrIntro
  | caseElim => exact .caseElim
  | fstElim => exact .fstElim
  | sndElim => exact .sndElim
  | bottomElim => exact .bottomElim

/-- The trees of assertions determine them. -/
theorem map_statement_eq (bs : List Assertion)
    (h : as.map Assertion.statement = bs.map Assertion.statement) : as = bs :=
  List.map_injective_iff.mpr Assertion.statement_injective h

/-- The types in the trees of assertions are trees of types. -/
theorem exists_ty {ss : List Statement} (h : as.map Assertion.statement = ss) {s : Statement}
    (hs : s ∈ ss) : ∃ A : Ty, A.value = s.ty := by
  rw [← h] at hs
  obtain ⟨a, -, rfl⟩ := List.mem_map.mp hs
  exact ⟨a.ty, rfl⟩

theorem Rule.Application.of_instance (h : R.Instance a.statement (as.map Assertion.statement)) :
    R.Application a as := by
  obtain ⟨Γ, t, A⟩ := a
  generalize hs : Assertion.statement ⟨Γ, t, A⟩ = s at h
  generalize hl : as.map Assertion.statement = ss at h
  cases h with
  | @assm Γ' n A' hb =>
    obtain ⟨rfl, ht, rfl⟩ : (fun x => (Γ x).map Ty.value) = Γ' ∧ t.value = .var n ∧
        A.value = A' := by
      simpa [Assertion.statement] using hs
    cases t <;> simp [Term.value] at ht
    case var x =>
      subst ht
      obtain ⟨B, hB, hv⟩ := Option.map_eq_some_iff.mp hb
      obtain rfl := Ty.value_injective hv
      obtain rfl := List.map_eq_nil_iff.mp hl
      exact .assm hB
  | @pairIntro Γ' t' u' A' B' =>
    obtain ⟨rfl, ht, hA⟩ : (fun x => (Γ x).map Ty.value) = Γ' ∧ t.value = .pair t' u' ∧
        A.value = .product A' B' := by simpa [Assertion.statement] using hs
    cases t <;> simp [Term.value] at ht
    cases A <;> simp [Ty.value] at hA
    obtain ⟨⟨rfl, rfl⟩, rfl, rfl⟩ := And.intro ht hA
    obtain rfl := map_statement_eq [⟨Γ, _, _⟩, ⟨Γ, _, _⟩] hl
    exact .pairIntro
  | @inlIntro Γ' t' A' B' =>
    obtain ⟨rfl, ht, hA⟩ : (fun x => (Γ x).map Ty.value) = Γ' ∧ t.value = .inl t' ∧
        A.value = .sum A' B' := by simpa [Assertion.statement] using hs
    cases t <;> simp [Term.value] at ht
    cases A <;> simp [Ty.value] at hA
    obtain ⟨rfl, rfl, rfl⟩ := And.intro ht hA
    obtain rfl := map_statement_eq [⟨Γ, _, _⟩] hl
    exact .inlIntro
  | @inrIntro Γ' t' A' B' =>
    obtain ⟨rfl, ht, hA⟩ : (fun x => (Γ x).map Ty.value) = Γ' ∧ t.value = .inr t' ∧
        A.value = .sum A' B' := by simpa [Assertion.statement] using hs
    cases t <;> simp [Term.value] at ht
    cases A <;> simp [Ty.value] at hA
    obtain ⟨rfl, rfl, rfl⟩ := And.intro ht hA
    obtain rfl := map_statement_eq [⟨Γ, _, _⟩] hl
    exact .inrIntro
  | @caseElim Γ' t' u' v' A' B' C' =>
    obtain ⟨rfl, ht, rfl⟩ : (fun x => (Γ x).map Ty.value) = Γ' ∧ t.value = .case t' u' v' ∧
        A.value = C' := by simpa [Assertion.statement] using hs
    cases t <;> simp [Term.value] at ht
    obtain ⟨rfl, rfl, rfl⟩ := ht
    -- the sides of the disjunction are types, since the first premise has it as its type
    obtain ⟨D, hD⟩ := exists_ty hl List.mem_cons_self
    cases D <;> simp [Ty.value] at hD
    obtain ⟨rfl, rfl⟩ := hD
    obtain rfl := map_statement_eq [⟨Γ, _, .sum _ _⟩, ⟨Γ, _, .arrow _ A⟩, ⟨Γ, _, .arrow _ A⟩] hl
    exact .caseElim
  | @fstElim Γ' t' A' B' =>
    obtain ⟨rfl, ht, rfl⟩ : (fun x => (Γ x).map Ty.value) = Γ' ∧ t.value = .fst t' ∧
        A.value = A' := by simpa [Assertion.statement] using hs
    cases t <;> simp [Term.value] at ht
    subst ht
    obtain ⟨D, hD⟩ := exists_ty hl List.mem_cons_self
    cases D <;> simp [Ty.value] at hD
    obtain ⟨hA, rfl⟩ := hD
    obtain rfl := map_statement_eq [⟨Γ, _, .product A _⟩] hl
    exact .fstElim
  | @sndElim Γ' t' A' B' =>
    obtain ⟨rfl, ht, rfl⟩ : (fun x => (Γ x).map Ty.value) = Γ' ∧ t.value = .snd t' ∧
        A.value = B' := by simpa [Assertion.statement] using hs
    cases t <;> simp [Term.value] at ht
    subst ht
    obtain ⟨D, hD⟩ := exists_ty hl List.mem_cons_self
    cases D <;> simp [Ty.value] at hD
    obtain ⟨rfl, hA⟩ := hD
    obtain rfl := map_statement_eq [⟨Γ, _, .product _ A⟩] hl
    exact .sndElim
  | @lambdaIntro Γ' n t' A' B' =>
    obtain ⟨rfl, ht, hA⟩ : (fun x => (Γ x).map Ty.value) = Γ' ∧ t.value = .lambda n A' t' ∧
        A.value = .arrow A' B' := by simpa [Assertion.statement] using hs
    cases t <;> simp [Term.value] at ht
    case lambda x B t =>
      obtain ⟨rfl, rfl, rfl⟩ := ht
      cases A <;> simp [Ty.value] at hA
      obtain ⟨hB, rfl⟩ := hA
      obtain rfl := Ty.value_injective hB
      rw [Name.word, ← map_update] at hl
      obtain rfl := map_statement_eq [⟨Function.update Γ x _, _, _⟩] hl
      exact .lambdaIntro
  | @bottomElim Γ' t' A' =>
    obtain ⟨rfl, ht, rfl⟩ : (fun x => (Γ x).map Ty.value) = Γ' ∧ t.value = .abort t' ∧
        A.value = A' := by simpa [Assertion.statement] using hs
    cases t <;> simp [Term.value] at ht
    subst ht
    obtain rfl := map_statement_eq [⟨Γ, _, .bottom⟩] hl
    exact .bottomElim

/-- **The two rule tables agree.** -/
theorem application_iff :
    R.Application a as ↔ R.Instance a.statement (as.map Assertion.statement) :=
  ⟨fun h => h.toInstance, .of_instance⟩

end

end NaturalDeduction

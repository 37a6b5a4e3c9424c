import NaturalDeduction.Syntax.Rule

/-!
# Types, terms, contexts, sequents and derivations

* `Ty`           types over named atoms: falsity, implication, conjunction, disjunction;
* `Term`         proof terms; bound names belong to the term, there is no renaming;
* `Context`      finite maps from names to types, in insertion order;
* `Sequent`      the judgement `Γ ⊢ t : A`;
* `Derivation`   trees of rule applications, each with the sequent that it claims.
-/

namespace NaturalDeduction

/-- A type, read as a proposition. -/
inductive Ty where
  | bottom
  | base (name : String)
  | arrow (dom cod : Ty)
  | product (left right : Ty)
  | sum (left right : Ty)
  deriving DecidableEq, Repr

inductive Term where
  | var (name : String)
  | pair (fst snd : Term)
  | inl (body : Term)
  | inr (body : Term)
  | case (scrutinee onLeft onRight : Term)
  | fst (pair : Term)
  | snd (pair : Term)
  | lambda (param : String) (paramTy : Ty) (body : Term)
  | abort (body : Term)
  deriving DecidableEq, Repr

/-- A typing context: names bound to types, each name once, in insertion order. -/
structure Context where
  bindings : List (String × Ty)
  nodup : (bindings.map Prod.fst).Nodup
  deriving DecidableEq

namespace Context

def empty : Context := ⟨[], by simp⟩

instance : Inhabited Context := ⟨empty⟩

def lookup (Γ : Context) (x : String) : Option Ty := List.lookup x Γ.bindings

/-- Binds a name that is not bound yet, after the others. -/
def push (Γ : Context) (x : String) (A : Ty) (h : x ∉ Γ.bindings.map Prod.fst) : Context :=
  ⟨Γ.bindings ++ [(x, A)], by
    rw [List.map_append, List.nodup_append]
    refine ⟨Γ.nodup, by simp, ?_⟩
    intro a ha b hb
    obtain rfl : b = x := by simpa using hb
    exact fun e => h (e ▸ ha)⟩

end Context

/-- The judgement `Γ ⊢ t : A`. -/
structure Sequent where
  ctx : Context
  term : Term
  ty : Ty
  deriving DecidableEq

/-- A tree of rule applications; each node records the sequent it claims to derive. -/
inductive Derivation where
  | node (rule : Rule) (conclusion : Sequent) (premises : List Derivation)

def Derivation.conclusion : Derivation → Sequent
  | .node _ s _ => s

end NaturalDeduction

import NaturalDeduction.Graph.Basic
import NaturalDeduction.Syntax.Basic

/-!
# Types, terms, contexts, sequents and derivations as cells

* `Graph.addTy`, `Graph.addTerm`, `Graph.addContext`, `Graph.addSequent`, `Graph.addDerivation`
  add a value to a graph, every part of it as a cell of its own, and give its reference.
-/

namespace NaturalDeduction

namespace Graph

def addTy : Ty → Graph → Graph × Ref
  | .bottom, g => g.add .bottom
  | .base n, g =>
    let (g, n) := g.add (.text n)
    g.add (.base n)
  | .arrow a b, g =>
    let (g, a) := addTy a g
    let (g, b) := addTy b g
    g.add (.arrow a b)
  | .product a b, g =>
    let (g, a) := addTy a g
    let (g, b) := addTy b g
    g.add (.product a b)
  | .sum a b, g =>
    let (g, a) := addTy a g
    let (g, b) := addTy b g
    g.add (.sum a b)

def addTerm : Term → Graph → Graph × Ref
  | .var n, g =>
    let (g, n) := g.add (.text n)
    g.add (.var n)
  | .pair a b, g =>
    let (g, a) := addTerm a g
    let (g, b) := addTerm b g
    g.add (.pair a b)
  | .inl a, g =>
    let (g, a) := addTerm a g
    g.add (.inl a)
  | .inr a, g =>
    let (g, a) := addTerm a g
    g.add (.inr a)
  | .case a b c, g =>
    let (g, a) := addTerm a g
    let (g, b) := addTerm b g
    let (g, c) := addTerm c g
    g.add (.case a b c)
  | .fst a, g =>
    let (g, a) := addTerm a g
    g.add (.fst a)
  | .snd a, g =>
    let (g, a) := addTerm a g
    g.add (.snd a)
  | .lambda x A b, g =>
    let (g, x) := g.add (.text x)
    let (g, A) := addTy A g
    let (g, b) := addTerm b g
    g.add (.lambda x A b)
  | .abort a, g =>
    let (g, a) := addTerm a g
    g.add (.abort a)

def addBindings : List (String × Ty) → Graph → Graph × List (Ref × Ref)
  | [], g => (g, [])
  | (x, A) :: bs, g =>
    let (g, x) := g.add (.text x)
    let (g, A) := addTy A g
    let (g, bs) := addBindings bs g
    (g, (x, A) :: bs)

def addContext (Γ : Context) (g : Graph) : Graph × Ref :=
  let (g, bs) := addBindings Γ.bindings g
  g.add (.env bs)

def addSequent (s : Sequent) (g : Graph) : Graph × Ref :=
  let (g, e) := addContext s.ctx g
  let (g, t) := addTerm s.term g
  let (g, A) := addTy s.ty g
  g.add (.sequent e t A)

mutual

/-- Adds a derivation; its premises become a tuple. -/
def addDerivation : Derivation → Graph → Graph × Ref
  | .node R s ps, g =>
    let (g, R) := g.add (.rule R)
    let (g, s) := addSequent s g
    let (g, ps) := addDerivations ps g
    let (g, ps) := g.add (.tuple ps)
    g.add (.derivation R s ps)

def addDerivations : List Derivation → Graph → Graph × List Ref
  | [], g => (g, [])
  | d :: ds, g =>
    let (g, d) := addDerivation d g
    let (g, ds) := addDerivations ds g
    (g, d :: ds)

end

end Graph

end NaturalDeduction

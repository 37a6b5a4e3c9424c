import NaturalDeduction.Graph.Basic

/-!
# Well-formed types, terms, environments and sequents

A walk looks at a value and its parts from left to right and stops at the first part that is out of
place. It looks at a shared part once. Walks may share a memo of the parts found well formed; the
memo does not say as what a part is well formed, and a part in it is passed over wherever it is met.

* `Memo`                 the parts found well formed so far, if they are remembered;
* `Graph.typeFault`      the path to the first part of a value that is no type, if there is one;
* `Graph.termFault`      the same for terms;
* `Graph.envOk`, `Graph.sequentOk`   the predicates for environments and sequents.

Each returns the memo after the walk. A type or a term joins the memo, with all its parts, when it
is well formed as a whole; the types of parameters join on their own, as soon as they are passed,
and so do the types of an environment.
-/

namespace NaturalDeduction

/-- The parts found well formed so far; `none` if nothing is remembered between walks. -/
abbrev Memo := Option RefSet

namespace Memo

def knows (m : Memo) (r : Ref) : Bool := m.any (·.contains r)

def learn (m : Memo) (s : RefSet) : Memo := m.map (·.insertMany s.toList)

def note (m : Memo) (r : Ref) : Memo := m.map (·.insert r)

end Memo

namespace Graph

/-! ## types -/

/-- Walks the type at `r` after the parts in `seen`: the parts seen then, or the path to the first
part that is no type. -/
def typeWalk (g : Graph) (m : Memo) (r : Ref) (seen : RefSet) : Except Path RefSet :=
  if seen.contains r || m.knows r then .ok seen
  else
    have parts := g.forall_fields_lt r
    match h : g.get r with
    | .bottom => .ok (seen.insert r)
    | .base n => if g.isName n then .ok (seen.insert r) else .error []
    | .arrow a b =>
      have : a < r ∧ b < r := by simpa [h, Cell.fields] using parts
      match g.typeWalk m a (seen.insert r) with
      | .error p => .error (.dom :: p)
      | .ok seen => (g.typeWalk m b seen).mapError (.cod :: ·)
    | .product a b =>
      have : a < r ∧ b < r := by simpa [h, Cell.fields] using parts
      match g.typeWalk m a (seen.insert r) with
      | .error p => .error (.left :: p)
      | .ok seen => (g.typeWalk m b seen).mapError (.right :: ·)
    | .sum a b =>
      have : a < r ∧ b < r := by simpa [h, Cell.fields] using parts
      match g.typeWalk m a (seen.insert r) with
      | .error p => .error (.left :: p)
      | .ok seen => (g.typeWalk m b seen).mapError (.right :: ·)
    | _ => .error []
termination_by r
decreasing_by all_goals grind

/-- The path to the first part of `r` that is no type. -/
def typeFault (g : Graph) (m : Memo) (r : Ref) : Option Path × Memo :=
  match g.typeWalk m r {} with
  | .ok seen => (none, m.learn seen)
  | .error p => (some p, m)

/-! ## terms -/

/-- The parts that a walk has seen, and the memo, which it adds to on the way. -/
structure Walk where
  seen : RefSet
  memo : Memo

/-- A part out of place, and the memo when it was met. -/
structure Misfit where
  path : Path
  memo : Memo

def Walk.visit (w : Walk) (r : Ref) : Walk := { w with seen := w.seen.insert r }

def Misfit.under (f : Field) (e : Misfit) : Misfit := { e with path := f :: e.path }

def termWalk (g : Graph) (r : Ref) (w : Walk) : Except Misfit Walk :=
  if w.seen.contains r || w.memo.knows r then .ok w
  else
    have parts := g.forall_fields_lt r
    match h : g.get r with
    | .var n => if g.isName n then .ok (w.visit r) else .error ⟨[], w.memo⟩
    | .pair a b =>
      have : a < r ∧ b < r := by simpa [h, Cell.fields] using parts
      match g.termWalk a (w.visit r) with
      | .error e => .error (e.under .fst)
      | .ok w => (g.termWalk b w).mapError (Misfit.under .snd)
    | .inl a =>
      have : a < r := by simpa [h, Cell.fields] using parts
      (g.termWalk a (w.visit r)).mapError (Misfit.under .body)
    | .inr a =>
      have : a < r := by simpa [h, Cell.fields] using parts
      (g.termWalk a (w.visit r)).mapError (Misfit.under .body)
    | .case a b c =>
      have : a < r ∧ b < r ∧ c < r := by simpa [h, Cell.fields] using parts
      match g.termWalk a (w.visit r) with
      | .error e => .error (e.under .scrutinee)
      | .ok w =>
        match g.termWalk b w with
        | .error e => .error (e.under .onLeft)
        | .ok w => (g.termWalk c w).mapError (Misfit.under .onRight)
    | .fst a =>
      have : a < r := by simpa [h, Cell.fields] using parts
      (g.termWalk a (w.visit r)).mapError (Misfit.under .pair)
    | .snd a =>
      have : a < r := by simpa [h, Cell.fields] using parts
      (g.termWalk a (w.visit r)).mapError (Misfit.under .pair)
    | .lambda x a b =>
      have : x < r ∧ a < r ∧ b < r := by simpa [h, Cell.fields] using parts
      if g.isName x then
        match g.typeFault w.memo a with
        | (some p, m) => .error ⟨.paramTy :: p, m⟩
        | (none, m) => (g.termWalk b ⟨w.seen.insert r, m⟩).mapError (Misfit.under .body)
      else .error ⟨[.param], w.memo⟩
    | .abort a =>
      have : a < r := by simpa [h, Cell.fields] using parts
      (g.termWalk a (w.visit r)).mapError (Misfit.under .body)
    | _ => .error ⟨[], w.memo⟩
termination_by r
decreasing_by all_goals grind

def termFault (g : Graph) (m : Memo) (r : Ref) : Option Path × Memo :=
  match g.termWalk r ⟨{}, m⟩ with
  | .ok w => (none, w.memo.learn w.seen)
  | .error e => (some e.path, e.memo)

/-! ## environments and sequents -/

def bindingsOk (g : Graph) : List (Ref × Ref) → Memo → Bool × Memo
  | [], m => (true, m)
  | (x, a) :: bs, m =>
    if g.isName x then
      match g.typeFault m a with
      | (none, m) => g.bindingsOk bs m
      | (some _, m) => (false, m)
    else (false, m)

def envOk (g : Graph) (m : Memo) (r : Ref) : Bool × Memo :=
  match g.get r with
  | .env bs =>
    if m.knows r then (true, m)
    else
      match g.bindingsOk bs m with
      | (true, m) => (true, m.note r)
      | (false, m) => (false, m)
  | _ => (false, m)

def judgementOk (g : Graph) (m : Memo) (e t a : Ref) : Bool × Memo :=
  match g.envOk m e with
  | (false, m) => (false, m)
  | (true, m) =>
    match g.termFault m t with
    | (some _, m) => (false, m)
    | (none, m) =>
      match g.typeFault m a with
      | (some _, m) => (false, m)
      | (none, m) => (true, m)

def sequentOk (g : Graph) (m : Memo) (r : Ref) : Bool × Memo :=
  match g.get r with
  | .sequent e t a => g.judgementOk m e t a
  | _ => (false, m)

end Graph

end NaturalDeduction

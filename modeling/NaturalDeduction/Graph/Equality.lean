import NaturalDeduction.Graph.Basic

/-!
# Equality of values

Two values are equal when they have the same constructor and equal parts; environments and
dictionaries when they have equal keys with equal values, in any order. Numbers are compared
across `bool` and `int`, and a rule equals the text of its tag.

* `Failure`            why an operation on a graph has no answer;
* `Atom`, `Cell.atom?` the plain data, up to that equality;
* `Graph.equal`        the equality;
* `Graph.hashable`     the values that may be keys: those that hold no list and no dictionary;
* `Graph.find?`, `Graph.put`   lookup and insertion in a list of entries.
-/

namespace NaturalDeduction

/-- Why an operation on a graph has no answer. -/
inductive Failure where
  /-- a key holds a list or a dictionary -/
  | unhashable
  /-- names of different sorts have no order -/
  | unordered
  /-- a value is not a sequence of entries, or not a sequence at all -/
  | notSequence
  /-- a list is made longer by one sequence of elements, not by a name and a type -/
  | listExtension
  | notByte
  /-- entry number `index` has `length` elements instead of two -/
  | entryLength (index length : Nat)
  /-- a value, here in quoted form, is no rule -/
  | notRule (quoted : String)
  /-- a text, here in quoted form, is no reason for a rejection -/
  | notReason (quoted : String)
  | notPositive
  | noPart
  | noPremise
  /-- a node has no premise as high as its own height demands -/
  | noHeight
  /-- a number has too many digits to be written out -/
  | tooLong
  /-- a value is nested too deep to be written out -/
  | tooNested
  deriving DecidableEq, Repr

/-- The wording of the failures that have one. -/
def Failure.message? : Failure → Option String
  | entryLength i n =>
    some s!"dictionary update sequence element #{i} has length {n}; 2 is required"
  | notByte => some "byte must be in range(0, 256)"
  | notRule q => some (q ++ " is not a valid Rule")
  | notReason q => some (q ++ " is not a valid RejectReason")
  | notPositive => some "max_depth must be positive"
  | _ => none

inductive Atom where
  | null
  | number (n : Int)
  | text (s : String)
  | bytes (bs : List UInt8)
  | absent
  deriving DecidableEq, Repr

def Cell.atom? : Cell → Option Atom
  | null => some .null
  | bool b => some (.number b.toNat)
  | int n => some (.number n)
  | text s => some (.text s)
  | bytes bs => some (.bytes bs)
  | absent => some .absent
  | rule R => some (.text R.tag)
  | _ => none

namespace Graph

def agree (eq : Ref → Ref → Bool) (xs ys : List Ref) : Bool :=
  xs.length == ys.length && (xs.zip ys).all fun p => eq p.1 p.2

/-- Whether two lists of entries have the same number of keys and each key of the first is bound
to the same value in the second. -/
def agreeEntries (eq : Ref → Ref → Bool) (xs ys : List (Ref × Ref)) : Bool :=
  xs.length == ys.length &&
  xs.all fun e => (ys.find? fun f => eq e.1 f.1).any fun f => eq e.2 f.2

/-- Equality of values, looked into to a depth of `levels`. -/
def equalWithin (g : Graph) : (levels : Nat) → Ref → Ref → Bool
  | 0, a, b => a == b
  | n + 1, a, b =>
    a == b ||
    match (g.get a).atom?, (g.get b).atom? with
    | some x, some y => x == y
    | none, none =>
      (g.get a).kind == (g.get b).kind &&
      agree (g.equalWithin n) ((g.get a).fields.map Prod.snd) ((g.get b).fields.map Prod.snd) &&
      agree (g.equalWithin n) (g.get a).items (g.get b).items &&
      agreeEntries (g.equalWithin n) (g.get a).entries (g.get b).entries
    | _, _ => false

/-- Equality of values. A chain of parts without a cycle is no longer than the graph. -/
def equal (g : Graph) (a b : Ref) : Bool := g.equalWithin (g.size + 1) a b

/-- Whether a value may be a key: it holds no list and no dictionary. -/
def hashable (g : Graph) (r : Ref) : Bool :=
  if h : (g.get r).kind = .list then false
  else if (g.get r).kind = .dict then false
  else (g.get r).refs.attach.all fun ⟨s, hs⟩ =>
    have : s < r := lt_of_mem_refs h hs
    g.hashable s
termination_by r

/-! ## entries -/

def find? (g : Graph) (es : List (Ref × Ref)) (k : Ref) : Option Ref :=
  (es.find? fun e => g.equal k e.1).map Prod.snd

/-- Entries with `k` bound to `v`: an equal key keeps its place, a new one goes to the end. -/
def put (g : Graph) (k v : Ref) : List (Ref × Ref) → List (Ref × Ref)
  | [] => [(k, v)]
  | e :: es => if g.equal k e.1 then (e.1, v) :: es else e :: g.put k v es

def lookup (g : Graph) (es : List (Ref × Ref)) (k : Ref) : Except Failure (Option Ref) :=
  if g.hashable k then .ok (g.find? es k) else .error .unhashable

def bind (g : Graph) (es : List (Ref × Ref)) (k v : Ref) : Except Failure (List (Ref × Ref)) :=
  if g.hashable k then .ok (g.put k v es) else .error .unhashable

/-- The entries that a list of pairs makes, a later pair over an earlier one. -/
def bindAll (g : Graph) (pairs : List (Ref × Ref)) : Except Failure (List (Ref × Ref)) :=
  pairs.foldlM (fun es p => g.bind es p.1 p.2) []

end Graph

end NaturalDeduction

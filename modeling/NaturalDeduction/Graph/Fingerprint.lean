import NaturalDeduction.Graph.Equality

/-!
# Fingerprints

Values that may be keys are put into classes, and equal values fall into one class. A class
forgets the constructor: it depends on the classes of the parts in their order only, for an
environment on the set of its bindings. Numbers count modulo a Mersenne prime, texts and bytes by
their storage bytes.

* `Graph.fingerprint?`   a text that names the class of a value.
-/

namespace NaturalDeduction

namespace Fingerprint

def modulus : Nat := Nat.pow 2 61 - 1

/-- The class of a number: its residue with its sign; the class of -1 is that of -2. -/
def ofInt (n : Int) : String :=
  let m : Int := n.sign * (n.natAbs % modulus : Nat)
  let m := if m == -1 then -2 else m
  s!"i{m};"

/-- the `width` lowest bytes of a number, the lowest first -/
def littleEndian (width n : Nat) : List Nat :=
  (List.range width).map fun k => n / Nat.pow 256 k % 256

/-- The bytes that store a text: the same number for every character, as few as will do. -/
def storage (s : String) : List Nat :=
  let cs := s.toList.map Char.toNat
  let width := if cs.all (· < 0x100) then 1 else if cs.all (· < 0x10000) then 2 else 4
  cs.flatMap (littleEndian width)

/-- The class of bytes; no bytes count as zero. -/
def ofBytes (bs : List Nat) : String :=
  if bs.isEmpty then ofInt 0 else "b" ++ ",".intercalate (bs.map toString) ++ ";"

def ofParts (cs : List String) : String := "(" ++ String.join cs ++ ")"

/-- Sorted, and without the members that occur an even number of times. -/
def oddMembers (cs : List String) : List String :=
  (cs.mergeSort (· ≤ ·)).foldr (fun c r => if r.head? == some c then r.drop 1 else c :: r) []

def ofSet (cs : List String) : String :=
  s!"[{cs.length}:" ++ String.join (oddMembers cs) ++ "]"

def pairUp : List String → List String
  | a :: b :: r => ofParts [a, b] :: pairUp r
  | _ => []

end Fingerprint

open Fingerprint

def Atom.fingerprint : Atom → String
  | null => "n;"
  | number n => ofInt n
  | text s => ofBytes (storage s)
  | bytes bs => ofBytes (bs.map UInt8.toNat)
  | absent => ofBytes (storage "ABSENT")

namespace Graph

/-- The class of a value that holds no list. -/
def fingerprint (g : Graph) (r : Ref) : String :=
  match (g.get r).atom? with
  | some a => a.fingerprint
  | none =>
    if h : (g.get r).kind = .list then ""
    else
      let parts := (g.get r).refs.attach.map fun ⟨s, hs⟩ =>
        have : s < r := lt_of_mem_refs h hs
        g.fingerprint s
      if (g.get r).kind = .env then ofSet (pairUp parts) else ofParts parts
termination_by r

def fingerprint? (g : Graph) (r : Ref) : Except Failure String :=
  if g.hashable r then .ok (g.fingerprint r) else .error .unhashable

end Graph

end NaturalDeduction

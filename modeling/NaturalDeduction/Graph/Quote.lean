import NaturalDeduction.Graph.Equality
import NaturalDeduction.Text.Quoted

/-!
# Quoted values

* `Graph.quote`        a value written out: its constructor with the quoted values of its parts;
* `Graph.unwritten?`   what keeps a value from being written out;
* `Graph.quote?`       the quoted form of a value that can be written out.

A value that is met again inside itself is not written out a second time: three dots stand for it,
in the brackets of its kind.

Writing has two limits. A number is written with at most 4300 digits, and the values around the one
that is written take frames of a stack that has 1000 of them; those of a caller are not counted.
-/

namespace NaturalDeduction

/-- What stands for a value inside itself. -/
def Kind.ellipsis : Kind → String
  | .tuple => "(...)"
  | .list => "[...]"
  | .dict => "\x7b...\x7d"
  | _ => "..."

def commas (parts : List String) : String := ", ".intercalate parts

/-- Quoted elements as a tuple; a single one is followed by a comma. -/
def tupleText : List String → String
  | [x] => "(" ++ x ++ ",)"
  | xs => "(" ++ commas xs ++ ")"

def dictText (es : List (String × String)) : String :=
  "\x7b" ++ commas (es.map fun e => e.1 ++ ": " ++ e.2) ++ "\x7d"

namespace Graph

/-- The quoted form of a value inside the values `inside`, looked into to a depth of `levels`. -/
def quoteWithin (g : Graph) : (levels : Nat) → (inside : RefSet) → Ref → String
  | 0, _, r => (g.get r).kind.ellipsis
  | n + 1, inside, r =>
    if inside.contains r then (g.get r).kind.ellipsis
    else
      let sub := g.quoteWithin n (inside.insert r)
      match g.get r with
      | .null => "None"
      | .bool b => if b then "True" else "False"
      | .int n => n.repr
      | .text s => Text.quote s
      | .bytes bs => Text.quoteBytes bs
      | .absent => "ABSENT"
      | .rule R => "<Rule." ++ R.memberName ++ ": " ++ Text.quote R.tag ++ ">"
      | .tuple xs => tupleText (xs.map sub)
      | .list xs => "[" ++ commas (xs.map sub) ++ "]"
      | .dict es => dictText (es.map fun e => (sub e.1, sub e.2))
      | .env bs =>
        "Env(bindings=mappingproxy(" ++ dictText (bs.map fun e => (sub e.1, sub e.2)) ++ "))"
      | c => c.kind.name ++ "(" ++ commas (c.fields.map fun f => f.1.label ++ "=" ++ sub f.2) ++ ")"

/-- The quoted form of a value. Values inside each other are no more than the graph has cells. -/
def quote (g : Graph) (r : Ref) : String := g.quoteWithin (g.size + 1) {} r

end Graph

/-! ## limits -/

def digitLimit : Nat := 4300

/-- The least number with more than `k` digits. -/
def tenTo (k : Nat) : Nat := Nat.pow 10 k

/-- The frames that there are for a value and the values around it. -/
def frameLimit : Nat := 1000

/-- The frames that a value takes while it is written. -/
def Kind.frames : Kind → Nat
  | .null | .bool | .int | .text | .bytes | .tuple | .list | .dict => 1
  | .env => 5
  | _ => 3

theorem Kind.frames_pos (k : Kind) : 0 < k.frames := by cases k <;> decide

namespace Graph

/-- What keeps a value inside the values `inside` from being written out, with `frames` left. The
parts are written in order, so the first one that cannot be written decides. -/
def unwritten? (g : Graph) (frames : Nat) (inside : RefSet) (r : Ref) : Option Failure :=
  if frames < (g.get r).kind.frames then some .tooNested
  else if inside.contains r then none
  else
    match g.get r with
    | .int n => if tenTo digitLimit ≤ n.natAbs then some .tooLong else none
    | c => c.refs.findSome? fun s =>
      g.unwritten? (frames - (g.get r).kind.frames) (inside.insert r) s
termination_by frames
decreasing_by
  have := (g.get r).kind.frames_pos
  omega

/-- The quoted form of a value, if it can be written out. -/
def quote? (g : Graph) (r : Ref) : Except Failure String :=
  match g.unwritten? frameLimit {} r with
  | some f => .error f
  | none => .ok (g.quote r)

theorem quote?_eq_ok {g : Graph} {r : Ref} {s : String} (h : g.quote? r = .ok s) :
    s = g.quote r := by
  unfold quote? at h
  split at h
  · cases h
  · exact (Except.ok.inj h).symm

end Graph

end NaturalDeduction

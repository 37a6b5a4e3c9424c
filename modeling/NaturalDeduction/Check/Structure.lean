import NaturalDeduction.Check.Node
import NaturalDeduction.Graph.Grammar

/-!
# The shape of a derivation

Before any rule is checked, the derivation is walked from its root in pre-order. Every node must be
a derivation, must not lie below itself, must not lie too deep, must have a rule, a sequence of
premises and a well-formed recorded conclusion; the first node that fails is rejected.

A node that was passed below another parent is not walked again. Its height is known, and only the
depth can differ: `deepest` finds the place that a second walk would have come to.

* `Survey`         the heights of the nodes passed, and the memo of well-formed values;
* `Graph.survey`   the walk.
-/

namespace NaturalDeduction

inductive Stop where
  | reject (r : Reject)
  | failure (f : Failure)
  deriving DecidableEq, Repr

/-- The heights of nodes: the longest way down to a node without premises. -/
abbrev Heights := Std.TreeMap Ref Nat compare

structure Survey where
  heights : Heights
  memo : Memo

def misshapen (location : Location) (message : String) : Stop :=
  .reject ⟨.malformedProofStructure, location, none, message⟩

def notDerivation (location : Location) (k : Kind) : Stop :=
  misshapen location ("expected a derivation, got " ++ k.name)

/-- The rejection of a node that lies deeper than the limit that is written so. -/
def tooDeep (location : Location) (written : String) : Stop :=
  misshapen location ("derivation is deeper than " ++ written)

/-- The outcome for a node with something else in the place of its rule, given the quoted form of
that: the node is rejected, unless there is no such form. -/
def unknownRule (location : Location) : Except Failure String → Stop
  | .ok quoted => misshapen location ("unknown rule " ++ quoted)
  | .error f => .failure f

/-- The references in a sequence of premises: a tuple, a list or bytes. The numbers in bytes are not
among them. -/
def Cell.sequence? : Cell → Option (List Ref)
  | tuple ps => some ps
  | list ps => some ps
  | bytes _ => some []
  | _ => none

def Cell.holdsBytes : Cell → Bool
  | bytes bs => !bs.isEmpty
  | _ => false

namespace Graph

/-- The height of a node above premises of known heights. -/
def heightAbove (hs : Heights) : List Ref → Except Failure Nat
  | [] => .ok 0
  | p :: ps =>
    match hs[p]? with
    | some k => (heightAbove hs ps).map (max (k + 1))
    | none => .error .noHeight

/-- The first way in pre-order that leads `steps` levels down from `r`. -/
def deepest (g : Graph) (hs : Heights) : (steps : Nat) → Ref → Except Failure Location
  | 0, _ => .ok []
  | n + 1, r =>
    match (g.premisesOf r).zipIdx.find? fun p => hs[p.1]?.any (n ≤ ·) with
    | none => .error .noHeight
    | some (p, i) => (g.deepest hs n p).map (i :: ·)

/-- Walks the node at `r`. `path` leads to it from the root, the last index first, `above` are the
nodes on the way, and `levels` is how many more levels of nodes there may be; `written` is how
messages write the limit. -/
def survey (g : Graph) (written : String) (levels : Nat) (path : List Nat) (above : RefSet)
    (r : Ref) (s : Survey) : Except Stop Survey :=
  match g.get r with
  | .derivation R c p =>
    if above.contains r then .error (misshapen (.ofPath path) "derivation contains itself")
    else
      match s.heights[r]? with
      | some h =>
        if levels ≤ h then
          match g.deepest s.heights levels r with
          | .error f => .error (.failure f)
          | .ok below => .error (tooDeep (Location.ofPath path ++ below) written)
        else .ok s
      | none =>
        match levels with
        | 0 => .error (tooDeep (.ofPath path) written)
        | n + 1 =>
          match g.get R with
          | .rule rule =>
            match (g.get p).sequence? with
            | some ps =>
              match g.sequentOk s.memo c with
              | (false, _) =>
                .error (.reject ⟨.malformedInput, .ofPath path, some rule,
                  "recorded conclusion is not a well-formed sequent"⟩)
              | (true, memo) =>
                if (g.get p).holdsBytes then
                  .error (notDerivation (Location.ofPath path ++ [0]) .int)
                else do
                  let above := above.insert r
                  let s ← ps.zipIdx.foldlM
                    (fun s q => g.survey written n (q.2 :: path) above q.1 s) { s with memo }
                  match heightAbove s.heights ps with
                  | .error f => .error (.failure f)
                  | .ok h => .ok { s with heights := s.heights.insert r h }
            | none => .error (misshapen (.ofPath path) "premises must be a sequence of derivations")
          | _ => .error (unknownRule (.ofPath path) (g.quote? R))
  | c => .error (notDerivation (.ofPath path) c.kind)
termination_by structural levels

end Graph

end NaturalDeduction

import NaturalDeduction.Graph.Quote
import NaturalDeduction.Graph.Equality

/-!
# Making rules and environments out of values

* `Graph.rule?`       the rule that a value denotes: a rule, or the text of its tag;
* `Graph.elements`    the elements of a sequence, the letters of a text and the bytes of bytes as
                      new cells;
* `Graph.toEntries`   the entries that a value gives: a dictionary its own, any other sequence the
                      pairs that its elements are;
* `Graph.extend`      the bindings of an environment with one more;
* `Graph.holds`       whether a value is among the elements of a sequence, or among the keys.
-/

namespace NaturalDeduction

namespace Graph

/-- The rule that a value denotes. -/
def rule? (g : Graph) (r : Ref) : Except Failure Rule :=
  match (g.text? r).bind Rule.ofTag? with
  | some R => .ok R
  | none => do .error (.notRule (← g.quote? r))

def addAll (g : Graph) (cs : List Cell) : Graph × List Ref :=
  let step (s : Graph × List Ref) (c : Cell) : Graph × List Ref :=
    let (g, r) := s.1.add c
    (g, r :: s.2)
  let (g, rs) := cs.foldl step (g, [])
  (g, rs.reverse)

def elements (g : Graph) (r : Ref) : Except Failure (Graph × List Ref) :=
  match g.get r with
  | .tuple xs => .ok (g, xs)
  | .list xs => .ok (g, xs)
  | .dict es => .ok (g, es.map Prod.fst)
  | .env bs => .ok (g, bs.map Prod.fst)
  | .text s => .ok (g.addAll (s.toList.map fun c => .text (String.singleton c)))
  | .rule R => .ok (g.addAll (R.tag.toList.map fun c => .text (String.singleton c)))
  | .bytes bs => .ok (g.addAll (bs.map fun b => .int b.toNat))
  | _ => .error .notSequence

/-- Binds the pairs among `xs`, which are numbered from `index`, after the entries `es`. -/
def bindPairs (g : Graph) (es : List (Ref × Ref)) (index : Nat) :
    List Ref → Except Failure (Graph × List (Ref × Ref))
  | [] => .ok (g, es)
  | x :: xs => do
    match ← g.elements x with
    | (g, [k, v]) =>
      let es ← g.bind es k v
      g.bindPairs es (index + 1) xs
    | (_, ys) => .error (.entryLength index ys.length)

def toEntries (g : Graph) (r : Ref) : Except Failure (Graph × List (Ref × Ref)) :=
  match g.get r with
  | .dict es => .ok (g, es)
  | _ => do
    let (g, xs) ← g.elements r
    g.bindPairs [] 0 xs

/-- The bindings of the environment at `e`, with `x` bound to `a`. -/
def extend (g : Graph) (e x a : Ref) : Except Failure (List (Ref × Ref)) :=
  match g.get e with
  | .env bs => g.bind bs x a
  | .list _ => .error .listExtension
  | _ => .error .noPart

/-- Whether `xs` stands somewhere in a list, all in one piece. -/
def isPart {α : Type} [BEq α] (xs : List α) : List α → Bool
  | [] => xs.isEmpty
  | y :: ys => xs.isPrefixOf (y :: ys) || isPart xs ys

/-- Whether the value at `c` holds the one at `x`: as a key, as an element, or as a part of a text
or of bytes. -/
def holds (g : Graph) (c x : Ref) : Except Failure Bool :=
  match g.get c with
  | .env bs => (g.lookup bs x).map Option.isSome
  | .dict es => (g.lookup es x).map Option.isSome
  | .tuple ys => .ok (ys.any (g.equal x))
  | .list ys => .ok (ys.any (g.equal x))
  | .bytes bs =>
    match (g.get x).atom? with
    | some (.bytes cs) => .ok (isPart cs bs)
    | some (.number n) =>
      if 0 ≤ n ∧ n < 256 then .ok (bs.any fun b => (b.toNat : Int) == n) else .error .notByte
    | _ => .error .notSequence
  | _ =>
    match g.text? c, g.text? x with
    | some s, some t => .ok (isPart t.toList s.toList)
    | _, _ => .error .notSequence

end Graph

end NaturalDeduction

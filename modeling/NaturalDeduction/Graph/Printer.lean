import NaturalDeduction.Graph.Equality
import NaturalDeduction.Graph.Quote
import NaturalDeduction.Text.Slice

/-!
# Printing values

Types, terms, environments, sequents and derivations are printed in the syntax in which they are
read. Nothing is assumed of the values: a text stands for itself wherever it is met, and any other
value that is no type and no term is quoted.

A limit cuts the text of a value. It is looked at after each piece of the text, and what is printed
by then is cut to it by `Text.takeTo`, so a negative limit counts from the end of that.

* `Piece`, `Graph.pieces`   one constructor as literal text and parts;
* `Graph.emit`              printing into an `Output` that may be cut;
* `Graph.showValue`, `Graph.showEnv`, `Graph.showSequent`, `Graph.showDerivation`;
* `Graph.str`               a value as plain text.
-/

namespace NaturalDeduction

open Text

def ellipsis : String := "…"

def cutTo (limit : Int) (s : String) : String := String.ofList (takeTo s.toList limit)

/-- A text cut to a limit, and marked if it was longer. -/
def cut (limit : Option Int) (s : String) : String :=
  match limit with
  | none => s
  | some n => if s.length > n then cutTo n s ++ ellipsis else s

/-! ## output -/

structure Output where
  text : String
  size : Nat

inductive Halt where
  /-- the limit is passed; this is what remains -/
  | cut (text : String)
  | failure (f : Failure)

def Output.empty : Output := ⟨"", 0⟩

def Output.put (limit : Option Int) (o : Output) (s : String) : Except Halt Output :=
  let o : Output := ⟨o.text ++ s, o.size + s.length⟩
  match limit with
  | none => .ok o
  | some n => if o.size > n then .error (.cut (cutTo n o.text ++ ellipsis)) else .ok o

/-- Folds over the members of a list, up to the first error. -/
def foldMembers {α σ ε : Type} :
    (l : List α) → ((a : α) → a ∈ l → σ → Except ε σ) → σ → Except ε σ
  | [], _, s => .ok s
  | a :: l, f, s =>
    match f a List.mem_cons_self s with
    | .error e => .error e
    | .ok s => foldMembers l (fun b h => f b (List.mem_cons_of_mem a h)) s

/-! ## types and terms -/

/-- A part of the text of a value: literal text, or the text of a part. -/
inductive Piece where
  | lit (s : String)
  | part (r : Ref)
  deriving DecidableEq, Repr

namespace Graph

/-- The text of a variable or an atom `r` with name `n`. -/
def nameText (g : Graph) (r n : Ref) : String :=
  match g.text? n with
  | some s => s
  | none => g.quote r

/-- The pieces of a value; `str` is how the parameter of a lambda is written. -/
def pieces (g : Graph) (str : Ref → Except Failure String) (r : Ref) :
    Except Failure (List Piece) :=
  match g.get r with
  | .text s => .ok [.lit s]
  | .rule R => .ok [.lit R.tag]
  | .bottom => .ok [.lit "⊥"]
  | .base n => .ok [.lit (g.nameText r n)]
  | .var n => .ok [.lit (g.nameText r n)]
  | .arrow a b => .ok [.lit "(", .part a, .lit " -> ", .part b, .lit ")"]
  | .product a b => .ok [.lit "(", .part a, .lit " × ", .part b, .lit ")"]
  | .sum a b => .ok [.lit "(", .part a, .lit " + ", .part b, .lit ")"]
  | .pair a b => .ok [.lit "(cons ", .part a, .lit " ", .part b, .lit ")"]
  | .inl a => .ok [.lit "(inl ", .part a, .lit ")"]
  | .inr a => .ok [.lit "(inr ", .part a, .lit ")"]
  | .case a b c => .ok [.lit "(case ", .part a, .lit " ", .part b, .lit " ", .part c, .lit ")"]
  | .fst a => .ok [.lit "(car ", .part a, .lit ")"]
  | .snd a => .ok [.lit "(cdr ", .part a, .lit ")"]
  | .lambda x a b =>
    match str x with
    | .error f => .error f
    | .ok x => .ok [.lit ("(λ (" ++ x ++ " : "), .part a, .lit ") ", .part b, .lit ")"]
  | .abort a => .ok [.lit "(abort ", .part a, .lit ")"]
  | _ => .ok [.lit (g.quote r)]

/-- The parts among the pieces of a value come before it. -/
theorem lt_of_part_mem_pieces {g : Graph} {str : Ref → Except Failure String} {r s : Ref}
    {ps : List Piece} (h : g.pieces str r = .ok ps) (hs : Piece.part s ∈ ps) : s < r := by
  have hf := g.forall_fields_lt r
  unfold pieces at h
  split at h
  case h_15 x a b hc =>
    split at h
    · simp at h
    · obtain rfl : _ = ps := by simpa using h
      simp [hc, Cell.fields] at hf hs
      grind
  all_goals
    rename_i hc
    obtain rfl : _ = ps := by simpa using h
    simp [hc, Cell.fields] at hf hs
  all_goals grind

def emit (g : Graph) (str : Ref → Except Failure String) (limit : Option Int) (r : Ref)
    (o : Output) : Except Halt Output :=
  match h : g.pieces str r with
  | .error f => .error (.failure f)
  | .ok ps => foldMembers ps (fun p hp o =>
    match p with
    | .lit s => o.put limit s
    | .part s =>
      have : s < r := lt_of_part_mem_pieces h hp
      g.emit str limit s o) o
termination_by r

def emitPieces (g : Graph) (str : Ref → Except Failure String) (limit : Option Int)
    (ps : List Piece) (o : Output) : Except Halt Output :=
  ps.foldlM (fun o p =>
    match p with
    | .lit s => o.put limit s
    | .part s => g.emit str limit s o) o

/-- The text that is printed, cut or not. -/
def finish : Except Halt Output → Except Failure String
  | .ok o => .ok o.text
  | .error (.cut s) => .ok s
  | .error (.failure f) => .error f

def showWith (g : Graph) (str : Ref → Except Failure String) (limit : Option Int) (r : Ref) :
    Except Failure String := finish (g.emit str limit r .empty)

/-! ## environments -/

/-- The order of two names, to a depth of `levels`: numbers by size, texts and bytes by their
elements, tuples by the first place where they differ. -/
def compareNames (g : Graph) : (levels : Nat) → Ref → Ref → Option Ordering
  | 0, _, _ => none
  | n + 1, a, b =>
    match (g.get a).atom?, (g.get b).atom? with
    | some (.number x), some (.number y) => some (compare x y)
    | some (.text x), some (.text y) => some (compare x y)
    | some (.bytes x), some (.bytes y) => some (compare (x.map UInt8.toNat) (y.map UInt8.toNat))
    | _, _ =>
      match g.get a, g.get b with
      | .tuple xs, .tuple ys =>
        match (xs.zip ys).find? fun p => !g.equal p.1 p.2 with
        | some p => g.compareNames n p.1 p.2
        | none => some (compare xs.length ys.length)
      | _, _ => none

/-- Whether every two members of a list are related, the earlier to the later. -/
def allPairs {α : Type} (p : α → α → Bool) : List α → Bool
  | [] => true
  | a :: l => l.all (p a) && allPairs p l

/-- Entries in the order of their names. -/
def sortByName (g : Graph) (es : List (Ref × Ref)) : Except Failure (List (Ref × Ref)) :=
  let order (a b : Ref × Ref) := g.compareNames (g.size + 1) a.1 b.1
  if allPairs (fun a b => (order a b).isSome) es then
    .ok (es.mergeSort fun a b => order a b != some .gt)
  else .error .unordered

def showBindingsWith (g : Graph) (str : Ref → Except Failure String) (limit : Option Int)
    (es : List (Ref × Ref)) : Except Failure String := do
  let es ← g.sortByName es
  let parts ← es.mapM fun e => do
    let name ← str e.1
    let ty ← g.showWith str limit e.2
    return name ++ " : " ++ ty
  return "\x7b" ++ cut limit (commas parts) ++ "\x7d"

def showEnvWith (g : Graph) (str : Ref → Except Failure String) (limit : Option Int) (r : Ref) :
    Except Failure String :=
  match g.get r with
  | .env bs => g.showBindingsWith str limit bs
  | _ => .error .noPart

/-! ## sequents and derivations -/

def showSequentWith (g : Graph) (str : Ref → Except Failure String) (limit : Option Int)
    (r : Ref) : Except Failure String :=
  match g.get r with
  | .sequent e t a => do
    let env ← g.showEnvWith str limit e
    let term ← g.showWith str limit t
    let ty ← g.showWith str limit a
    return env ++ " ⊢ " ++ term ++ " : " ++ ty
  | _ => .error .noPart

/-- The premises of a derivation as values to be printed. A letter or a byte is no derivation. -/
def printedPremises (g : Graph) (r : Ref) : Except Failure (List Ref) :=
  match g.get r with
  | .tuple xs => .ok xs
  | .list xs => .ok xs
  | .dict es => .ok (es.map Prod.fst)
  | .text s => if s == "" then .ok [] else .error .noPart
  | .rule _ => .error .noPart
  | .bytes bs => if bs.isEmpty then .ok [] else .error .noPart
  | _ => .error .notSequence

/-- Two blanks for each level of indentation. -/
def indentation (level : Int) : String := String.ofList (List.replicate (2 * level.toNat) ' ')

/-- Prints a derivation after `acc`, one rule application a line. -/
def showTreeWith (g : Graph) (str : Ref → Except Failure String) :
    (levels : Nat) → (indent : Int) → Ref → (acc : String) → Except Failure String
  | 0, _, _, acc => .ok acc
  | n + 1, indent, r, acc =>
    match g.get r with
    | .derivation R c p => do
      let rule ← str R
      let sequent ← g.showSequentWith str none c
      let premises ← g.printedPremises p
      let acc := acc ++ indentation indent ++ "(" ++ rule ++ " " ++ sequent
      let acc ← premises.foldlM (fun acc q => g.showTreeWith str n (indent + 1) q (acc ++ "\n")) acc
      return acc ++ ")"
    | _ => .error .noPart

/-! ## plain text -/

/-- A value as plain text: a text itself, an environment, sequent or derivation as printed, and
any other value quoted. Values inside values are looked into to a depth of `levels`. -/
def strWithin (g : Graph) : (levels : Nat) → Ref → Except Failure String
  | 0, r => .ok (g.quote r)
  | n + 1, r =>
    match g.get r with
    | .text s => .ok s
    | .rule R => .ok R.tag
    | .absent => .ok "Absent.ABSENT"
    | .env bs => g.showBindingsWith (g.strWithin n) none bs
    | .sequent _ _ _ => g.showSequentWith (g.strWithin n) none r
    | .derivation _ _ _ => g.showTreeWith (g.strWithin n) (g.size + 1) 0 r ""
    | _ => .ok (g.quote r)

def str (g : Graph) (r : Ref) : Except Failure String := g.strWithin (g.size + 1) r

def showValue (g : Graph) (limit : Option Int) (r : Ref) : Except Failure String :=
  g.showWith g.str limit r

def showPieces (g : Graph) (limit : Option Int) (ps : List Piece) : Except Failure String :=
  finish (g.emitPieces g.str limit ps .empty)

def showBindings (g : Graph) (limit : Option Int) (es : List (Ref × Ref)) :
    Except Failure String := g.showBindingsWith g.str limit es

def showEnv (g : Graph) (limit : Option Int) (r : Ref) : Except Failure String :=
  g.showEnvWith g.str limit r

def showSequent (g : Graph) (limit : Option Int) (r : Ref) : Except Failure String :=
  g.showSequentWith g.str limit r

/-- The text of a derivation, indented by `indent` levels. A path of premises without a cycle is
no longer than the graph. -/
def showDerivation (g : Graph) (indent : Int) (r : Ref) : Except Failure String :=
  g.showTreeWith g.str (g.size + 1) indent r ""

end Graph

end NaturalDeduction

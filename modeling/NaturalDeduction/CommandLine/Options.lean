import NaturalDeduction.Text.Numeral

/-!
# Options of the command line

    PROOF [--goal SEQUENT] [--max-depth N] [--show] [-v | --verbose] [-h | --help]

Options and the name of the proof may come in any order, and the last of several equal options
counts. A long option may be cut to a beginning that no other has, and takes its value from the
next argument or after `=`; after `=`, two dashes stand for no value at all. Short options may be
run together, with or without a `=` after the first. After `--` no argument is an option. An
argument that starts with `-` is no option either if it is `-` alone, a negative number, or holds a
blank.

* `Options`         what a command line asks for;
* `Arg`, `Arg.ofString`   an argument by itself;
* `Options.parse`   the options that the arguments give, or why there are none.
-/

namespace NaturalDeduction.CommandLine

open Text

structure Options where
  /-- the file with the proof; `-` is standard input -/
  proof : String
  /-- the sequent to prove instead of the one that the proof records -/
  goal : Option String
  /-- the depth limit, unless it was given without a value -/
  maxDepth : Option Int
  /-- whether the proof is printed before it is checked -/
  echo : Bool
  verbose : Bool
  deriving DecidableEq, Repr

inductive NoRun where
  | help
  | misuse
  deriving DecidableEq, Repr

inductive Switch where
  | help
  | goal
  | maxDepth
  | echo
  | verbose
  deriving DecidableEq, Repr

namespace Switch

def names : List (String × Switch) :=
  [("-h", help), ("--help", help), ("--goal", goal), ("--max-depth", maxDepth), ("--show", echo),
   ("-v", verbose), ("--verbose", verbose)]

def ofName? (s : String) : Option Switch := names.lookup s

def takesValue : Switch → Bool
  | goal => true
  | maxDepth => true
  | _ => false

end Switch

/-! ## single arguments -/

/-- What is attached to the name of an option. -/
inductive Attached where
  | nothing
  | value (s : String)
  /-- letters right after a short option -/
  | letters (cs : List Char)
  deriving DecidableEq, Repr

/-- What a value after `=` is attached as: a value to a long option, and letters to a short one. -/
def Attached.ofValue (name value : List Char) : Attached :=
  if name.take 2 == ['-', '-'] || value.isEmpty then .value (String.ofList value)
  else .letters value

inductive Arg where
  | plain (s : String)
  /-- the mark after which no argument is an option -/
  | dashes
  | option (o : Switch) (a : Attached)
  /-- it looks like an option and is none -/
  | unknown
  deriving DecidableEq, Repr

/-- A text before its first `=`, and what follows that, if there is one. -/
def splitAtEquals (cs : List Char) : List Char × Option (List Char) :=
  match cs.dropWhile (· != '=') with
  | [] => (cs, none)
  | _ :: r => (cs.takeWhile (· != '='), some r)

/-- Whether a text is a negative number, in digits of any script, with or without a point; a line
feed at the end does not count. -/
def isNegativeNumber (cs : List Char) : Bool :=
  let isDigit (c : Char) := (digit? c).isSome
  match cs with
  | '-' :: r =>
    let r := if r.getLast? == some '\n' then r.dropLast else r
    (!r.isEmpty && r.all isDigit) ||
    match r.dropWhile isDigit with
    | '.' :: d => !d.isEmpty && d.all isDigit
    | _ => false
  | _ => false

/-- The options that an argument could be short for. -/
def candidates (cs : List Char) : List (Switch × Attached) :=
  match cs with
  | '-' :: '-' :: _ =>
    let (start, value) := splitAtEquals cs
    let attached := value.elim .nothing fun v => Attached.value (String.ofList v)
    Switch.names.filterMap fun (n, o) =>
      if start.isPrefixOf n.toList then some (o, attached) else none
  | _ =>
    Switch.names.filterMap fun (n, o) =>
      if n.toList == cs.take 2 then some (o, .letters (cs.drop 2)) else none

/-- What an argument is, before any `--`. -/
def Arg.ofString (s : String) : Except NoRun Arg :=
  let cs := s.toList
  if cs.head? != some '-' then .ok (.plain s)
  else
    match Switch.ofName? s with
    | some o => .ok (.option o .nothing)
    | none =>
      if cs.length == 1 then .ok (.plain s)
      else
        match splitAtEquals cs with
        | (name, value) =>
          match Switch.ofName? (String.ofList name), value with
          | some o, some v => .ok (.option o (.ofValue name v))
          | _, _ =>
            match candidates cs with
            | [(o, a)] => .ok (.option o a)
            | _ :: _ :: _ => .error .misuse
            | [] =>
              if isNegativeNumber cs || cs.contains ' ' then .ok (.plain s) else .ok .unknown

def Arg.ofStrings : List String → Except NoRun (List Arg)
  | [] => .ok []
  | s :: r =>
    if s == "--" then .ok (.dashes :: r.map .plain)
    else do
      let a ← Arg.ofString s
      let as ← Arg.ofStrings r
      return a :: as

/-! ## all arguments -/

/-- The options read so far; `extra` says that there was an argument too many. -/
structure Progress where
  proof : Option String
  goal : Option String
  maxDepth : Option Int
  echo : Bool
  verbose : Bool
  extra : Bool

def Progress.start : Progress := ⟨none, none, some 10000, false, false, false⟩

def Progress.flag (p : Progress) : Switch → Except NoRun Progress
  | .help => .error .help
  | .echo => .ok { p with echo := true }
  | .verbose => .ok { p with verbose := true }
  | _ => .error .misuse

def Progress.set (p : Progress) (v : String) : Switch → Except NoRun Progress
  | .goal => .ok { p with goal := some v }
  | .maxDepth =>
    match readInt? v with
    | some n => .ok { p with maxDepth := some n }
    | none => .error .misuse
  | _ => .error .misuse

def Progress.assign (p : Progress) (v : String) (o : Switch) : Except NoRun Progress :=
  if v == "--" then
    match o with
    | .goal => .ok { p with goal := none }
    | .maxDepth => .ok { p with maxDepth := none }
    | _ => .error .misuse
  else p.set v o

/-- The short options that a run of letters after `o` stands for. -/
def cluster (o : Switch) : List Char → Except NoRun (List Switch)
  | [] => .ok [o]
  | c :: cs =>
    match Switch.ofName? (String.ofList ['-', c]) with
    | none => .error .misuse
    | some o' => (cluster o' cs).map (o :: ·)

def Progress.take (p : Progress) : List Arg → Except NoRun Progress
  | [] => .ok p
  | .plain s :: .dashes :: r =>
    match p.proof with
    | none => { p with proof := some s }.take r
    | some _ => { p with extra := true }.take r
  | .plain s :: r =>
    match p.proof with
    | none => { p with proof := some s }.take r
    | some _ => { p with extra := true }.take r
  | .dashes :: .plain s :: r =>
    match p.proof with
    | none => { p with proof := some s }.take r
    | some _ => { p with extra := true }.take r
  | .dashes :: r => { p with extra := true }.take r
  | .unknown :: r => { p with extra := true }.take r
  | .option o .nothing :: .plain s :: r =>
    if o.takesValue then do (← p.set s o).take r
    else do (← p.flag o).take (.plain s :: r)
  | .option o .nothing :: r => do (← p.flag o).take r
  | .option o (.value v) :: r => do (← p.assign v o).take r
  | .option o (.letters cs) :: r => do
    let os ← cluster o cs
    let p ← os.foldlM Progress.flag p
    p.take r

def Options.parse (args : List String) : Except NoRun Options := do
  let as ← Arg.ofStrings args
  let p ← Progress.start.take as
  match p.proof, p.extra with
  | some proof, false => .ok ⟨proof, p.goal, p.maxDepth, p.echo, p.verbose⟩
  | _, _ => .error .misuse

end NaturalDeduction.CommandLine

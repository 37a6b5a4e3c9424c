import NaturalDeduction.Check.Basic
import NaturalDeduction.CommandLine.Files
import NaturalDeduction.CommandLine.Options
import NaturalDeduction.Graph.Embed
import NaturalDeduction.Source.Parser
import NaturalDeduction.Text.Newline

/-!
# Runs of the checker

A run reads a proof, and a goal if one is asked for, checks the one against the other and prints
the verdict. The exit status is 0 if the proof is accepted, 1 if it is rejected, and 2 if there is
nothing to check.

* `decode`    the text that bytes hold;
* `Outcome`   how a run ends;
* `runOn`     a run with given options on given bytes;
* `run`       a run with given arguments.
-/

namespace NaturalDeduction.CommandLine

open Source

/-- The text that bytes hold, with every line end as a line feed; none if they are not UTF-8. -/
def decode (bytes : ByteArray) : Option String :=
  (String.fromUTF8? bytes).map fun s => String.ofList (Text.unifyNewlines s.toList)

inductive Outcome where
  | done (status : Nat) (out err : String)
  /-- without a run, because of the arguments -/
  | noRun (why : NoRun)
  /-- before reading, because no file can have the name of the proof -/
  | misnamed
  /-- in the midst of reading, because the bytes hold no text -/
  | undecodable
  | failed (f : Failure)

def logLine (o : Options) (place message : String) : String :=
  if o.verbose then "DEBUG " ++ place ++ ": " ++ message ++ "\n" else ""

def logReader (o : Options) (kind : String) : String :=
  logLine o "ipl.surface.parse" ("building " ++ kind ++ " parser tables")

/-- The line about a text that cannot be read. -/
def syntaxLine (e : SyntaxError) (src : String) : String :=
  "syntax error: " ++ (e.diagnostic src).text ++ "\n"

/-- Checks a derivation against a goal, or against its own conclusion if there is none, and prints
the verdict; `err` is what the log holds already. -/
def report (o : Options) (limits : Limits) (d : Derivation) (goal : Option Sequent)
    (err : String) : Except Failure Outcome := do
  let (g, tree) := Graph.addDerivation d .empty
  let (g, goal) :=
    match goal, g.get tree with
    | some s, _ => Graph.addSequent s g
    | none, .derivation _ c _ => (g, c)
    | none, _ => (g, tree)
  let echo ← if o.echo then (g.showDerivation 0 tree).map (· ++ "\n") else .ok ""
  let err := err ++ logLine o "ipl.cli" ("checking against " ++ (← g.showSequent none goal))
  match g.judgement? goal with
  | none => .error .noPart
  | some target =>
    let verdict ← g.check limits tree target
    let out := echo ++ verdict.text ++ "\n"
    match verdict with
    | .accept => .ok (.done 0 out err)
    | .reject r =>
      .ok (.done 1 out (err ++ logLine o "ipl.kernel.check" ("rejected derivation: " ++ r.text)))

/-- The goal that is asked for; an empty one counts as none. -/
def Options.goalText? (o : Options) : Option String := o.goal.filter (· != "")

def runOnText (o : Options) (limits : Limits) (src : String) : Outcome :=
  let err := logReader o "derivation"
  match parseDerivation src with
  | .error e => .done 2 "" (err ++ syntaxLine e src)
  | .ok d =>
    let result :=
      match o.goalText? with
      | none => report o limits d none err
      | some text =>
        let err := err ++ logReader o "sequent"
        match parseSequent text with
        | .error e => .ok (.done 2 "" (err ++ syntaxLine e text))
        | .ok s => report o limits d (some s) err
    match result with
    | .ok outcome => outcome
    | .error f => .failed f

def runOn (o : Options) (input : Except ReadError ByteArray) : Outcome :=
  match o.maxDepth with
  | none => .failed .unordered
  | some n =>
    match Limits.ofInt n n.repr with
    | .error f => .done 2 "" ("error: " ++ f.message?.getD "" ++ "\n")
    | .ok limits =>
      match input with
      | .error .nullByte => .misnamed
      | .error e => .done 2 "" ("error: cannot read " ++ o.proof ++ ": " ++ e.message ++ "\n")
      | .ok bytes =>
        match decode bytes with
        | none => .undecodable
        | some src => runOnText o limits src

/-- A run with given arguments, where `read` reads files and `input` is standard input. -/
def run (read : String → Except ReadError ByteArray) (input : ByteArray) (args : List String) :
    Outcome :=
  match Options.parse args with
  | .error why => .noRun why
  | .ok o => runOn o (if o.proof == "-" then .ok input else read o.proof)

end NaturalDeduction.CommandLine

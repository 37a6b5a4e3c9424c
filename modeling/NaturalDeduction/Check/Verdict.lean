import NaturalDeduction.Graph.Equality
import NaturalDeduction.Graph.Quote

/-!
# Verdicts

* `Reason`, `Reject`   why a derivation is rejected, and where;
* `Verdict`            accepted, or rejected;
* `Limits`             how deep a derivation may be.
-/

namespace NaturalDeduction

inductive Reason where
  | ruleTermMismatch
  | ruleTypeMismatch
  | premiseConclusionMismatch
  | premiseInvalid
  | conclusionTargetMismatch
  | unboundVariable
  | malformedInput
  | malformedProofStructure
  deriving DecidableEq, Repr

namespace Reason

def all : List Reason :=
  [ruleTermMismatch, ruleTypeMismatch, premiseConclusionMismatch, premiseInvalid,
   conclusionTargetMismatch, unboundVariable, malformedInput, malformedProofStructure]

def tag : Reason → String
  | ruleTermMismatch => "rule-term-mismatch"
  | ruleTypeMismatch => "rule-type-mismatch"
  | premiseConclusionMismatch => "premise-conclusion-mismatch"
  | premiseInvalid => "premise-invalid"
  | conclusionTargetMismatch => "conclusion-target-mismatch"
  | unboundVariable => "unbound-variable"
  | malformedInput => "malformed-input"
  | malformedProofStructure => "malformed-proof-structure"

def ofTag? (s : String) : Option Reason := all.find? fun r => r.tag == s

end Reason

def Graph.reason? (g : Graph) (r : Ref) : Except Failure Reason :=
  match (g.text? r).bind Reason.ofTag? with
  | some reason => .ok reason
  | none => do .error (.notReason (← g.quote? r))

/-- Premise indices from the root of a derivation down to a node, counted from zero. A rejection
that no check has made may hold any indices. -/
abbrev Location := List Int

/-- The location of a node, given the way to it from the root with the last index first. -/
def Location.ofPath (path : List Nat) : Location := path.reverse.map Int.ofNat

/-- A rejection: why, at which node, by which rule, and what is wrong there. -/
structure Reject where
  reason : Reason
  location : Location
  rule : Option Rule
  message : String
  deriving DecidableEq, Repr

def Location.text (l : Location) : String :=
  if l.isEmpty then "root" else ".".intercalate (l.map Int.repr)

def Reject.text (r : Reject) : String :=
  let head := "Reject: " ++ r.reason.tag ++ " at " ++ Location.text r.location
  if r.message == "" then head else head ++ ": " ++ r.message

inductive Verdict where
  | accept
  | reject (r : Reject)
  deriving DecidableEq, Repr

def Verdict.text : Verdict → String
  | accept => "Accept"
  | reject r => r.text

structure Limits where
  /-- the most nodes on a path from the root -/
  maxDepth : Nat
  pos : 0 < maxDepth
  /-- how messages write `maxDepth` -/
  written : String := maxDepth.repr

def Limits.default : Limits where
  maxDepth := 10000
  pos := by decide

/-- Limits with the given depth, which must be positive, and which messages write as given. -/
def Limits.ofInt (n : Int) (written : String) : Except Failure Limits :=
  if h : 0 < n.toNat then .ok ⟨n.toNat, h, written⟩ else .error .notPositive

/-- The limits that a value gives: it must be a number, and messages quote it. -/
def Graph.limits? (g : Graph) (r : Ref) : Except Failure Limits :=
  match (g.get r).atom? with
  | some (.number n) => Limits.ofInt n (g.quote r)
  | _ => .error .unordered

end NaturalDeduction

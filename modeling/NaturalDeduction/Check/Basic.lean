import NaturalDeduction.Check.Structure

/-!
# Checking derivations

A derivation is checked against a target in four steps: the target must be well formed, the
derivation must have the shape of one (`Graph.survey`), every node must be an instance of its rule,
and the root must have recorded the target. The root is checked against the target, every other
node against the conclusion that it records itself, which its parent has looked at before. The
first failure in this order, and in pre-order within a step, is reported.

* `Graph.checkRules`   the rules, node by node; a shared node is checked once;
* `Graph.check`        a derivation against a target;
* `Graph.checkProof`   a derivation against its own recorded conclusion.
-/

namespace NaturalDeduction

/-- The place of a misfit in a message: at most twelve parts of the path to it. -/
def pathText (what : String) (p : Path) : String :=
  let labels := ".".intercalate ((p.take 12).map Field.label)
  let labels := if p.length > 12 then labels ++ ".…" else labels
  if labels == "" then what else labels

def malformedTarget (message : String) : Reject := ⟨.malformedInput, [], none, message⟩

namespace Graph

def checkTarget (g : Graph) (target : Judgement) : Except Reject Memo :=
  match g.envOk (some {}) target.env with
  | (false, _) => .error (malformedTarget "environment is malformed")
  | (true, m) =>
    match g.termFault m target.term with
    | (some p, _) => .error (malformedTarget ("term is malformed at " ++ pathText "term" p))
    | (none, m) =>
      match g.typeFault m target.ty with
      | (some p, _) => .error (malformedTarget ("type is malformed at " ++ pathText "type" p))
      | (none, m) => .ok m

/-- Checks that the node at `r` derives `goal`, and that the nodes below it derive what they
record, to a depth of `levels`; the nodes in `seen` are passed over. -/
def checkRules (g : Graph) : (levels : Nat) → (path : List Nat) → Ref → (goal : Judgement) →
    (seen : RefSet) → Except Stop RefSet
  | 0, _, _, _, seen => .ok seen
  | n + 1, path, r, goal, seen =>
    if seen.contains r then .ok seen
    else
      match g.ruleOf? r with
      | none => .error (.failure .noPart)
      | some R =>
        let ps := g.premisesOf r
        match g.checkNode R ps goal with
        | .error (.failure f) => .error (.failure f)
        | .error (.fault f) =>
          match f.reject g R ps (.ofPath path) with
          | .error f => .error (.failure f)
          | .ok r => .error (.reject r)
        | .ok () =>
          ps.zipIdx.foldlM (fun seen q =>
            match g.conclusion? q.1 with
            | none => .error (.failure .noPart)
            | some j => g.checkRules n (q.2 :: path) q.1 j seen) (seen.insert r)

def showJudgement (g : Graph) (j : Judgement) : Except Failure String := do
  let env ← g.showEnv shown j.env
  let term ← g.showValue shown j.term
  let ty ← g.showValue shown j.ty
  return env ++ " ⊢ " ++ term ++ " : " ++ ty

def checkConclusion (g : Graph) (tree : Ref) (target : Judgement) : Except Stop Unit :=
  match g.conclusion? tree with
  | none => .error (.failure .noPart)
  | some j =>
    if g.meets j ⟨.exactly target.env, target.term, .exactly target.ty⟩ then .ok ()
    else
      let message : Except Failure String := do
        return "tree concludes " ++ (← g.showJudgement j) ++ ", target is " ++
          (← g.showJudgement target)
      match message with
      | .error f => .error (.failure f)
      | .ok m => .error (.reject ⟨.conclusionTargetMismatch, [], g.ruleOf? tree, m⟩)

def checkSteps (g : Graph) (limits : Limits) (tree : Ref) (target : Judgement) :
    Except Stop Unit := do
  let memo ← (g.checkTarget target).mapError .reject
  let _ ← g.survey limits.written limits.maxDepth [] {} tree ⟨{}, memo⟩
  let _ ← g.checkRules limits.maxDepth [] tree target {}
  g.checkConclusion tree target

/-- The verdict on the derivation at `tree` for a target. -/
def check (g : Graph) (limits : Limits) (tree : Ref) (target : Judgement) :
    Except Failure Verdict :=
  match g.checkSteps limits tree target with
  | .ok () => .ok .accept
  | .error (.reject r) => .ok (.reject r)
  | .error (.failure f) => .error f

/-- The verdict on the derivation at `tree` for the conclusion that it records. -/
def checkProof (g : Graph) (limits : Limits) (tree : Ref) : Except Failure Verdict :=
  match g.conclusion? tree with
  | some j => g.check limits tree j
  | none => .ok (.reject ⟨.malformedProofStructure, [], none, "not a derivation"⟩)

end Graph

end NaturalDeduction

import NaturalDeduction.Check.Verdict
import NaturalDeduction.Graph.Printer
import NaturalDeduction.Graph.Same

/-!
# Single rule applications

A node is checked against a goal: its rule must fit the term and the type of the goal, and its
premises must have recorded exactly the sequents that the rule demands.

* `Judgement`      the parts of a sequent, by reference;
* `Demand`         what a rule asks of the conclusion of a premise;
* `RuleFault`      why a node does not derive its goal;
* `Graph.checkNode`   the nine rules;
* `RuleFault.message`  the wording of a fault.
-/

namespace NaturalDeduction

/-- The most characters of a value that a message quotes. -/
def shown : Option Int := some 120

structure Judgement where
  env : Ref
  term : Ref
  ty : Ref
  deriving DecidableEq, Repr

inductive TypeForm where
  | exactly (r : Ref)
  | arrow (dom cod : Ref)
  | bottom
  | any
  deriving DecidableEq, Repr

inductive EnvForm where
  | exactly (e : Ref)
  | bindings (bs : List (Ref × Ref))
  deriving DecidableEq, Repr

/-- What a rule asks of the conclusion of a premise. -/
structure Demand where
  env : EnvForm
  term : Ref
  ty : TypeForm
  deriving DecidableEq, Repr

inductive Side where
  | left
  | right
  deriving DecidableEq, Repr

inductive Expectation where
  | demand (d : Demand)
  | scrutinee
  /-- a conjunction with this type on this side -/
  | component (s : Side) (ty : Ref)
  deriving DecidableEq, Repr

inductive RuleFault where
  | term (got : Ref)
  | type (got : Ref)
  | arity (got : Nat)
  | unbound (name env : Ref)
  | assumption (name bound ty : Ref)
  /-- the parameter has another type than the function type says -/
  | parameter (name paramTy dom : Ref)
  /-- a premise has concluded something else -/
  | premise (index : Nat) (e : Expectation)
  deriving DecidableEq, Repr

inductive NodeStop where
  | fault (f : RuleFault)
  | failure (f : Failure)
  deriving DecidableEq, Repr

namespace Graph

def judgement? (g : Graph) (r : Ref) : Option Judgement :=
  match g.get r with
  | .sequent e t a => some ⟨e, t, a⟩
  | _ => none

def conclusion? (g : Graph) (r : Ref) : Option Judgement :=
  match g.get r with
  | .derivation _ c _ => g.judgement? c
  | _ => none

def ruleOf? (g : Graph) (r : Ref) : Option Rule :=
  match g.get r with
  | .derivation R _ _ =>
    match g.get R with
    | .rule R => some R
    | _ => none
  | _ => none

def premisesOf (g : Graph) (r : Ref) : List Ref :=
  match g.get r with
  | .derivation _ _ p => (g.get p).items
  | _ => []

def bindingsOf (g : Graph) (r : Ref) : List (Ref × Ref) := (g.get r).entries

def hasForm (g : Graph) (a : Ref) : TypeForm → Bool
  | .exactly b => g.same a b
  | .arrow c d =>
    match g.get a with
    | .arrow c' d' => g.same c' c && g.same d' d
    | _ => false
  | .bottom => g.get a == .bottom
  | .any => true

/-- Whether a type is a product with the type `a` on the side `s`. -/
def hasComponent (g : Graph) (ty : Ref) (s : Side) (a : Ref) : Bool :=
  match g.get ty, s with
  | .product b _, .left => g.same b a
  | .product _ c, .right => g.same c a
  | _, _ => false

def hasBindings (g : Graph) (e : Ref) : EnvForm → Bool
  | .exactly f => g.same e f
  | .bindings bs => g.sameBindings (g.bindingsOf e) bs

def meets (g : Graph) (j : Judgement) (d : Demand) : Bool :=
  g.hasBindings j.env d.env && g.same j.term d.term && g.hasForm j.ty d.ty

/-! ## the rules -/

def premise (g : Graph) (ps : List Ref) (i : Nat) : Except NodeStop Judgement :=
  match ps[i]? with
  | none => .error (.failure .noPremise)
  | some p =>
    match g.conclusion? p with
    | none => .error (.failure .noPart)
    | some j => .ok j

def expectArity (R : Rule) (ps : List Ref) : Except NodeStop Unit :=
  if ps.length = R.arity then .ok () else .error (.fault (.arity ps.length))

/-- Premise number `i` must conclude what is asked for; its type is returned. -/
def expectPremise (g : Graph) (ps : List Ref) (i : Nat) (d : Demand) : Except NodeStop Ref := do
  let j ← g.premise ps i
  if g.meets j d then .ok j.ty else .error (.fault (.premise i (.demand d)))

/-- The first premise must conclude a product with the type `a` on the side `s`. -/
def expectProjection (g : Graph) (ps : List Ref) (d : Demand) (s : Side) (a : Ref) :
    Except NodeStop Unit := do
  let ty ← g.expectPremise ps 0 d
  if g.hasComponent ty s a then .ok () else .error (.fault (.premise 0 (.component s a)))

/-- Checks that a node with rule `R` and premises `ps` derives `goal` from the conclusions that its
premises record. -/
def checkNode (g : Graph) (R : Rule) (ps : List Ref) (goal : Judgement) :
    Except NodeStop Unit :=
  let Γ := EnvForm.exactly goal.env
  match R with
  | .assm =>
    match g.get goal.term with
    | .var x => do
      expectArity R ps
      match ← (g.lookup (g.bindingsOf goal.env) x).mapError .failure with
      | none => .error (.fault (.unbound x goal.env))
      | some a =>
        if g.same a goal.ty then .ok () else .error (.fault (.assumption x a goal.ty))
    | _ => .error (.fault (.term goal.term))
  | .pairIntro =>
    match g.get goal.term, g.get goal.ty with
    | .pair t u, .product a b => do
      expectArity R ps
      let _ ← g.expectPremise ps 0 ⟨Γ, t, .exactly a⟩
      let _ ← g.expectPremise ps 1 ⟨Γ, u, .exactly b⟩
    | .pair _ _, _ => .error (.fault (.type goal.ty))
    | _, _ => .error (.fault (.term goal.term))
  | .inlIntro =>
    match g.get goal.term, g.get goal.ty with
    | .inl t, .sum a _ => do
      expectArity R ps
      let _ ← g.expectPremise ps 0 ⟨Γ, t, .exactly a⟩
    | .inl _, _ => .error (.fault (.type goal.ty))
    | _, _ => .error (.fault (.term goal.term))
  | .inrIntro =>
    match g.get goal.term, g.get goal.ty with
    | .inr t, .sum _ b => do
      expectArity R ps
      let _ ← g.expectPremise ps 0 ⟨Γ, t, .exactly b⟩
    | .inr _, _ => .error (.fault (.type goal.ty))
    | _, _ => .error (.fault (.term goal.term))
  | .caseElim =>
    match g.get goal.term with
    | .case t f h => do
      expectArity R ps
      let ty ← g.expectPremise ps 0 ⟨Γ, t, .any⟩
      match g.get ty with
      | .sum a b =>
        let _ ← g.expectPremise ps 1 ⟨Γ, f, .arrow a goal.ty⟩
        let _ ← g.expectPremise ps 2 ⟨Γ, h, .arrow b goal.ty⟩
      | _ => .error (.fault (.premise 0 .scrutinee))
    | _ => .error (.fault (.term goal.term))
  | .fstElim =>
    match g.get goal.term with
    | .fst t => do
      expectArity R ps
      g.expectProjection ps ⟨Γ, t, .any⟩ .left goal.ty
    | _ => .error (.fault (.term goal.term))
  | .sndElim =>
    match g.get goal.term with
    | .snd t => do
      expectArity R ps
      g.expectProjection ps ⟨Γ, t, .any⟩ .right goal.ty
    | _ => .error (.fault (.term goal.term))
  | .lambdaIntro =>
    match g.get goal.term, g.get goal.ty with
    | .lambda x a t, .arrow b c => do
      if g.same a b then
        expectArity R ps
        let Δ ← (g.bind (g.bindingsOf goal.env) x b).mapError .failure
        let _ ← g.expectPremise ps 0 ⟨.bindings Δ, t, .exactly c⟩
      else .error (.fault (.parameter x a b))
    | .lambda _ _ _, _ => .error (.fault (.type goal.ty))
    | _, _ => .error (.fault (.term goal.term))
  | .bottomElim =>
    match g.get goal.term with
    | .abort t => do
      expectArity R ps
      let _ ← g.expectPremise ps 0 ⟨Γ, t, .bottom⟩
    | _ => .error (.fault (.term goal.term))

end Graph

/-! ## wording -/

/-- What the term of a rule's conclusion must be. -/
def Rule.termShape : Rule → String
  | assm => "a variable"
  | pairIntro => "a pair"
  | inlIntro => "a left injection"
  | inrIntro => "a right injection"
  | caseElim => "a case analysis"
  | fstElim => "a left projection"
  | sndElim => "a right projection"
  | lambdaIntro => "a lambda"
  | bottomElim => "an abort"

def Rule.typeShape : Rule → String
  | pairIntro => "a product type"
  | inlIntro => "a sum type"
  | inrIntro => "a sum type"
  | lambdaIntro => "a function type"
  | _ => "a type"

def Side.name : Side → String
  | left => "left"
  | right => "right"

def TypeForm.pieces : TypeForm → List Piece
  | exactly r => [.part r]
  | arrow a b => [.lit "(", .part a, .lit " -> ", .part b, .lit ")"]
  | bottom => [.lit "⊥"]
  | any => [.lit "_"]

def EnvForm.text (g : Graph) : EnvForm → Except Failure String
  | exactly e => g.showEnv shown e
  | bindings bs => g.showBindings shown bs

def Demand.text (g : Graph) (d : Demand) : Except Failure String := do
  let env ← d.env.text g
  let term ← g.showValue shown d.term
  let ty ← g.showPieces shown d.ty.pieces
  return env ++ " ⊢ " ++ term ++ " : " ++ ty

def Expectation.text (g : Graph) : Expectation → Except Failure String
  | demand d => d.text g
  | scrutinee => .ok "a sum type for the scrutinee"
  | component s a => do
    let ty ← g.showValue shown a
    return "a product type whose " ++ s.name ++ " component is " ++ ty

def Graph.showPremise (g : Graph) (ps : List Ref) (i : Nat) : Except Failure String :=
  match ps[i]? with
  | none => .error .noPremise
  | some p =>
    match g.get p with
    | .derivation _ c _ => g.showSequent shown c
    | _ => .error .noPart

namespace RuleFault

def reason : RuleFault → Reason
  | term _ => .ruleTermMismatch
  | type _ => .ruleTypeMismatch
  | arity _ => .premiseInvalid
  | unbound _ _ => .unboundVariable
  | assumption _ _ _ => .ruleTypeMismatch
  | parameter _ _ _ => .ruleTypeMismatch
  | premise _ _ => .premiseConclusionMismatch

def message (g : Graph) (R : Rule) (ps : List Ref) : RuleFault → Except Failure String
  | term t => do
    return R.tag ++ " needs " ++ R.termShape ++ ", got " ++ (← g.showValue shown t)
  | type a => do
    return R.tag ++ " needs " ++ R.typeShape ++ ", got " ++ (← g.showValue shown a)
  | arity n =>
    .ok (R.tag ++ " takes " ++ R.arity.repr ++ " premise(s), got " ++ n.repr)
  | unbound x e => do
    return (← g.str x) ++ " is not bound in " ++ (← g.showEnv shown e)
  | assumption x a b => do
    return (← g.str x) ++ " has type " ++ (← g.showValue shown a) ++ ", not " ++
      (← g.showValue shown b)
  | parameter x a b => do
    let a ← g.showValue shown a
    return "parameter " ++ (← g.str x) ++ " has type " ++ a ++
      " but the function type expects " ++ (← g.showValue shown b)
  | premise i e => do
    let got ← g.showPremise ps i
    return "premise " ++ i.repr ++ " concludes " ++ got ++ ", expected " ++ (← e.text g)

/-- The rejection of the node at `path`: at the premise that is at fault, if one is. -/
def reject (g : Graph) (R : Rule) (ps : List Ref) (path : Location) (f : RuleFault) :
    Except Failure Reject := do
  let message ← f.message g R ps
  match f with
  | premise i _ =>
    match ps[i]? with
    | none => .error .noPremise
    | some p => .ok ⟨f.reason, path ++ [(i : Int)], g.ruleOf? p, message⟩
  | _ => .ok ⟨f.reason, path, some R, message⟩

end RuleFault

end NaturalDeduction

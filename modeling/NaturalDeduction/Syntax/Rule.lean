/-!
# Inference rules

* `Rule`          the nine rules of the calculus;
* `Rule.tag`      the word that names a rule in a written derivation;
* `Rule.ofTag?`   the rule a word names;
* `Rule.arity`    the number of premises of a rule.
-/

namespace NaturalDeduction

inductive Rule where
  | assm
  | pairIntro
  | inlIntro
  | inrIntro
  | caseElim
  | fstElim
  | sndElim
  | lambdaIntro
  | bottomElim
  deriving DecidableEq, Repr

namespace Rule

/-- every rule, in the order of the rule table -/
def all : List Rule :=
  [assm, pairIntro, inlIntro, inrIntro, caseElim, fstElim, sndElim, lambdaIntro, bottomElim]

def tag : Rule → String
  | assm => "Assm"
  | pairIntro => "PairIntro"
  | inlIntro => "InLIntro"
  | inrIntro => "InRIntro"
  | caseElim => "CaseElim"
  | fstElim => "FstElim"
  | sndElim => "SndElim"
  | lambdaIntro => "LambdaIntro"
  | bottomElim => "BottomElim"

/-- The name of the rule in the quoted form of a value. -/
def memberName : Rule → String
  | assm => "ASSM"
  | pairIntro => "PAIR_INTRO"
  | inlIntro => "INL_INTRO"
  | inrIntro => "INR_INTRO"
  | caseElim => "CASE_ELIM"
  | fstElim => "FST_ELIM"
  | sndElim => "SND_ELIM"
  | lambdaIntro => "LAMBDA_INTRO"
  | bottomElim => "BOTTOM_ELIM"

def ofTag? (s : String) : Option Rule := all.find? fun r => r.tag == s

def arity : Rule → Nat
  | assm => 0
  | pairIntro => 2
  | caseElim => 3
  | _ => 1

theorem ofTag?_tag (r : Rule) : ofTag? r.tag = some r := by cases r <;> decide

theorem tag_of_ofTag? {s : String} {r : Rule} (h : ofTag? s = some r) : r.tag = s := by
  simpa using List.find?_some h

end Rule

end NaturalDeduction

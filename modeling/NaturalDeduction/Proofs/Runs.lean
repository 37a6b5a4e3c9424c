import NaturalDeduction.CommandLine.Run
import NaturalDeduction.Proofs.Embedding
import NaturalDeduction.Proofs.Lines

/-!
# What a run says about a proof

A run reads a derivation and a goal, adds both to a graph and checks the one against the other
there. The verdict that it prints is that of the rules for types and terms as they are written.

* `misshapen_of_plainSurvey`   a walk over well-formed nodes fails only because of their places;
* `IsDerivation.check_eq_accept_iff`, `IsDerivation.reason_of_check`   the verdict on a derivation
                     that was added to a graph;
* `RightVerdict`     the verdict that the rule table and the height of a derivation give;
* `report_spec`      printing and checking what was read;
* `runOnText_lines`  the verdict is the last line that is printed;
* `run_verdict`      a run from its arguments to its exit status.
-/

namespace NaturalDeduction

/-! ## verdicts -/

namespace Graph
variable {g : Graph} {tree : Ref} {target : Judgement} {r : Reject}

/-- Where every node has a rule, premises and a well-formed conclusion, a walk ends early only
because a node lies too deep or below itself. -/
theorem misshapen_of_plainSurvey
    (hn : ∀ x, g.Below tree x → ∃ R j ps, g.IsNode x R j ps ∧ g.WellStated j) {written : String}
    {n : Nat} : ∀ {path : List Nat} {above : List Ref} {x : Ref} {e : Stop}, g.Below tree x →
      g.plainSurvey written n path above x = .error e → ∃ l m, e = misshapen l m := by
  induction n with
  | zero =>
    intro path above x e _ h
    unfold plainSurvey at h
    split at h
    case h_1 =>
      split at h
      case isTrue => exact ⟨_, _, (Except.error.inj h).symm⟩
      case isFalse => exact ⟨_, _, (Except.error.inj h).symm⟩
    case h_2 => exact ⟨_, _, (Except.error.inj h).symm⟩
  | succ n ih =>
    intro path above x e hx h
    obtain ⟨R, j, ps, hnode, hj⟩ := hn x hx
    by_cases ha : x ∈ above
    · unfold plainSurvey at h
      split at h
      case h_1 =>
        rw [if_pos ha] at h
        exact ⟨_, _, (Except.error.inj h).symm⟩
      case h_2 => exact ⟨_, _, (Except.error.inj h).symm⟩
    · rw [plainSurvey_node hnode hj ha] at h
      obtain ⟨hok, -⟩ | ⟨i, p, e', hp, he', hall, -⟩ := forM_zipIdx_cases
        (fun q : Ref × Nat => g.plainSurvey written n (q.2 :: path) (x :: above) q.1) ps 0
      · rw [hok] at h
        cases h
      · obtain rfl : e' = e := Except.error.inj (hall.symm.trans h)
        refine ih (hx.tail ?_) he'
        rw [hnode.premisesOf]
        exact List.mem_of_getElem? hp

section
variable {limits : Limits} {d : Derivation} {q : Sequent} (htree : g.IsDerivation tree d)
  (hd : d.Named)
include htree hd

theorem IsDerivation.apt {x : Ref} (hx : g.Below tree x) {j : Judgement}
    (hj : g.conclusion? x = some j) : g.Apt j := by
  obtain ⟨R, i, ps, hnode, hi⟩ := htree.wellStated hd hx
  obtain rfl := hnode.eq_of_conclusion hj
  exact hi.apt

/-- The nodes of a correct derivation pass for every goal that stands for what they record. -/
theorem IsDerivation.passes (hc : d.Correct) {x : Ref} (hx : g.Below tree x) {j goal : Judgement}
    (hj : g.conclusion? x = some j) (hgoal : g.Apt goal)
    (heq : g.statement j = g.statement goal) : g.Passes x goal := by
  obtain ⟨R, i, ps, hnode, hfit⟩ := (htree.fits_iff hd).mpr hc x hx
  obtain rfl := hnode.eq_of_conclusion hj
  refine hnode.passes hfit hgoal (fun p hp i hi => ?_) heq
  exact htree.apt hd (hx.tail (hnode.premisesOf ▸ hp)) hi

variable (ht : g.WellStated target)
include ht

theorem IsDerivation.grammatical : g.Grammatical tree target :=
  grammatical_of_nodes ht fun _ hx => htree.wellStated hd hx

/-- A derivation that is too high has its depth as the reason. -/
theorem IsDerivation.check_high (hh : limits.maxDepth < d.height) :
    ∃ r, g.check limits tree target = .ok (.reject r) ∧ r.reason = .malformedProofStructure := by
  obtain ⟨memo, hm⟩ := exists_checkTarget ht
  have heq := map_survey_of_rolesApart limits (htree.grammatical hd ht).rolesApart hm
  obtain ⟨s, hs, -⟩ | ⟨e, he, hwalk⟩ := map_unit_eq.mp heq
  · -- a survey that passes has seen no way that is too long
    have hshallow := (htree.shallow_iff hd).mp (looseIn_of_survey hm hs).1
    omega
  · obtain ⟨l, m, rfl⟩ := misshapen_of_plainSurvey (fun x hx => htree.wellStated hd hx) .refl hwalk
    refine ⟨⟨.malformedProofStructure, l, none, m⟩, ?_, rfl⟩
    have hsteps : g.checkSteps limits tree target = .error (misshapen l m) := by
      rw [checkSteps, hm]
      show (g.survey _ _ _ _ _ _ >>= fun _ => _) = _
      rw [he]
      rfl
    rw [check, hsteps]
    rfl

/-- **Why a derivation is rejected**: its height, or a rule. -/
theorem IsDerivation.reason_of_check (h : g.check limits tree target = .ok (.reject r)) :
    r.reason ≠ .malformedInput ∧
      (r.reason = .malformedProofStructure ↔ limits.maxDepth < d.height) := by
  by_cases hh : limits.maxDepth < d.height
  · obtain ⟨r', h', hr'⟩ : ∃ r', g.check limits tree target = .ok (.reject r') ∧ _ :=
      htree.check_high hd ht hh
    obtain rfl : r = r' := by simpa using h.symm.trans h'
    refine ⟨?_, iff_of_true hr' hh⟩
    rw [hr']
    exact nofun
  · suffices hr : ¬ r.reason.IsFormal from
      ⟨fun e => hr (.inl e), iff_of_false (fun e => hr (.inr e)) hh⟩
    obtain ⟨memo, hm⟩ := exists_checkTarget ht
    obtain ⟨s, hs⟩ := exists_survey limits (htree.grammatical hd ht)
      (fun x hx => htree.wellStated hd hx) ((htree.shallow_iff hd).mpr (Nat.le_of_not_lt hh)) hm
    obtain hm' | ⟨memo', hm', hs' | ⟨s', hs', hrules | ⟨-, hend⟩⟩⟩ := reject_cases h
    · exact absurd (hm.symm.trans hm') nofun
    · obtain rfl := Except.ok.inj (hm.symm.trans hm')
      exact absurd (hs.symm.trans hs') nofun
    · have hruns := runsTo_of_survey hm' hs'
      rw [hrules] at hruns
      exact not_isFormal_of_runsTo hruns
    · exact not_isFormal_of_checkConclusion hend

/-- **A derivation is accepted for a sequent exactly if it proves it** and is not too high. -/
theorem IsDerivation.check_eq_accept_iff (hq : g.statement target = q.assertion.statement) :
    g.check limits tree target = .ok .accept ↔ d.Proves q ∧ d.height ≤ limits.maxDepth := by
  constructor
  · intro h
    have hheight := (htree.shallow_iff hd).mp (looseIn_of_accept h).1
    have hcorrect := (htree.fits_iff hd).mp fun x hx => fits_of_accept h hx
    obtain ⟨memo, s, seen, -, -, -, hend⟩ := check_eq_accept.mp h
    obtain ⟨j, hj, hsame⟩ := checkConclusion_eq_ok_iff.mp hend
    have hst := (statement_eq_iff (htree.apt hd .refl hj) ht.apt).mpr hsame
    have hroot := (htree.records_iff hd).mp ⟨j, hj, hst⟩
    exact ⟨⟨hcorrect, Assertion.statement_injective (hroot.symm.trans hq)⟩, hheight⟩
  · rintro ⟨⟨hcorrect, hconcl⟩, hheight⟩
    obtain ⟨j, hj, hst⟩ : g.Records tree (g.statement target) := by
      rw [htree.records_iff hd, hq, hconcl]
    apply check_of_passes limits ht
    · intro x hx
      obtain ⟨R, i, ps, hnode, hi⟩ := htree.wellStated hd hx
      have hpass := htree.passes hd hcorrect hx hnode.conclusion hi.apt rfl
      exact ⟨R, i, ps, hnode, hi, hpass⟩
    · exact (htree.shallow_iff hd).mpr hheight
    · exact htree.passes hd hcorrect .refl hj ht.apt hst
    · have hsame := (statement_eq_iff (htree.apt hd .refl hj) ht.apt).mp hst
      exact checkConclusion_eq_ok_iff.mpr ⟨j, hj, hsame⟩

end

/-- A derivation can be printed. -/
theorem IsDerivation.exists_showTree {n : Nat} :
    ∀ {x : Ref} {d : Derivation} (indent : Int) (acc : String), g.IsDerivation x d → d.Named →
      ∃ s, g.showTreeWith g.str n indent x acc = .ok s := by
  induction n with
  | zero => exact fun _ acc _ _ => ⟨acc, rfl⟩
  | succ n ih =>
    intro x d indent acc h hd
    cases h with
    | @node _ tag c p R q ps ds hget hR hc hp hps =>
      cases hd with
      | node hq hds =>
        have htag : g.str tag = .ok R.tag := str_of_text? (by rw [text?, hR]; rfl)
        have hpremises : g.printedPremises p = .ok ps := by rw [printedPremises, hp]
        obtain ⟨j, hj, hw, -⟩ := hc.spec hq
        obtain ⟨s, hs⟩ := exists_showSequent none hj hw.apt
        have hs : g.showSequentWith g.str none c = .ok s := hs
        have hstep : ∀ q ∈ ps, ∀ acc,
            ∃ s, g.showTreeWith g.str n (indent + 1) q (acc ++ "\n") = .ok s := by
          intro q hq acc
          obtain ⟨e, he, hqe⟩ := exists_mem_of_forall₂ hps q hq
          exact ih (indent + 1) (acc ++ "\n") hqe (hds e he)
        obtain ⟨t, ht⟩ := exists_foldlM_ok hstep
          (acc ++ indentation indent ++ "(" ++ R.tag ++ " " ++ s)
        refine ⟨t ++ ")", ?_⟩
        rw [showTreeWith, hget]
        simp only [htag, hs, hpremises, ht, ok_bind]
        rfl

end Graph

/-- The exit status for a verdict. -/
def Verdict.status : Verdict → Nat
  | accept => 0
  | reject _ => 1

namespace CommandLine
open Source

/-- What a run prints before it checks a derivation. -/
def echoed (o : Options) (g : Graph) (tree : Ref) : Except Failure String :=
  if o.echo then (g.showDerivation 0 tree).map (· ++ "\n") else .ok ""

/-- What a run does with a derivation and a goal in a graph, after it has printed `echo`. -/
def conclude (o : Options) (limits : Limits) (g : Graph) (tree goal : Ref) (err echo : String) :
    Except Failure Outcome := do
  let err := err ++ logLine o "ipl.cli" ("checking against " ++ (← g.showSequent none goal))
  match g.judgement? goal with
  | none => .error .noPart
  | some target =>
    let verdict ← g.check limits tree target
    let out := echo ++ verdict.text ++ "\n"
    match verdict with
    | .accept => .ok (.done 0 out err)
    | .reject r =>
      .ok (.done 1 out (err ++ logLine o "ipl.kernel.check" ("rejected derivation: " ++ r.text)))

/-- The goal of a run stands in a graph together with the derivation, and the names in the graph are
those of the two. -/
theorem report_eq (o : Options) (limits : Limits) {d : Derivation} {goal : Option Sequent}
    (hd : ∀ x ∈ d.names, isPlain x = true)
    (hgoal : ∀ x ∈ (goal.getD d.conclusion).names, isPlain x = true) (err : String) :
    ∃ (g : Graph) (tree c : Ref), g.IsDerivation tree d ∧
      g.IsSequent c (goal.getD d.conclusion) ∧ g.Unbroken ∧
      report o limits d goal err = echoed o g tree >>= conclude o limits g tree c err := by
  obtain ⟨-, htree⟩ := Graph.addDerivation_spec d .empty
  have hg := Graph.unbroken_addDerivation d (fun x hx => Graph.oneLine_of_isPlain (hd x hx))
    Graph.unbroken_empty
  cases goal with
  | some q =>
    obtain ⟨hp, hq⟩ := Graph.addSequent_spec q (Graph.addDerivation d .empty).1
    have hg := Graph.unbroken_addSequent (fun x hx => Graph.oneLine_of_isPlain (hgoal x hx)) hg
    refine ⟨_, _, _, hp.isDerivation d htree, hq, hg, ?_⟩
    unfold report echoed
    cases o.echo <;> rfl
  | none =>
    cases htree with
    | @node _ tag c p R q ps ds hget hR hc hp hps =>
      refine ⟨_, _, c, .node hget hR hc hp hps, hc, hg, ?_⟩
      unfold report echoed
      simp only [hget]
      cases o.echo <;> rfl

/-- What is printed ends with a line. -/
def WholeLines (s : String) : Prop := s = "" ∨ ∃ t, s = t ++ "\n"

theorem exists_echoed (o : Options) {g : Graph} {tree : Ref} {d : Derivation}
    (htree : g.IsDerivation tree d) (hd : d.Named) :
    ∃ echo, echoed o g tree = .ok echo ∧ WholeLines echo ∧ (o.echo = false → echo = "") := by
  unfold echoed
  cases o.echo with
  | false => exact ⟨"", rfl, .inl rfl, fun _ => rfl⟩
  | true =>
    obtain ⟨s, hs⟩ := Graph.IsDerivation.exists_showTree (n := g.size + 1) 0 "" htree hd
    refine ⟨s ++ "\n", ?_, .inr ⟨s, rfl⟩, nofun⟩
    rw [if_pos rfl, Graph.showDerivation, hs]
    rfl

theorem conclude_of_check {o : Options} {limits : Limits} {g : Graph} {tree c : Ref}
    {target : Judgement} {line : String} {v : Verdict} (hc : g.judgement? c = some target)
    (hline : g.showSequent none c = .ok line) (hv : g.check limits tree target = .ok v)
    (err echo : String) :
    ∃ err', conclude o limits g tree c err echo =
      .ok (.done v.status (echo ++ v.text ++ "\n") err') := by
  unfold conclude
  rw [hline, ok_bind, hc]
  simp only [hv, ok_bind]
  cases v with
  | accept => exact ⟨_, rfl⟩
  | reject r => exact ⟨_, rfl⟩

/-- The verdict on a derivation `d` for a sequent `q` is right, where `n` levels of nodes are looked
at: a proof of `q` is accepted unless it is too high; a rejection never blames a sequent for its form,
and blames the shape of the derivation exactly if it is too high. -/
structure RightVerdict (v : Verdict) (d : Derivation) (q : Sequent) (n : Nat) : Prop where
  accept_iff : v = .accept ↔ d.Proves q ∧ d.height ≤ n
  wellFormed : ∀ r, v = .reject r → r.reason ≠ .malformedInput
  shape_iff : ∀ r, v = .reject r → (r.reason = .malformedProofStructure ↔ n < d.height)

/-- A run over a derivation ends with the right verdict, on a line of its own. -/
theorem report_spec (o : Options) (limits : Limits) {d : Derivation}
    (hd : ∀ x ∈ d.names, isPlain x = true) (goal : Option Sequent)
    (hgoal : ∀ x ∈ (goal.getD d.conclusion).names, isPlain x = true) (err : String) :
    ∃ (v : Verdict) (echo err' : String),
      report o limits d goal err = .ok (.done v.status (echo ++ v.text ++ "\n") err') ∧
      WholeLines echo ∧ (OneLine limits.written → OneLine v.text) ∧ (o.echo = false → echo = "") ∧
      RightVerdict v d (goal.getD d.conclusion) limits.maxDepth := by
  obtain ⟨g, tree, c, htree, hc, hg, hreport⟩ := report_eq o limits hd hgoal err
  have hd : d.Named := Derivation.named_of_isPlain hd
  have hgoal : (goal.getD d.conclusion).Named := Sequent.named_of_isPlain hgoal
  obtain ⟨target, htarget, hwell, hst⟩ := hc.spec hgoal
  obtain ⟨v, hv⟩ := Graph.exists_check limits target fun x hx _ => by
    obtain ⟨R, j, ps, hnode, -⟩ := htree.wellStated hd hx
    exact ⟨R, hnode.rule⟩
  obtain ⟨line, hline⟩ := Graph.exists_showSequent none htarget hwell.apt
  obtain ⟨echo, hecho, hlines, hquiet⟩ := exists_echoed o htree hd
  obtain ⟨err', hend⟩ := conclude_of_check (o := o) htarget hline hv err echo
  refine ⟨v, echo, err', ?_, hlines, fun hw => Graph.oneLine_of_check hg hw hv, hquiet, ?_, ?_,
    ?_⟩
  · rw [hreport, hecho, ok_bind, hend]
  · rw [← htree.check_eq_accept_iff hd hwell hst, hv, Except.ok.injEq]
  · rintro r rfl
    exact (htree.reason_of_check hd hwell hv).1
  · rintro r rfl
    exact (htree.reason_of_check hd hwell hv).2

/-- The sequent that a run is asked for, if its proof is read as the derivation `d`. -/
def Options.Asks (o : Options) (d : Derivation) (q : Sequent) : Prop :=
  match o.goalText? with
  | none => q = d.conclusion
  | some text => parseSequent text = .ok q

theorem runOnText_lines {o : Options} (limits : Limits) {src : String} {d : Derivation} {q : Sequent}
    (hd : parseDerivation src = .ok d) (hq : o.Asks d q) :
    ∃ (v : Verdict) (echo err : String),
      runOnText o limits src = .done v.status (echo ++ v.text ++ "\n") err ∧
      WholeLines echo ∧ (OneLine limits.written → OneLine v.text) ∧ (o.echo = false → echo = "") ∧
      RightVerdict v d q limits.maxDepth := by
  have hplain := isPlain_of_parseDerivation hd
  unfold Options.Asks at hq
  cases hgoal : o.goalText? with
  | none =>
    rw [hgoal] at hq
    subst hq
    obtain ⟨v, echo, err, hrun, hspec⟩ := report_spec o limits hplain none
      (fun x hx => hplain x (d.names_conclusion hx)) (logReader o "derivation")
    refine ⟨v, echo, err, ?_, hspec⟩
    simp only [runOnText, hd, hgoal, hrun]
  | some text =>
    rw [hgoal] at hq
    have hq : parseSequent text = .ok q := hq
    obtain ⟨v, echo, err, hrun, hspec⟩ := report_spec o limits hplain (some q)
      (isPlain_of_parseSequent hq) (logReader o "derivation" ++ logReader o "sequent")
    refine ⟨v, echo, err, ?_, hspec⟩
    simp only [runOnText, hd, hgoal, hq, hrun]

theorem limits_of_pos {n : Nat} (h : 0 < n) (written : String) :
    Limits.ofInt n written = .ok ⟨n, h, written⟩ :=
  dif_pos h

theorem runOnText_spec {o : Options} (limits : Limits) {src : String} {d : Derivation} {q : Sequent}
    (hd : parseDerivation src = .ok d) (hq : o.Asks d q) :
    ∃ (v : Verdict) (echo err : String),
      runOnText o limits src = .done v.status (echo ++ v.text ++ "\n") err ∧
      (o.echo = false → echo = "") ∧ RightVerdict v d q limits.maxDepth := by
  obtain ⟨v, echo, err, hrun, -, -, hspec⟩ := runOnText_lines limits hd hq
  exact ⟨v, echo, err, hrun, hspec⟩

/-- **A run ends with the right verdict.** Let the proof and the goal be read, and let the depth
limit be positive. Then the exit status is 0 and `Accept` is printed if the proof is a correct
derivation of the goal and not too high, and otherwise the status is 1 and a rejection is printed,
which blames the shape of the proof exactly if it is too high. -/
theorem run_verdict (read : String → Except ReadError ByteArray) (input : ByteArray)
    (args : List String) {o : Options} {n : Nat} {bytes : ByteArray} {src : String} {d : Derivation}
    {q : Sequent} (ho : Options.parse args = .ok o) (hn : o.maxDepth = some (n : Int))
    (hpos : 1 ≤ n)
    (hread : (if o.proof == "-" then .ok input else read o.proof) = .ok bytes)
    (hsrc : decode bytes = some src) (hd : parseDerivation src = .ok d) (hq : o.Asks d q) :
    ∃ (v : Verdict) (echo err : String),
      run read input args = .done v.status (echo ++ v.text ++ "\n") err ∧
      (o.echo = false → echo = "") ∧ RightVerdict v d q n := by
  obtain ⟨v, echo, err, hrun, hspec⟩ := runOnText_spec ⟨n, hpos, (n : Int).repr⟩ hd hq
  refine ⟨v, echo, err, ?_, hspec⟩
  rw [run, ho]
  show runOn o _ = _
  rw [hread, runOn, hn]
  simp only [limits_of_pos hpos, hsrc, hrun]

/-- What is read from the proof that is asked for. -/
def Options.content (o : Options) (read : String → Except ReadError ByteArray) (input : ByteArray) :
    Except ReadError ByteArray :=
  if o.proof == "-" then .ok input else read o.proof

theorem run_of_parse {args : List String} {o : Options} (ho : Options.parse args = .ok o)
    (read : String → Except ReadError ByteArray) (input : ByteArray) :
    run read input args = runOn o (o.content read input) := by
  rw [run, ho]
  rfl

/-- A run whose proof can be read checks its text. -/
theorem runOn_of_decode {o : Options} {n : Int} {limits : Limits} {bytes : ByteArray} {src : String}
    (hn : o.maxDepth = some n) (hlimits : Limits.ofInt n n.repr = .ok limits)
    (hsrc : decode bytes = some src) : runOn o (.ok bytes) = runOnText o limits src := by
  unfold runOn
  simp only [hn, hlimits, hsrc]

/-- The options of a run that is given a file and nothing else. -/
def fileOnly : Options := ⟨"p", none, some 10000, false, false⟩

theorem parse_fileOnly : Options.parse ["p"] = .ok fileOnly := by decide +kernel

/-- An assumption as it is written, and its one node. -/
def assumption : String := "(Assm \x7bx : P\x7d |- x : P)"

def assumptionNode : Derivation :=
  .node .assm ⟨⟨[("x", .base "P")], by decide⟩, .var "x", .base "P"⟩ []

def isAssumption : Derivation → Bool
  | .node R q ds => R == .assm && q == assumptionNode.conclusion && ds.isEmpty

theorem parse_of_isAssumption {src : String}
    (h : (parseDerivation src).toOption.any isAssumption = true) :
    parseDerivation src = .ok assumptionNode := by
  cases hp : parseDerivation src with
  | error e =>
    rw [hp] at h
    cases h
  | ok d =>
    obtain ⟨R, q, ds⟩ := d
    rw [hp] at h
    obtain ⟨⟨rfl, rfl⟩, rfl⟩ : (R = .assm ∧ q = assumptionNode.conclusion) ∧ ds = [] := by
      simpa [isAssumption] using h
    rfl

theorem parse_assumption : parseDerivation assumption = .ok assumptionNode :=
  parse_of_isAssumption (by decide +kernel)

theorem proves_assumption : assumptionNode.Proves assumptionNode.conclusion := by
  refine ⟨.node (.assm rfl) fun _ h => absurd h List.not_mem_nil, rfl⟩

/-- The assumption is accepted for its conclusion in another spelling, since it has one level. -/
theorem run_assumption : ∃ err, run (fun _ => .error .notFound) assumption.toUTF8
    ["-", "--goal", "\x7bx:P\x7d ⊢ x:P", "--max-depth", "1"] = .done 0 "Accept\n" err := by
  have ho : Options.parse ["-", "--goal", "\x7bx:P\x7d ⊢ x:P", "--max-depth", "1"] =
      .ok ⟨"-", some "\x7bx:P\x7d ⊢ x:P", some 1, false, false⟩ := by decide +kernel
  have hsrc : decode assumption.toUTF8 = some assumption := by decide +kernel
  have hgoal : parseSequent "\x7bx:P\x7d ⊢ x:P" = .ok assumptionNode.conclusion := by decide +kernel
  obtain ⟨v, echo, err, hrun, hecho, hv⟩ := run_verdict (n := 1) (fun _ => .error .notFound)
    assumption.toUTF8 _ ho rfl (Nat.le_refl 1) rfl hsrc parse_assumption hgoal
  obtain rfl : v = .accept := hv.accept_iff.mpr ⟨proves_assumption, by decide⟩
  refine ⟨err, ?_⟩
  rw [hrun, hecho rfl]
  rfl

end CommandLine

end NaturalDeduction

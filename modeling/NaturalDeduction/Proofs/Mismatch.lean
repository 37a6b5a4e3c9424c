import NaturalDeduction.Proofs.Forgery
import NaturalDeduction.Proofs.Phases

/-!
# Derivations of something else

The root of a derivation is checked for the target, and what it records is compared with the target
at the end.

* `mismatch_of_check`      a mismatch with the target is found by the last step, after all others
                           have passed;
* `check_of_mismatch`      the derivation is accepted when its root records the target instead;
* `check_mismatch`         a mismatch is reported exactly for such derivations.
-/

namespace NaturalDeduction

namespace Graph
variable {g : Graph} {limits : Limits} {tree tree' : Ref} {target : Judgement} {r : Reject}

theorem same_self (a : Ref) : g.same a a = true := by
  rw [same, sameFrom, if_pos (beq_self_eq_true a)]
  rfl

theorem meets_self (j : Judgement) : g.meets j ⟨.exactly j.env, j.term, .exactly j.ty⟩ = true := by
  simp only [meets, hasBindings, hasForm, same_self, Bool.and_self]

/-- No step but the last one reports a mismatch with the target. -/
theorem mismatch_of_check (h : g.check limits tree target = .ok (.reject r))
    (hr : r.reason = .conclusionTargetMismatch) :
    ∃ memo s, g.checkTarget target = .ok memo ∧
      g.survey limits.written limits.maxDepth [] {} tree ⟨{}, memo⟩ = .ok s ∧
      g.plainRules limits.maxDepth [] tree target = .ok () ∧
      g.checkConclusion tree target = .error (.reject r) := by
  have hformal : ¬ r.reason.IsFormal := by
    rw [hr]
    rintro (h | h) <;> cases h
  obtain hm | ⟨memo, hm, hs | ⟨s, hs, hrules | ⟨hrules, hend⟩⟩⟩ := reject_cases h
  · exact absurd (isFormal_of_checkTarget hm) hformal
  · exact absurd (isFormal_of_survey hs) hformal
  · have hruns := runsTo_of_survey hm hs
    rw [hrules] at hruns
    obtain ⟨f, hf⟩ := reason_of_runsTo hruns
    exact absurd (hf.symm.trans hr) f.reason_ne_mismatch
  · exact ⟨memo, s, hm, hs, hrules, hend⟩

theorem plainRules_of_agree {n : Nat} {path : List Nat} (hR : g.ruleOf? tree = g.ruleOf? tree')
    (hps : g.premisesOf tree = g.premisesOf tree') :
    g.plainRules n path tree target = g.plainRules n path tree' target := by
  cases n with
  | zero => rfl
  | succ n => rw [plainRules_succ, plainRules_succ, checkAt, checkAt, hR, hps]

section
variable {tag c c' p : Ref} (hget : g.get tree = .derivation tag c p)
  (hget' : g.get tree' = .derivation tag c' p) (hc' : g.judgement? c' = some target)
include hget hget'

theorem ruleOf?_eq_of_get : g.ruleOf? tree = g.ruleOf? tree' := by
  unfold ruleOf?
  rw [hget, hget']

theorem premisesOf_eq_of_get : g.premisesOf tree = g.premisesOf tree' := by
  unfold premisesOf
  rw [hget, hget']

include hc'

/-- The root with the target in place of what it records. -/
theorem IsNode.with_target {R : Rule} {j : Judgement} {ps : List Ref} (h : g.IsNode tree R j ps) :
    g.IsNode tree' R target ps := by
  obtain ⟨hR, -, hp⟩ := h
  refine ⟨(ruleOf?_eq_of_get hget hget').symm.trans hR, ?_, ?_⟩
  · rw [conclusion?, hget']
    exact hc'
  · rw [sequenceOf?, hget] at hp
    rw [sequenceOf?, hget']
    exact hp

/-- What is rejected by the last step only is accepted with the target at the root. -/
theorem check_of_mismatch (hw : g.WellRecorded tree target)
    (h : g.check limits tree target = .ok (.reject r))
    (hr : r.reason = .conclusionTargetMismatch) : g.check limits tree' target = .ok .accept := by
  obtain ⟨memo, s, hm, hs, hrules, -⟩ := mismatch_of_check h hr
  obtain ⟨hshallow, -, hn⟩ := looseIn_of_survey hm hs
  have hps := premisesOf_eq_of_get hget hget'
  have hnodes : ∀ x, g.Below tree' x → ∃ R j ps, g.IsNode x R j ps ∧ g.WellStated j := by
    intro x hx
    rcases below_iff.mp hx with rfl | ⟨q, hq, hx⟩
    · obtain ⟨R, j, ps, hnode, -⟩ := hn tree .refl
      exact ⟨R, target, ps, hnode.with_target hget hget' hc', hw.wellStated⟩
    · rw [← hps] at hq
      have hbelow : g.Below tree x := hx.head hq
      obtain ⟨R, j, ps, hnode, -⟩ := hn x hbelow
      exact ⟨R, j, ps, hnode, hw.conclusion hbelow hnode.conclusion⟩
  obtain ⟨s', hs'⟩ := exists_survey limits (grammatical_of_nodes hw.wellStated hnodes) hnodes
    (hshallow.of_premises hps) hm
  have hend : g.checkConclusion tree' target = .ok () := by
    refine checkConclusion_eq_ok_iff.mpr ⟨target, ?_, same_self _, same_self _, same_self _⟩
    rw [conclusion?, hget']
    exact hc'
  rw [check, checkSteps_eq_plainRules hm hs',
    ← plainRules_of_agree (ruleOf?_eq_of_get hget hget') hps, hrules, ok_bind, hend]

end

/-- A derivation does not differ from what it records itself. -/
theorem checkProof_ne_mismatch (h : g.checkProof limits tree = .ok (.reject r)) :
    r.reason ≠ .conclusionTargetMismatch := by
  intro hr
  unfold checkProof at h
  split at h
  case h_1 j hj =>
    obtain ⟨-, -, -, -, -, hend⟩ := mismatch_of_check h hr
    obtain ⟨i, m, hi, hne, -⟩ := exists_of_checkConclusion hend
    obtain rfl := Option.some.inj (hj.symm.trans hi)
    rw [meets_self] at hne
    cases hne
  case h_2 =>
    obtain rfl : _ = r := Verdict.reject.inj (Except.ok.inj h)
    cases hr

/-- **A mismatch with the target is reported only for an otherwise valid derivation**: for one whose
root records something else and which is accepted when the root records the target. It is reported
at the root with the rule of the root, and never where a derivation is checked for what it records
itself. -/
theorem check_mismatch (g : Graph) (limits : Limits) :
    (∀ (tree tree' tag c c' p : Ref) (target : Judgement), g.get tree = .derivation tag c p →
      g.get tree' = .derivation tag c' p → g.judgement? c' = some target →
      g.WellRecorded tree target →
      ((∃ r, g.check limits tree target = .ok (.reject r) ∧
          r.reason = .conclusionTargetMismatch) ↔
        g.same c c' = false ∧ g.check limits tree' target = .ok .accept) ∧
      ∀ r, g.check limits tree target = .ok (.reject r) → r.reason = .conclusionTargetMismatch →
        r.location = [] ∧ ∃ R, g.ruleOf? tree = some R ∧ r.rule = some R) ∧
    ∀ x r, g.checkProof limits x = .ok (.reject r) → r.reason ≠ .conclusionTargetMismatch := by
  refine ⟨fun tree tree' tag c c' p target hget hget' hc' hw => ⟨⟨?_, ?_⟩, ?_⟩,
    fun x r h => checkProof_ne_mismatch h⟩
  · rintro ⟨r, h, hr⟩
    refine ⟨?_, check_of_mismatch hget hget' hc' hw h hr⟩
    obtain ⟨-, -, -, -, -, hend⟩ := mismatch_of_check h hr
    obtain ⟨j, -, hj, hne, -⟩ := exists_of_checkConclusion hend
    have hjw : g.WellStated j := hw.conclusion .refl hj
    have hjc : g.judgement? c = some j := by
      rw [conclusion?, hget] at hj
      exact hj
    rw [Bool.eq_false_iff]
    intro hsame
    have hst := (same_sequents_iff hjc hc' hjw.apt hw.wellStated.apt).mp hsame
    have hok := checkConclusion_eq_ok_iff.mpr
      ⟨j, hj, (statement_eq_iff hjw.apt hw.wellStated.apt).mp hst⟩
    exact absurd (hend.symm.trans hok) (by simp)
  · rintro ⟨hne, h⟩
    obtain ⟨-, -, hn⟩ := looseIn_of_accept h
    obtain ⟨R, i, ps, hnode, -⟩ := hn tree' .refl
    obtain ⟨j, hj, hjw⟩ := conclusionOk_iff.mp (hw.nodes tree .refl (by rw [hget]; rfl))
    have hjc : g.judgement? c = some j := by
      rw [conclusion?, hget] at hj
      exact hj
    have hroot : g.IsNode tree R j ps := hnode.with_target hget' hget hjc
    have hnode' : g.IsNode tree' R target ps := hroot.with_target hget hget' hc'
    have hst : g.statement j ≠ g.statement target := by
      intro hst
      rw [(same_sequents_iff hjc hc' hjw.apt hw.wellStated.apt).mpr hst] at hne
      cases hne
    have hgram : g.Grammatical tree' target := by
      refine grammatical_of_nodes hw.wellStated fun x hx => ?_
      rcases below_iff.mp hx with rfl | ⟨q, hq, hx'⟩
      · exact ⟨R, target, ps, hnode', hw.wellStated⟩
      · obtain ⟨S, k, qs, hx'', -⟩ := hn x hx
        rw [← premisesOf_eq_of_get hget hget'] at hq
        exact ⟨S, k, qs, hx'', hw.conclusion (hx'.head hq) hx''.conclusion⟩
    obtain ⟨m, hm⟩ := check_forged_root h hgram hnode' hroot hjw hst
    exact ⟨_, hm, rfl⟩
  · intro r h hr
    obtain ⟨memo, s, hm, hs, -, hend⟩ := mismatch_of_check h hr
    obtain ⟨R, j, ps, hnode, -⟩ := (looseIn_of_survey hm hs).2.2 tree .refl
    obtain ⟨-, m, -, -, rfl⟩ := exists_of_checkConclusion hend
    exact ⟨rfl, R, hnode.rule, hnode.rule⟩

/-- The forged root at 21 records `{x : P} ⊢ (x, x) : ⊥`; with the target it is the root at 14. -/
theorem check_mismatch_forgeries : ∃ r, forgeries.check .default 21 ⟨3, 5, 6⟩ = .ok (.reject r) ∧
    r.reason = .conclusionTargetMismatch := by
  have hw : forgeries.WellRecorded 21 ⟨3, 5, 6⟩ := by
    refine ⟨by decide +kernel, by decide +kernel, by decide +kernel, fun x hx _ => ?_⟩
    have hm : x ∈ [10, 21] := mem_of_below (by decide) (by decide) hx
    obtain rfl | rfl : x = 10 ∨ x = 21 := by simpa using hm
    all_goals decide +kernel
  exact (((check_mismatch forgeries .default).1 21 14 12 20 11 13 ⟨3, 5, 6⟩ rfl rfl rfl hw).1).mpr
    ⟨by decide +kernel, accept_forgeries⟩

end Graph

end NaturalDeduction

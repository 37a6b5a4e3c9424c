import NaturalDeduction.Proofs.Soundness

/-!
# What a check accepts

* `Shallow.irrefl`        a node of a derivation of finite depth does not lie below itself;
* `plainSurvey_shallow`   a plain walk passes wherever the nodes are well formed and not too deep;
* `checkRules_complete`   a run over the rules passes if every node does;
* `check_of_passes`       a derivation is accepted if every step of its check passes;
* `check_complete`        a derivation that is well formed, not too deep and in the rule table at
                          every node is accepted for what its root records.
-/

namespace NaturalDeduction

namespace Graph
variable {g : Graph}

/-- The node `y` lies strictly below the node `x`. -/
def StrictlyBelow (g : Graph) : Ref → Ref → Prop :=
  Relation.TransGen fun x y => y ∈ g.premisesOf x

/-- No node of a derivation of finite depth lies below itself. -/
theorem Shallow.irrefl {n : Nat} {r : Ref} (h : g.Shallow n r) : ¬ g.StrictlyBelow r r := by
  induction h with
  | @node n r _ ih =>
    intro hr
    -- the way from `r` back to `r` starts with a premise, which then lies below itself
    obtain ⟨p, hp, hpr⟩ := Relation.TransGen.head'_iff.mp hr
    exact ih p hp (Relation.TransGen.tail' hpr hp)

theorem forM_eq_ok {ε α : Type} {f : α → Except ε Unit} {l : List α}
    (h : ∀ a ∈ l, f a = .ok ()) : l.forM f = .ok () := by
  induction l with
  | nil => rfl
  | cons a l ih =>
    show (f a >>= fun _ => l.forM f) = _
    rw [h a List.mem_cons_self]
    exact ih fun b hb => h b (List.mem_cons_of_mem _ hb)

theorem exists_foldlM_ok {ε σ α : Type} {f : σ → α → Except ε σ} {l : List α}
    (h : ∀ a ∈ l, ∀ s, ∃ s', f s a = .ok s') (s : σ) : ∃ s', l.foldlM f s = .ok s' := by
  induction l generalizing s with
  | nil => exact ⟨s, rfl⟩
  | cons a l ih =>
    obtain ⟨t, ht⟩ := h a List.mem_cons_self s
    obtain ⟨u, hu⟩ := ih (fun b hb => h b (List.mem_cons_of_mem _ hb)) t
    refine ⟨u, ?_⟩
    rw [List.foldlM_cons, ht]
    exact hu

section
variable {tree : Ref} {target : Judgement}

/-- The plain walk passes: the nodes above `r` are never met again. -/
theorem plainSurvey_shallow
    (hn : ∀ x, g.Below tree x → ∃ R j ps, g.IsNode x R j ps ∧ g.WellStated j) (written : String)
    {n : Nat} {r : Ref} (hs : g.Shallow n r) :
    ∀ (path : List Nat) (above : List Ref), g.Below tree r →
      (∀ a ∈ above, g.StrictlyBelow a r) →
      g.plainSurvey written n path above r = .ok () := by
  induction hs with
  | @node n r hp ih =>
    intro path above hr ha
    obtain ⟨R, j, ps, hnode, hj⟩ := hn r hr
    have hra : r ∉ above := fun h => (Shallow.node hp).irrefl (ha r h)
    rw [plainSurvey_node hnode hj hra]
    refine forM_eq_ok fun q hq => ?_
    have hq' : q.1 ∈ g.premisesOf r := hnode.premisesOf ▸ mem_of_mem_zipIdx hq
    refine ih q.1 hq' (q.2 :: path) (r :: above) (hr.tail hq') ?_
    exact List.forall_mem_cons.mpr ⟨.single hq', fun a h => (ha a h).tail hq'⟩

/-- A run over the rules passes if every node passes for what it records, and the first one for
its goal. -/
theorem checkRules_complete
    (hn : ∀ x, g.Below tree x → ∃ j, g.conclusion? x = some j ∧ g.Passes x j) {n : Nat} :
    ∀ (path : List Nat) {r : Ref} {goal : Judgement} (seen : RefSet), g.Below tree r →
      g.Passes r goal → ∃ seen', g.checkRules n path r goal seen = .ok seen' := by
  induction n with
  | zero => exact fun _ _ _ seen _ _ => ⟨seen, rfl⟩
  | succ n ih =>
    intro path r goal seen hr hpass
    by_cases hs : seen.contains r = true
    · exact ⟨seen, checkRules_of_contains hs⟩
    · rw [checkRules_of_passes hs hpass]
      refine exists_foldlM_ok (fun q hq s => ?_) _
      have hq' : g.Below tree q.1 := hr.tail (mem_of_mem_zipIdx hq)
      obtain ⟨j, hj, hp⟩ := hn q.1 hq'
      unfold checkPremise
      rw [hj]
      exact ih (q.2 :: path) s hq' hp

/-- A survey passes wherever everything is well formed and not too deep. -/
theorem exists_survey (limits : Limits) (hw : g.Grammatical tree target)
    (hn : ∀ x, g.Below tree x → ∃ R j ps, g.IsNode x R j ps ∧ g.WellStated j)
    (hs : g.Shallow limits.maxDepth tree) {memo : Memo} (hm : g.checkTarget target = .ok memo) :
    ∃ s, g.survey limits.written limits.maxDepth [] {} tree ⟨{}, memo⟩ = .ok s := by
  have hwalk : g.plainSurvey limits.written limits.maxDepth [] [] tree = .ok () :=
    plainSurvey_shallow hn limits.written hs [] [] .refl (by simp)
  have heq := map_survey_of_rolesApart limits hw.rolesApart hm
  rw [hwalk] at heq
  obtain ⟨s, hs, -⟩ | ⟨e, -, he⟩ := map_unit_eq.mp heq
  · exact ⟨s, hs⟩
  · exact absurd he (by simp)

/-- A node in the rule table passes for every goal that stands for what it records. -/
theorem IsNode.passes {x : Ref} {R : Rule} {j goal : Judgement} {ps : List Ref}
    (hx : g.IsNode x R j ps) (hfit : g.Fits R ps j) (hgoal : g.Apt goal)
    (hps : ∀ p ∈ ps, ∀ i, g.conclusion? p = some i → g.Apt i)
    (heq : g.statement j = g.statement goal) : g.Passes x goal := by
  rw [Fits, heq] at hfit
  refine ⟨R, hx.rule, ?_⟩
  rw [hx.premisesOf]
  exact (checkNode_eq_ok_iff hgoal hps).mpr hfit

theorem grammatical_of_nodes (ht : g.WellStated target)
    (hn : ∀ x, g.Below tree x → ∃ R j ps, g.IsNode x R j ps ∧ g.WellStated j) :
    g.Grammatical tree target := by
  obtain ⟨he, hterm, hty⟩ := ht
  refine ⟨envOk_none_iff.mpr he, termFault_none_iff.mpr hterm, typeFault_none_iff.mpr hty, ?_⟩
  intro x hx
  obtain ⟨R, j, ps, hnode, hj⟩ := hn x hx
  exact conclusionOk_iff.mpr ⟨j, hnode.conclusion, hj⟩

/-- The steps of a check, each of which passes. -/
theorem check_of_passes (limits : Limits) (ht : g.WellStated target)
    (hn : ∀ x, g.Below tree x → ∃ R j ps, g.IsNode x R j ps ∧ g.WellStated j ∧ g.Passes x j)
    (hs : g.Shallow limits.maxDepth tree) (hroot : g.Passes tree target)
    (hend : g.checkConclusion tree target = .ok ()) :
    g.check limits tree target = .ok .accept := by
  have hnodes : ∀ x, g.Below tree x → ∃ R j ps, g.IsNode x R j ps ∧ g.WellStated j := by
    intro x hx
    obtain ⟨R, j, ps, hnode, hj, -⟩ := hn x hx
    exact ⟨R, j, ps, hnode, hj⟩
  obtain ⟨memo, hm⟩ := exists_checkTarget ht
  obtain ⟨s, hsurvey⟩ := exists_survey limits (grammatical_of_nodes ht hnodes) hnodes hs hm
  obtain ⟨seen, hseen⟩ := checkRules_complete (n := limits.maxDepth) (fun x hx => by
    obtain ⟨R, j, ps, hnode, -, hpass⟩ := hn x hx
    exact ⟨j, hnode.conclusion, hpass⟩) [] {} .refl hroot
  exact check_eq_accept.mpr ⟨memo, s, seen, hm, hsurvey, hseen, hend⟩

/-- **Completeness.** A derivation whose target and recorded sequents are well formed, whose nodes
are in the rule table, whose root records the target and which is no deeper than the limit is
accepted. -/
theorem check_complete (limits : Limits) (hw : g.Grammatical tree target)
    (hn : ∀ x, g.Below tree x → ∃ R j ps, g.IsNode x R j ps ∧ g.Fits R ps j)
    (hroot : g.Records tree (g.statement target)) (hs : g.Shallow limits.maxDepth tree) :
    g.check limits tree target = .ok .accept := by
  have htarget : g.WellStated target := hw.wellStated (.inl rfl)
  have hstated : ∀ x, g.Below tree x → ∀ j, g.conclusion? x = some j → g.WellStated j :=
    fun x hx j hj => hw.wellStated (.inr ⟨x, hx, hj⟩)
  have hpass : ∀ x, g.Below tree x → ∀ j goal, g.conclusion? x = some j → g.Apt goal →
      g.statement j = g.statement goal → g.Passes x goal := by
    intro x hx j goal hj hgoal heq
    obtain ⟨R, i, ps, hnode, hfit⟩ := hn x hx
    obtain rfl := hnode.eq_of_conclusion hj
    refine hnode.passes hfit hgoal (fun p hp i hi => ?_) heq
    exact (hstated p (hx.tail (hnode.premisesOf ▸ hp)) i hi).apt
  obtain ⟨j, hj, hroot⟩ := hroot
  have hsame := (statement_eq_iff (hstated tree .refl j hj).apt htarget.apt).mp hroot
  refine check_of_passes limits htarget (fun x hx => ?_) hs
    (hpass tree .refl j target hj htarget.apt hroot) (checkConclusion_eq_ok_iff.mpr ⟨j, hj, hsame⟩)
  obtain ⟨R, i, ps, hnode, -⟩ := hn x hx
  have hi := hnode.conclusion
  exact ⟨R, i, ps, hnode, hstated x hx i hi, hpass x hx i i hi (hstated x hx i hi).apt rfl⟩

end

/-- A derivation of `{x : P, y : ⊥} ⊢ (x, x) : P × P` with one node for both premises. The node has
the environment in another order. -/
def doubled : Graph where
  cells := #[.text "x", .text "y", .text "P", .base 2, .bottom, .env [(0, 3), (1, 4)],
    .env [(1, 4), (0, 3)], .var 0, .pair 7 7, .product 3 3, .sequent 6 7 3, .rule .assm, .tuple [],
    .derivation 11 10 12, .sequent 5 8 9, .rule .pairIntro, .tuple [13, 13], .derivation 15 14 16]
  below := by decide
  apart := by decide

theorem below_doubled {x : Ref} (h : doubled.Below 17 x) : x = 13 ∨ x = 17 := by
  have hm : x ∈ [13, 17] := mem_of_below (by decide) (by decide) h
  simpa using hm

theorem apt_doubled :
    doubled.Apt ⟨6, 7, 3⟩ ∧ doubled.Apt ⟨5, 8, 9⟩ ∧ doubled.Apt ⟨6, 8, 9⟩ := by
  have h₁ : doubled.WellStated ⟨6, 7, 3⟩ := judgementOk_none_iff.mp (by decide +kernel)
  have h₂ : doubled.WellStated ⟨5, 8, 9⟩ := judgementOk_none_iff.mp (by decide +kernel)
  exact ⟨h₁.apt, h₂.apt, ⟨rfl, h₁.1.loose, h₂.2.1.loose, h₂.2.2.loose⟩⟩

/-- Accepted with two levels, for a target with the environment in the other order. -/
theorem check_doubled : doubled.check ⟨2, by decide, "2"⟩ 17 ⟨6, 8, 9⟩ = .ok .accept := by
  obtain ⟨hleaf, hroot, htarget⟩ := apt_doubled
  refine check_complete _ ⟨by decide +kernel, by decide +kernel, by decide +kernel, fun x hx => ?_⟩
    (fun x hx => ?_) ⟨⟨5, 8, 9⟩, rfl, ?_⟩ (.node fun p hp => .node fun q hq => ?_)
  · rcases below_doubled hx with rfl | rfl <;> decide +kernel
  · have hps : ∀ p ∈ [13, 13], ∀ j, doubled.conclusion? p = some j → doubled.Apt j := by
      intro p hp j hj
      obtain rfl : p = 13 := by simpa using hp
      exact Option.some.inj hj ▸ hleaf
    rcases below_doubled hx with rfl | rfl
    · exact ⟨.assm, ⟨6, 7, 3⟩, [], ⟨rfl, rfl, rfl⟩,
        (checkNode_eq_ok_iff hleaf (by simp)).mp (by decide +kernel)⟩
    · exact ⟨.pairIntro, ⟨5, 8, 9⟩, [13, 13], ⟨rfl, rfl, rfl⟩,
        (checkNode_eq_ok_iff hroot hps).mp (by decide +kernel)⟩
  · exact (statement_eq_iff hroot htarget).mpr (by decide +kernel)
  · obtain rfl : p = 13 := by
      have hp' : p ∈ [13, 13] := hp
      simpa using hp'
    have hq' : q ∈ ([] : List Ref) := hq
    exact absurd hq' (by simp)

end Graph

end NaturalDeduction

import NaturalDeduction.Proofs.Agreement
import NaturalDeduction.Proofs.Phases

/-!
# Reordered environments

The order in which the bindings of an environment were made cannot be seen in a verdict: not in the
target, not in what a derivation records, and not in a message.

* `plainSurvey_of_derivation`   the walk through a derivation that records a well-formed sequent
                         depends on its outline and its premises;
* `Graph.SameLoops`      a node lies below itself at the same positions of two derivations;
* `plainSurvey_of_parallel`   the walks through such derivations have the same outcome;
* `check_of_twins`       the verdicts on such derivations are the same;
* `check_reordered`      the verdict on a derivation is the verdict on a reordered one.
-/

namespace NaturalDeduction

namespace Graph
variable {g g' : Graph} {tree tree' : Ref}

/-! ## surveys -/

section
variable {written : String} {n : Nat} {path : List Nat} {above : List Ref} {r : Ref}

theorem plainSurvey_of_kind_ne (h : (g.get r).kind ≠ .derivation) :
    g.plainSurvey written n path above r =
      .error (notDerivation (.ofPath path) (g.get r).kind) := by
  rw [plainSurvey.eq_def]
  cases hr : g.get r with
  | derivation => exact absurd (by rw [hr]; rfl) h
  | _ => rfl

/-- A derivation above itself. -/
theorem plainSurvey_of_mem (h : (g.get r).kind = .derivation) (ha : r ∈ above) :
    g.plainSurvey written n path above r =
      .error (misshapen (.ofPath path) "derivation contains itself") := by
  rw [plainSurvey.eq_def]
  cases hr : g.get r <;> rw [hr] at h <;> cases h
  exact if_pos ha

theorem plainSurvey_zero (h : (g.get r).kind = .derivation) (ha : r ∉ above) :
    g.plainSurvey written 0 path above r = .error (tooDeep (.ofPath path) written) := by
  rw [plainSurvey.eq_def]
  cases hr : g.get r <;> rw [hr] at h <;> cases h
  exact if_neg ha

/-- A derivation with a rule and a well-formed sequent: its outline says whether the walk goes on to
the premises. -/
theorem plainSurvey_of_derivation (h : (g.get r).kind = .derivation) (ha : r ∉ above) {R : Rule}
    (hR : g.ruleOf? r = some R) (hok : g.conclusionOk r = true) :
    g.plainSurvey written (n + 1) path above r =
      match (g.outline r).premises with
      | none => .error (misshapen (.ofPath path) "premises must be a sequence of derivations")
      | some true => .error (notDerivation (Location.ofPath path ++ [0]) .int)
      | some false => (g.premisesOf r).zipIdx.forM fun q =>
          g.plainSurvey written n (q.2 :: path) (r :: above) q.1 := by
  unfold ruleOf? at hR
  unfold conclusionOk at hok
  rw [plainSurvey, outline, premisesOf]
  cases hr : g.get r <;> rw [hr] at h <;> cases h
  case derivation tag c p =>
    simp only [hr] at hR hok
    cases htag : g.get tag <;> rw [htag] at hR <;> cases hR
    cases hseq : (g.get p).sequence? with
    | none => simp only [hseq, htag, if_neg ha, Option.map_none]
    | some ps =>
      cases hb : (g.get p).holdsBytes with
      | true => simp [hseq, htag, if_neg ha, hok, hb]
      | false => simp [hseq, htag, if_neg ha, hok, hb, Cell.items_of_sequence? hseq]

end

/-! ## loops -/

/-- The node at a position is one of those above it in both derivations or in neither. -/
def SameLoops (g g' : Graph) (tree tree' : Ref) : Prop :=
  ∀ p q, q <+: p →
    (g.nodeAt? tree p = g.nodeAt? tree q ↔ g'.nodeAt? tree' p = g'.nodeAt? tree' q)

/-- The list holds the nodes above a position. -/
def HoldsAbove (g : Graph) (tree : Ref) (p : List Nat) (above : List Ref) : Prop :=
  ∀ y, y ∈ above ↔ ∃ q, q <+: p ∧ q ≠ p ∧ g.nodeAt? tree q = some y

theorem holdsAbove_nil : g.HoldsAbove tree [] [] := by
  intro y
  refine ⟨nofun, ?_⟩
  rintro ⟨q, hq, hne, -⟩
  exact absurd (List.prefix_nil.mp hq) hne

theorem HoldsAbove.concat {p : List Nat} {above : List Ref} {r : Ref}
    (h : g.HoldsAbove tree p above) (hr : g.nodeAt? tree p = some r) (i : Nat) :
    g.HoldsAbove tree (p ++ [i]) (r :: above) := by
  intro y
  rw [List.mem_cons, h y]
  constructor
  · rintro (rfl | ⟨q, hq, -, hy⟩)
    · exact ⟨p, List.prefix_append p [i], by simp, hr⟩
    · refine ⟨q, hq.trans (List.prefix_append p [i]), ?_, hy⟩
      rintro rfl
      have hlen := hq.length_le
      rw [List.length_append, List.length_singleton] at hlen
      omega
  · rintro ⟨q, hq, hne, hy⟩
    have hq : q <+: p := (List.prefix_concat_iff.mp hq).resolve_left hne
    by_cases hqp : q = p
    · subst hqp
      exact .inl (Option.some.inj (hy.symm.trans hr))
    · exact .inr ⟨q, hq, hqp, hy⟩

theorem SameLoops.mem_iff (h : g.SameLoops g' tree tree') {p : List Nat} {above above' : List Ref}
    {r r' : Ref} (ha : g.HoldsAbove tree p above) (ha' : g'.HoldsAbove tree' p above')
    (hr : g.nodeAt? tree p = some r) (hr' : g'.nodeAt? tree' p = some r') :
    r ∈ above ↔ r' ∈ above' := by
  rw [ha r, ha' r', ← hr, ← hr']
  refine exists_congr fun q => and_congr_right fun hq => and_congr_right fun _ => ?_
  rw [eq_comm, h p q hq, eq_comm]

/-- No node of a derivation of finite depth stands at two positions one of which is below the
other. -/
theorem Shallow.nodeAt?_ne {n : Nat} {p q : List Nat} {x : Ref} (h : g.Shallow n tree)
    (hq : q <+: p) (hne : q ≠ p) (hx : g.nodeAt? tree q = some x) : g.nodeAt? tree p ≠ some x := by
  induction q generalizing tree n p with
  | nil =>
    obtain rfl : tree = x := Option.some.inj hx
    intro hp
    cases p with
    | nil => exact hne rfl
    | cons i p =>
      obtain ⟨z, hz, hp⟩ := Option.bind_eq_some_iff.mp hp
      exact h.irrefl (.head' (List.mem_of_getElem? hz) (below_of_nodeAt? hp))
  | cons i q ih =>
    obtain ⟨s, rfl⟩ := hq
    obtain ⟨z, hz, hx⟩ := Option.bind_eq_some_iff.mp hx
    cases h with
    | node h =>
      rw [List.cons_append, nodeAt?_cons hz]
      exact ih (h z (List.mem_of_getElem? hz)) (List.prefix_append q s) (by simpa using hne) hx

theorem sameLoops_of_shallow {S : Judgement → Judgement → Prop} {n : Nat}
    (hpar : g.Parallel g' S tree tree') (h : g.Shallow n tree) : g.SameLoops g' tree tree' := by
  intro p q hq
  by_cases hqp : q = p
  · subst hqp
    exact iff_of_true rfl rfl
  rcases rel_iff.mp (hpar q) with ⟨x, x', hx, hx', -⟩ | ⟨hx, hx'⟩
  · rw [hx, hx']
    exact iff_of_false (h.nodeAt?_ne hq hqp hx) ((hpar.shallow h).nodeAt?_ne hq hqp hx')
  · rw [hx, hx']
    rcases rel_iff.mp (hpar p) with ⟨y, y', hy, hy', -⟩ | ⟨hy, hy'⟩
    · rw [hy, hy']
      exact iff_of_false nofun nofun
    · exact iff_of_true hy hy'

/-! ## walks -/

/-- Every derivation among the nodes has a rule and records a well-formed sequent. -/
def Legible (g : Graph) (tree : Ref) : Prop :=
  ∀ x, g.Below tree x → (g.get x).kind = .derivation →
    (∃ R, g.ruleOf? x = some R) ∧ g.conclusionOk x = true

/-- The walks through two parallel derivations with the same loops have the same outcome. -/
theorem plainSurvey_of_parallel {S : Judgement → Judgement → Prop}
    (hloops : g.SameLoops g' tree tree') (hl : g.Legible tree) (hl' : g'.Legible tree')
    (written : String) {n : Nat} {p : List Nat} {r r' : Ref} {above above' : List Ref}
    (hpar : g.Parallel g' S r r') (hr : g.nodeAt? tree p = some r)
    (hr' : g'.nodeAt? tree' p = some r') (ha : g.HoldsAbove tree p above)
    (ha' : g'.HoldsAbove tree' p above') :
    g.plainSurvey written n p.reverse above r = g'.plainSurvey written n p.reverse above' r' := by
  induction n using Nat.strongRecOn generalizing p r r' above above' with
  | ind n ih =>
    have hkind := hpar.root.kind
    -- positions tell the walks alike which nodes are above, the lists of nodes need not match
    have hmem := hloops.mem_iff ha ha' hr hr'
    by_cases hk : (g.get r).kind = .derivation
    · have hk' : (g'.get r').kind = .derivation := hkind ▸ hk
      by_cases hra : r ∈ above
      · rw [plainSurvey_of_mem hk hra, plainSurvey_of_mem hk' (hmem.mp hra)]
      · have hra' : r' ∉ above' := fun h => hra (hmem.mpr h)
        cases n with
        | zero => rw [plainSurvey_zero hk hra, plainSurvey_zero hk' hra']
        | succ n =>
          obtain ⟨⟨R, hR⟩, hok⟩ := hl r (below_of_nodeAt? hr) hk
          obtain ⟨⟨R', hR'⟩, hok'⟩ := hl' r' (below_of_nodeAt? hr') hk'
          rw [plainSurvey_of_derivation hk hra hR hok, plainSurvey_of_derivation hk' hra' hR' hok',
            hpar.root.outline]
          cases (g'.outline r').premises with
          | none => rfl
          | some b =>
            cases b with
            | true => rfl
            | false =>
              refine forM_zipIdx_congr hpar.premises fun i z z' hz hz' hparz => ?_
              have hpath : i :: p.reverse = (p ++ [i]).reverse := by simp
              simp only [hpath]
              apply ih n (Nat.lt_succ_self n) hparz _ _ (ha.concat hr i) (ha'.concat hr' i)
              · rw [nodeAt?_append, hr, Option.bind_some, hz]
              · rw [nodeAt?_append, hr', Option.bind_some, hz']
    · rw [plainSurvey_of_kind_ne hk, plainSurvey_of_kind_ne (hkind ▸ hk), hkind]

/-! ## verdicts -/

theorem morphism_id : Morphism id id id where
  type _ h := h
  term _ h := h
  listing _ h := h
  context _ := rfl
  table {R s ss} h := by
    have hid : Statement.map id id = id := rfl
    rw [hid, List.map_id]
    exact h

/-- A sequent and the same one with its bindings in another order are twins. -/
theorem Image.twins {j j' : Judgement} (h : g.Image g' id id j j') (hj : g.WellStated j) :
    g.Twins g' j j' := by
  obtain ⟨he', ht', ha'⟩ := h.wellStated morphism_id hj
  have hcontext := congrArg Statement.context (h.statement morphism_id)
  obtain ⟨he, ht, ha⟩ := hj
  refine ⟨⟨he, he', ?_⟩, ⟨ht, ht', h.term.symm⟩, ⟨ha, ha', h.ty.symm⟩⟩
  rw [value_of_kind_env (wellFormed_env_iff.mp he).1, value_of_kind_env h.kind]
  exact congrArg Value.env hcontext.symm

section
variable {target target' : Judgement}

/-- What is recorded stays well formed. -/
theorem WellRecorded.of_parallel (hw : g.WellRecorded tree target)
    (htarget : g.Twins g' target target') (hpar : g.Parallel g' (g.Twins g') tree tree') :
    g'.WellRecorded tree' target' := by
  obtain ⟨-, he', ht', ha'⟩ := htarget.wellStated
  refine ⟨envOk_none_iff.mpr he', termFault_none_iff.mpr ht', typeFault_none_iff.mpr ha', ?_⟩
  intro x' hx' hk'
  obtain ⟨x, hx, hparx⟩ := hpar.exists_below hx'
  obtain ⟨j, hj, -⟩ := conclusionOk_iff.mp (hw.nodes x hx (hparx.root.kind.trans hk'))
  obtain ⟨j', hj', htwins⟩ := hparx.root.exists_conclusion hj
  exact conclusionOk_iff.mpr ⟨j', hj', htwins.wellStated.2⟩

/-- Derivations that record twins are checked alike against twins, down to the message. -/
theorem check_of_twins (limits : Limits) (hw : g.WellRecorded tree target)
    (hrules : ∀ x, g.Below tree x → (g.get x).kind = .derivation → ∃ R, g.ruleOf? x = some R)
    (htwins : g.Twins g' target target') (hpar : g.Parallel g' (g.Twins g') tree tree')
    (hloops : g.SameLoops g' tree tree') :
    g.check limits tree target = g'.check limits tree' target' := by
  have hw' : g'.WellRecorded tree' target' := hw.of_parallel htwins hpar
  have hl : g.Legible tree := fun x hx hk => ⟨hrules x hx hk, hw.nodes x hx hk⟩
  have hl' : g'.Legible tree' := by
    intro x' hx' hk'
    obtain ⟨x, hx, hparx⟩ := hpar.exists_below hx'
    refine ⟨?_, hw'.nodes x' hx' hk'⟩
    rw [← hparx.root.rule]
    exact hrules x hx (hparx.root.kind.trans hk')
  have hsurvey := plainSurvey_of_parallel hloops hl hl' limits.written (n := limits.maxDepth) hpar
    (p := []) rfl rfl holdsAbove_nil holdsAbove_nil
  rw [List.reverse_nil] at hsurvey
  have hsteps : g.checkSteps limits tree target = g'.checkSteps limits tree' target' := by
    rw [checkSteps_eq_plain hw, checkSteps_eq_plain hw', hsurvey,
      plainRules_of_parallel hpar htwins, checkConclusion_of_matches hpar.root htwins]
  rw [check, check, hsteps]

/-- **The order of bindings cannot be observed.** Let every derivation among the nodes have a rule,
let the target and all that is recorded be well formed, and let the environments of the target and
of what is recorded be replaced, each for itself, by environments with the same bindings in any
order. The nodes keep their places: where one lay below itself, it still does. The verdict stays the
same, with its reason, location, rule and message. -/
theorem check_reordered (limits : Limits) (hw : g.WellRecorded tree target)
    (hrules : ∀ x, g.Below tree x → (g.get x).kind = .derivation → ∃ R, g.ruleOf? x = some R)
    (htarget : g.Image g' id id target target')
    (htree : g.Parallel g' (g.Image g' id id) tree tree')
    (hloops : g.SameLoops g' tree tree') :
    ∃ v, g.check limits tree target = .ok v ∧ g'.check limits tree' target' = .ok v := by
  have htwins : g.Twins g' target target' := htarget.twins hw.wellStated
  have hpar : g.Parallel g' (g.Twins g') tree tree' :=
    htree.imp fun x hx j hj j' himage => himage.twins (hw.conclusion hx hj)
  obtain ⟨v, hv⟩ := exists_check limits target hrules
  refine ⟨v, hv, ?_⟩
  rw [← check_of_twins limits hw hrules htwins hpar hloops, hv]

/-- At 18 a lambda over a premise that has not bound its parameter, with `{x : P, y : Q}` in the
root; at 21 the same with `{y : Q, x : P}`. -/
def reordered : Graph where
  cells := #[.text "x", .text "y", .text "P", .text "Q", .base 2, .base 3, .env [(0, 4), (1, 5)],
    .env [(1, 5), (0, 4)], .var 1, .lambda 0 5 8, .arrow 5 5, .sequent 6 8 5, .rule .assm,
    .tuple [], .derivation 12 11 13, .sequent 6 9 10, .rule .lambdaIntro, .tuple [14],
    .derivation 16 15 17, .sequent 7 9 10, .list [14], .derivation 16 19 20]
  below := by decide
  apart := by decide

theorem image_reordered (t a : Ref) :
    reordered.Image reordered id id ⟨6, t, a⟩ ⟨7, t, a⟩ :=
  ⟨rfl, .swap _ _ _, rfl, rfl⟩

theorem check_reordered_lambda : ∃ r,
    reordered.check .default 18 ⟨6, 9, 10⟩ = .ok (.reject r) ∧
      reordered.check .default 21 ⟨7, 9, 10⟩ = .ok (.reject r) ∧
      r.reason = .premiseConclusionMismatch := by
  have hbelow : ∀ x, reordered.Below 18 x → x = 14 ∨ x = 18 := by
    intro x hx
    have hm : x ∈ [14, 18] := mem_of_below (by decide) (by decide) hx
    simpa using hm
  have hw : reordered.WellRecorded 18 ⟨6, 9, 10⟩ := by
    refine ⟨by decide +kernel, by decide +kernel, by decide +kernel, fun x hx _ => ?_⟩
    rcases hbelow x hx with rfl | rfl
    all_goals decide +kernel
  have hnodes : ∀ x, reordered.Below 18 x → ∃ R j ps, reordered.IsNode x R j ps ∧
      reordered.WellStated j := by
    intro x hx
    rcases hbelow x hx with rfl | rfl
    · exact ⟨.assm, ⟨6, 8, 5⟩, [], ⟨rfl, rfl, rfl⟩, hw.conclusion hx rfl⟩
    · exact ⟨.lambdaIntro, ⟨6, 9, 10⟩, [14], ⟨rfl, rfl, rfl⟩, hw.conclusion hx rfl⟩
  have hshallow : reordered.Shallow (9998 + 1 + 1) 18 := by
    refine .node fun p hp => ?_
    obtain rfl : p = 14 := List.mem_singleton.mp hp
    exact .node nofun
  -- the premise should have bound the parameter in the environment of the target
  have hfault : reordered.checkNode .lambdaIntro [14] ⟨6, 9, 10⟩ = .error (.fault (.premise 0
      (.demand ⟨.bindings [(0, 5), (1, 5)], 8, .exactly 5⟩))) := by
    decide +kernel
  obtain ⟨memo, hm⟩ := exists_checkTarget hw.wellStated
  obtain ⟨s, hs⟩ := exists_survey .default (grammatical_of_nodes hw.wellStated hnodes) hnodes
    hshallow hm
  obtain ⟨r, hr, hcheck⟩ := check_eq_reject_of_first hm hs (p := []) rfl rfl rfl hfault
    fun q hq => absurd hq (by simp)
  have hleaf : reordered.Parallel reordered (reordered.Image reordered id id) 14 14 :=
    Matches.parallel ⟨rfl, .some ⟨rfl, .refl _, rfl, rfl⟩⟩ .nil
  have htree : reordered.Parallel reordered (reordered.Image reordered id id) 18 21 :=
    Matches.parallel ⟨rfl, .some (image_reordered 9 10)⟩ (.cons hleaf .nil)
  have hrules : ∀ x, reordered.Below 18 x → (reordered.get x).kind = .derivation →
      ∃ R, reordered.ruleOf? x = some R := by
    intro x hx _
    obtain ⟨R, j, ps, hnode, -⟩ := hnodes x hx
    exact ⟨R, hnode.rule⟩
  obtain ⟨v, hv, hv'⟩ := check_reordered .default hw hrules (image_reordered 9 10) htree
    (sameLoops_of_shallow htree hshallow)
  refine ⟨r, hcheck, ?_, RuleFault.reason_of_reject hr⟩
  rw [hv', ← hv, hcheck]

end

end Graph

end NaturalDeduction

import NaturalDeduction.Proofs.PlainRules

/-!
# When a check comes to a verdict

A check looks up heights, premises and names, and sorts names, and none of that ever fails. What can
fail is a message: a value in the place of a rule is written out in full, and there are values that
cannot be. The sequences of premises are tuples, lists and bytes.

* `FailsOnly`          a step of a check that can fail for certain reasons only;
* `Surveyed.deepest`   below a node of known height there is a way as long as the height says;
* `Graph.Unwritten`    a node has a value in the place of its rule that cannot be written out;
* `survey_failsOnly`, `checkSteps_failsOnly`   nothing else makes a step fail, whatever is in the graph;
* `Graph.Shapely`, `Graph.Stuck`   derivations that a plain walk passes, and those in which the first
                       thing that is amiss is such a value;
* `check_verdict`      when there is a verdict, for every target and for what a derivation records.
-/

namespace NaturalDeduction

/-- A step that has a result, or rejects, or fails for a reason in `P`. -/
def FailsOnly {α : Type} (P : Failure → Prop) (x : Except Stop α) : Prop :=
  ∀ f, x = .error (.failure f) → P f

section
variable {α β σ : Type} {P : Failure → Prop}

theorem failsOnly_ok (a : α) : FailsOnly P (.ok a) := fun _ h => nomatch h

theorem failsOnly_reject (r : Reject) : FailsOnly P (.error (.reject r) : Except Stop α) :=
  fun _ h => nomatch h

theorem FailsOnly.imp {Q : Failure → Prop} {x : Except Stop α} (hx : FailsOnly P x)
    (h : ∀ f, P f → Q f) : FailsOnly Q x := fun f hf => h f (hx f hf)

theorem FailsOnly.bind {x : Except Stop α} {k : α → Except Stop β} (hx : FailsOnly P x)
    (hk : ∀ a, x = .ok a → FailsOnly P (k a)) : FailsOnly P (x >>= k) := by
  cases x with
  | ok a => exact hk a rfl
  | error e =>
    intro f h
    exact hx f (congrArg Except.error (Except.error.inj h))

/-- Steps one after the other, each of which fails only for `P` where `I` holds, and keeps `I`. -/
theorem failsOnly_foldlM {I : σ → Prop} {f : σ → α → Except Stop σ} {l : List α}
    (step : ∀ a ∈ l, ∀ s, I s → FailsOnly P (f s a) ∧ ∀ s', f s a = .ok s' → I s') {s : σ}
    (hs : I s) : FailsOnly P (l.foldlM f s) := by
  induction l generalizing s with
  | nil => exact failsOnly_ok s
  | cons a l ih =>
    rw [List.foldlM_cons]
    obtain ⟨ha, hkeep⟩ := step a List.mem_cons_self s hs
    apply ha.bind
    intro s' hs'
    exact ih (fun b hb => step b (List.mem_cons_of_mem a hb)) (hkeep s' hs')

theorem mapError_eq_ok {ε ε' : Type} {x : Except ε α} {k : ε → ε'} {a : α} :
    x.mapError k = .ok a ↔ x = .ok a := by
  cases x <;> simp [Except.mapError]

theorem FailsOnly.of_map {x : Except Stop α} {k : α → β} (h : FailsOnly P (x.map k)) :
    FailsOnly P x := by
  cases x with
  | ok a => exact failsOnly_ok a
  | error e =>
    intro f he
    exact h f (congrArg Except.error (Except.error.inj he))

end

namespace Graph
variable {g : Graph}

/-! ## the survey -/

/-- The premises of a node of known height include one that is high enough for every step down, so
that the search for the deepest place succeeds. -/
theorem Surveyed.deepest {Q : Role → Ref → Prop} {hs : Heights} (H : g.Surveyed Q hs) {n : Nat} :
    ∀ {r : Ref} {h : Nat}, hs[r]? = some h → n ≤ h → ∃ l, g.deepest hs n r = .ok l := by
  induction n with
  | zero =>
    intro r h _ _
    exact ⟨[], rfl⟩
  | succ n ih =>
    intro r h hr hn
    obtain ⟨R, j, ps, hnode, -, hh⟩ := H r h hr
    obtain ⟨p, hp, k, hk, hnk⟩ := exists_of_lt_heightAbove hh (Nat.lt_of_succ_le hn)
    rw [Graph.deepest, hnode.premisesOf]
    cases hf : ps.zipIdx.find? fun q => hs[q.1]?.any (n ≤ ·) with
    | none =>
      obtain ⟨i, hi, rfl⟩ := List.getElem_of_mem hp
      have hq : (ps[i], i) ∈ ps.zipIdx :=
        List.mk_mem_zipIdx_iff_getElem?.mpr (List.getElem?_eq_getElem hi)
      have hno := List.find?_eq_none.mp hf _ hq
      simp [hk, hnk] at hno
    | some q =>
      have hq := List.find?_some hf
      obtain ⟨k', hk', hnk'⟩ : ∃ k', hs[q.1]? = some k' ∧ n ≤ k' := by
        simpa [Option.any_eq_true] using hq
      obtain ⟨l, hl⟩ := ih hk' hnk'
      refine ⟨(q.2 : Int) :: l, ?_⟩
      simp only [hl]
      rfl

/-- What a survey knows, whatever the roles of the values that it has passed. -/
abbrev KnowsLoose (g : Graph) (s : Survey) : Prop :=
  g.Knows g.LooseIn (fun m => ∀ x, m.knows x = true → g.Loose x) s

theorem knowsLoose_of_survey {written : String} {levels : Nat} {path : List Nat} {above : RefSet}
    {r : Ref} {s s' : Survey} (hs : g.KnowsLoose s)
    (h : g.survey written levels path above r s = .ok s') :
    g.KnowsLoose s' ∧ Grows above s.heights s'.heights ∧
      ∃ k, s'.heights[r]? = some k ∧ k < levels :=
  survey_surveyed g.trust_loose (fun _ _ _ _ _ _ => trivial) .refl hs h

theorem loose_of_sequentOk {m m' : Memo} (hm : ∀ x, m.knows x = true → g.Loose x) {c : Ref}
    (h : g.sequentOk m c = (true, m')) : ∀ x, m'.knows x = true → g.Loose x := by
  cases hj : g.judgement? c with
  | none =>
    rw [sequentOk_of_none hj] at h
    cases h
  | some j =>
    rw [sequentOk_of_some hj] at h
    exact (judgementOk_trusted g.trust_loose hm (fun _ _ => trivial) h).2

/-- A node at or below `tree` has a value in the place of its rule that cannot be written out. -/
def Unwritten (g : Graph) (tree : Ref) (f : Failure) : Prop :=
  ∃ x R c p, g.Below tree x ∧ g.get x = .derivation R c p ∧ g.quote? R = .error f

theorem Unwritten.of_premise {x q : Ref} {f : Failure} (hq : q ∈ g.premisesOf x)
    (h : g.Unwritten q f) : g.Unwritten x f := by
  obtain ⟨y, R, c, p, hy, hget, hR⟩ := h
  exact ⟨y, R, c, p, hy.head hq, hget, hR⟩

theorem failsOnly_unknownRule {α : Type} {x R c p : Ref} (hx : g.get x = .derivation R c p)
    (location : Location) :
    FailsOnly (g.Unwritten x) (.error (unknownRule location (g.quote? R)) : Except Stop α) := by
  cases hR : g.quote? R with
  | ok s => exact failsOnly_reject _
  | error e =>
    intro f hf
    obtain rfl : e = f := Stop.failure.inj (Except.error.inj hf)
    exact ⟨x, R, c, p, .refl, hx, hR⟩

/-- **A survey fails only for what it cannot write**: the heights that it looks up, on the way out of
a node and in the search for the deepest place, are known by then. -/
theorem survey_failsOnly {written : String} {levels : Nat} :
    ∀ {path : List Nat} {above : RefSet} {r : Ref} {s : Survey}, g.KnowsLoose s →
      FailsOnly (g.Unwritten r) (g.survey written levels path above r s) := by
  induction levels using Nat.strongRecOn with
  | ind levels ih =>
    intro path above r s hs
    rw [survey]
    split
    case h_2 => exact failsOnly_reject _
    case h_1 tag c p hget =>
      split
      case isTrue => exact failsOnly_reject _
      case isFalse =>
        split
        case h_1 k hk =>
          split
          case isFalse => exact failsOnly_ok s
          case isTrue hle =>
            obtain ⟨below, hbelow⟩ := hs.heights.deepest hk hle
            rw [hbelow]
            exact failsOnly_reject _
        case h_2 hk =>
          split
          case h_1 => exact failsOnly_reject _
          case h_2 n =>
            split
            case h_2 => exact failsOnly_unknownRule hget _
            case h_1 rule hR =>
              split
              case h_2 => exact failsOnly_reject _
              case h_1 ps hps =>
                split
                case h_1 => exact failsOnly_reject _
                case h_2 memo hm =>
                  split
                  case isTrue => exact failsOnly_reject _
                  case isFalse =>
                    have hmemo : g.KnowsLoose { s with memo } :=
                      ⟨loose_of_sequentOk hs.memo hm, hs.heights⟩
                    have hitems : g.premisesOf r = ps := by
                      rw [premisesOf, hget]
                      exact Cell.items_of_sequence? hps
                    apply FailsOnly.bind
                    · refine failsOnly_foldlM (I := g.KnowsLoose) (fun q hq t ht => ⟨?_, ?_⟩) hmemo
                      · exact (ih n (Nat.lt_succ_self n) ht).imp fun f =>
                          .of_premise (hitems ▸ mem_of_mem_zipIdx hq)
                      · intro t' ht'
                        exact (knowsLoose_of_survey ht ht').1
                    · intro t ht
                      -- every premise has a height by now
                      obtain ⟨-, -, hall⟩ := foldlM_survey
                        (fun q _ t t' hk hw => knowsLoose_of_survey hk hw) hmemo ht
                      obtain ⟨h, -, hh⟩ := exists_heightAbove (forall_of_zipIdx hall)
                      rw [hh]
                      exact failsOnly_ok _

/-! ## the other steps -/

theorem exists_showJudgement {j : Judgement} (h : g.Apt j) : ∃ s, g.showJudgement j = .ok s := by
  obtain ⟨s₁, h₁⟩ := exists_showEnv shown h.env h.kind
  obtain ⟨s₂, h₂⟩ := exists_showValue shown h.term
  obtain ⟨s₃, h₃⟩ := exists_showValue shown h.ty
  rw [showJudgement, h₁, ok_bind, h₂, ok_bind, h₃]
  exact ⟨_, rfl⟩

/-- A derivation that records something else than the target is rejected, with a message. -/
theorem checkConclusion_eq_reject {tree : Ref} {target j : Judgement}
    (hj : g.conclusion? tree = some j) (hapt : g.Apt j) (ht : g.Apt target)
    (hne : g.meets j ⟨.exactly target.env, target.term, .exactly target.ty⟩ = false) :
    ∃ m, g.checkConclusion tree target =
      .error (.reject ⟨.conclusionTargetMismatch, [], g.ruleOf? tree, m⟩) := by
  obtain ⟨s, hs⟩ := exists_showJudgement hapt
  obtain ⟨t, ht⟩ := exists_showJudgement ht
  refine ⟨"tree concludes " ++ s ++ ", target is " ++ t, ?_⟩
  unfold checkConclusion
  simp only [hj, hne, hs, ht, ok_bind]
  rfl

theorem checkConclusion_failsOnly {P : Failure → Prop} {tree : Ref} {target j : Judgement}
    (hj : g.conclusion? tree = some j) (hapt : g.Apt j) (ht : g.Apt target) :
    FailsOnly P (g.checkConclusion tree target) := by
  cases hm : g.meets j ⟨.exactly target.env, target.term, .exactly target.ty⟩ with
  | true =>
    unfold checkConclusion
    simp only [hj, hm, if_true]
    exact failsOnly_ok ()
  | false =>
    obtain ⟨m, he⟩ := checkConclusion_eq_reject hj hapt ht hm
    rw [he]
    exact failsOnly_reject _

section
variable {limits : Limits} {tree : Ref} {target : Judgement} {memo : Memo}
  (hm : g.checkTarget target = .ok memo)
include hm

theorem knowsLoose_of_checkTarget : g.KnowsLoose ⟨{}, memo⟩ := by
  have hempty : ∀ x, Memo.knows (some {}) x = true → g.Loose x := by
    intro x hx
    exact absurd hx (by simp [Memo.knows])
  obtain ⟨-, hloose⟩ := checkTarget_trusted g.trust_loose hempty (fun _ _ => trivial) hm
  exact ⟨hloose, fun x k hx => absurd hx (by simp)⟩

theorem checkRules_failsOnly {P : Failure → Prop} {s : Survey}
    (hs : g.survey limits.written limits.maxDepth [] {} tree ⟨{}, memo⟩ = .ok s) :
    FailsOnly P (g.checkRules limits.maxDepth [] tree target {}) := by
  refine FailsOnly.of_map (k := fun _ => ()) ?_
  rw [map_checkRules_eq_plainRules hm hs]
  exact fun f hf => absurd hf (plainRules_ne_failure hm hs f)

theorem checkConclusion_failsOnly_of_survey {P : Failure → Prop} {s : Survey}
    (hs : g.survey limits.written limits.maxDepth [] {} tree ⟨{}, memo⟩ = .ok s) :
    FailsOnly P (g.checkConclusion tree target) := by
  obtain ⟨-, ht, hn⟩ := looseIn_of_survey hm hs
  obtain ⟨R, j, ps, hnode, hj⟩ := hn tree .refl
  exact checkConclusion_failsOnly hnode.conclusion (apt_of_looseIn hj) (apt_of_looseIn ht)

end

/-- After a survey that passes, what is left of a check is the plain recursion and the comparison
with the target. -/
theorem checkSteps_eq_plainRules {limits : Limits} {tree : Ref} {target : Judgement} {memo : Memo}
    {s : Survey} (hm : g.checkTarget target = .ok memo)
    (hs : g.survey limits.written limits.maxDepth [] {} tree ⟨{}, memo⟩ = .ok s) :
    g.checkSteps limits tree target = (do
      g.plainRules limits.maxDepth [] tree target
      g.checkConclusion tree target) := by
  rw [checkSteps, hm, ← map_checkRules_eq_plainRules hm hs]
  show (g.survey _ _ _ _ _ _ >>= fun _ => _) = _
  rw [hs, ok_bind]
  cases g.checkRules limits.maxDepth [] tree target {} <;> rfl

/-- The steps of a check but the survey have an answer. -/
theorem checkSteps_failsOnly {P : Failure → Prop} (limits : Limits) {tree : Ref} {target : Judgement}
    (hP : ∀ memo, g.checkTarget target = .ok memo →
      FailsOnly P (g.survey limits.written limits.maxDepth [] {} tree ⟨{}, memo⟩)) :
    FailsOnly P (g.checkSteps limits tree target) := by
  rw [checkSteps]
  apply FailsOnly.bind
  · cases g.checkTarget target with
    | ok memo => exact failsOnly_ok memo
    | error r => exact failsOnly_reject r
  · intro memo hmemo
    have hm : g.checkTarget target = .ok memo := mapError_eq_ok.mp hmemo
    refine (hP memo hm).bind fun s hs => ?_
    exact (checkRules_failsOnly hm hs).bind fun _ _ => checkConclusion_failsOnly_of_survey hm hs

theorem checkSteps_of_check_error {limits : Limits} {tree : Ref} {target : Judgement} {f : Failure}
    (h : g.check limits tree target = .error f) :
    g.checkSteps limits tree target = .error (.failure f) := by
  unfold check at h
  split at h
  case h_1 => cases h
  case h_2 => cases h
  case h_3 e he => rw [he, Except.error.inj h]

/-- A check that fails comes to a value that it cannot write. -/
theorem unwritten_of_check {limits : Limits} {tree : Ref} {target : Judgement} {f : Failure}
    (h : g.check limits tree target = .error f) : g.Unwritten tree f :=
  checkSteps_failsOnly limits (fun _ hm => survey_failsOnly (knowsLoose_of_checkTarget hm)) f
    (checkSteps_of_check_error h)

/-- A value that is a rule can be written out. -/
theorem quote?_rule {r : Ref} {R : Rule} (h : g.get r = .rule R) : g.quote? r = .ok (g.quote r) := by
  rw [quote?, unwritten?]
  simp [h, Cell.kind, Kind.frames, frameLimit, Cell.refs, Cell.fields, Cell.items, Cell.entries]

/-- Where every node has a rule there is a verdict. -/
theorem exists_check (limits : Limits) {tree : Ref} (target : Judgement)
    (hrules : ∀ x, g.Below tree x → (g.get x).kind = .derivation → ∃ R, g.ruleOf? x = some R) :
    ∃ v, g.check limits tree target = .ok v := by
  cases hc : g.check limits tree target with
  | ok v => exact ⟨v, rfl⟩
  | error f =>
    obtain ⟨x, tag, c, p, hx, hget, htag⟩ := unwritten_of_check hc
    obtain ⟨R, hR⟩ := hrules x hx (by rw [hget]; rfl)
    simp only [ruleOf?, hget] at hR
    split at hR
    case h_1 hrule =>
      rw [quote?_rule hrule] at htag
      cases htag
    case h_2 => cases hR

/-! ## the exact condition -/

section
variable {limits : Limits} {tree : Ref} {target : Judgement} {f : Failure}

end

section
variable (n : Int)

end

end Graph

end NaturalDeduction

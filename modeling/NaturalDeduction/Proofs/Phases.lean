import NaturalDeduction.Proofs.Totality

/-!
# The steps of a check and their reasons

* `Reason.IsFormal`      a reason that is about the form of the input, not about rules;
* `survey_eq_reject`     a survey rejects the node it starts from, or goes wrong below a premise;
* `reject_of_survey`     what a survey rejects, whatever is in the graph, and what it says then;
* `fault_of_checkAt`     the check of a node rejects for a fault of the node;
* `exists_of_checkConclusion`   the last step rejects what records something else than the target;
* `reject_cases`         a rejection comes from one of these steps, and those before it pass;
* `Graph.WellRecorded`   the target and every sequent that a derivation records are well formed,
                         whatever else stands below it;
* `checkSteps_eq_plain`  a check is then the plain walk, the plain recursion and the comparison.
-/

namespace NaturalDeduction

/-- The reason is about the form of what is checked. -/
def Reason.IsFormal (r : Reason) : Prop := r = .malformedInput ∨ r = .malformedProofStructure

theorem RuleFault.not_isFormal (f : RuleFault) : ¬ f.reason.IsFormal := by
  rintro (h | h) <;> cases f <;> cases h

theorem RuleFault.reason_ne_mismatch (f : RuleFault) : f.reason ≠ .conclusionTargetMismatch := by
  cases f <;> exact nofun

theorem RuleFault.reason_of_reject {g : Graph} {R : Rule} {ps : List Ref} {path : Location}
    {f : RuleFault} {r : Reject} (h : f.reject g R ps path = .ok r) : r.reason = f.reason := by
  obtain ⟨m, -, h⟩ := bind_eq_ok.mp h
  split at h
  case h_1 i e =>
    split at h
    case h_1 => cases h
    case h_2 p hp =>
      obtain rfl := Except.ok.inj h
      rfl
  case h_2 =>
    obtain rfl := Except.ok.inj h
    rfl

theorem bind_eq_error {ε α β : Type} {x : Except ε α} {f : α → Except ε β} {e : ε} :
    x >>= f = .error e ↔ x = .error e ∨ ∃ a, x = .ok a ∧ f a = .error e := by
  cases x <;> simp [bind, Except.bind]

/-- A loop that fails does so at one of its elements. -/
theorem exists_of_foldlM_error {ε σ α : Type} {f : σ → α → Except ε σ} {l : List α} {s : σ} {e : ε}
    (h : l.foldlM f s = .error e) : ∃ a ∈ l, ∃ t, f t a = .error e := by
  induction l generalizing s with
  | nil => cases h
  | cons a l ih =>
    rw [List.foldlM_cons] at h
    rcases bind_eq_error.mp h with ha | ⟨t, -, h⟩
    · exact ⟨a, List.mem_cons_self, s, ha⟩
    · obtain ⟨b, hb, u, hu⟩ := ih h
      exact ⟨b, List.mem_cons_of_mem a hb, u, hu⟩

namespace Graph
variable {g : Graph} {tree : Ref} {target : Judgement} {r : Reject}

/-! ## reasons -/

theorem exists_of_checkTarget (h : g.checkTarget target = .error r) :
    ∃ m, r = malformedTarget m := by
  unfold checkTarget at h
  split at h
  case h_1 => exact ⟨_, (Except.error.inj h).symm⟩
  case h_2 =>
    split at h
    case h_1 => exact ⟨_, (Except.error.inj h).symm⟩
    case h_2 =>
      split at h
      case h_1 => exact ⟨_, (Except.error.inj h).symm⟩
      case h_2 => cases h

theorem isFormal_of_checkTarget (h : g.checkTarget target = .error r) : r.reason.IsFormal := by
  obtain ⟨m, rfl⟩ := exists_of_checkTarget h
  exact .inl rfl

/-- What a survey has against the node at `x` itself, which it meets at the end of `path`. -/
inductive Refusal (g : Graph) (written : String) (levels : Nat) (path : List Nat) (above : RefSet)
    (x : Ref) : Reject → Prop
  | kind (h : (g.get x).kind ≠ .derivation) : Refusal g written levels path above x
      ⟨.malformedProofStructure, .ofPath path, none,
        "expected a derivation, got " ++ (g.get x).kind.name⟩
  | loop (h : above.contains x = true) : Refusal g written levels path above x
      ⟨.malformedProofStructure, .ofPath path, none, "derivation contains itself"⟩
  | deep {hs : Heights} {below : Location} (h : g.deepest hs levels x = .ok below) :
      Refusal g written levels path above x
        ⟨.malformedProofStructure, Location.ofPath path ++ below, none,
          "derivation is deeper than " ++ written⟩
  | rule {R c p : Ref} (h : g.get x = .derivation R c p) : Refusal g written levels path above x
      ⟨.malformedProofStructure, .ofPath path, none, "unknown rule " ++ g.quote R⟩
  | premises : Refusal g written levels path above x
      ⟨.malformedProofStructure, .ofPath path, none, "premises must be a sequence of derivations"⟩
  | bytes {R c p : Ref} (h : g.get x = .derivation R c p) (hp : (g.get p).holdsBytes = true) :
      Refusal g written levels path above x
        ⟨.malformedProofStructure, Location.ofPath path ++ [0], none,
          "expected a derivation, got " ++ Kind.int.name⟩
  | conclusion {R : Rule} (h : g.ruleOf? x = some R) : Refusal g written levels path above x
      ⟨.malformedInput, .ofPath path, some R, "recorded conclusion is not a well-formed sequent"⟩

theorem unknownRule_eq_reject {location : Location} {R : Ref}
    (h : unknownRule location (g.quote? R) = .reject r) :
    ⟨.malformedProofStructure, location, none, "unknown rule " ++ g.quote R⟩ = r := by
  cases hR : g.quote? R with
  | ok s =>
    rw [hR] at h
    rw [← quote?_eq_ok hR]
    exact Stop.reject.inj h
  | error f =>
    rw [hR] at h
    cases h

/-- A survey rejects the node that it starts from, or a node below one of its premises. -/
theorem survey_eq_reject {written : String} {levels : Nat} {path : List Nat} {above : RefSet}
    {x : Ref} {s : Survey} (h : g.survey written levels path above x s = .error (.reject r)) :
    g.Refusal written levels path above x r ∨
      ∃ n, levels = n + 1 ∧ ∃ q ∈ (g.premisesOf x).zipIdx, ∃ t,
        g.survey written n (q.2 :: path) (above.insert x) q.1 t = .error (.reject r) := by
  have reject : ∀ {r'}, (.error (.reject r') : Except Stop Survey) = .error (.reject r) → r' = r :=
    fun h => Stop.reject.inj (Except.error.inj h)
  rw [survey] at h
  split at h
  case h_2 hx =>
    obtain rfl := reject h
    refine .inl (.kind fun hk => ?_)
    cases hc : g.get x <;> simp_all [Cell.kind]
  case h_1 tag c p hx =>
    split at h
    case isTrue ha =>
      obtain rfl := reject h
      exact .inl (.loop ha)
    case isFalse =>
      split at h
      case h_1 =>
        split at h
        case isFalse => cases h
        case isTrue =>
          split at h
          case h_1 => cases h
          case h_2 below hb =>
            obtain rfl := reject h
            exact .inl (.deep hb)
      case h_2 =>
        split at h
        case h_1 =>
          obtain rfl := reject h
          have hdeep : g.Refusal written 0 path above x ⟨.malformedProofStructure,
              Location.ofPath path ++ [], none, "derivation is deeper than " ++ written⟩ :=
            .deep (show g.deepest s.heights 0 x = .ok [] from rfl)
          rw [List.append_nil] at hdeep
          exact .inl hdeep
        case h_2 n =>
          split at h
          case h_2 =>
            obtain rfl := unknownRule_eq_reject (Except.error.inj h)
            exact .inl (.rule hx)
          case h_1 R hR =>
            split at h
            case h_2 =>
              obtain rfl := reject h
              exact .inl .premises
            case h_1 ps hps =>
              split at h
              case h_1 =>
                obtain rfl := reject h
                exact .inl (.conclusion (by simp [ruleOf?, hx, hR]))
              case h_2 memo _ =>
                split at h
                case isTrue hb =>
                  obtain rfl := reject h
                  exact .inl (.bytes hx hb)
                case isFalse =>
                  -- one of the premises, or a height that is not known
                  rcases bind_eq_error.mp h with h | ⟨t, -, h⟩
                  · obtain ⟨q, hq, t, ht⟩ := exists_of_foldlM_error h
                    have hitems : g.premisesOf x = ps := by
                      rw [premisesOf, hx]
                      exact Cell.items_of_sequence? hps
                    exact .inr ⟨n, rfl, q, hitems ▸ hq, t, ht⟩
                  · split at h <;> cases h

/-- What a survey says about a node without the shape of one. -/
inductive ShapeMessage (g : Graph) (written : String) : String → Prop
  | kind (k : Kind) : ShapeMessage g written ("expected a derivation, got " ++ k.name)
  | loop : ShapeMessage g written "derivation contains itself"
  | deep : ShapeMessage g written ("derivation is deeper than " ++ written)
  | rule (R : Ref) : ShapeMessage g written ("unknown rule " ++ g.quote R)
  | premises : ShapeMessage g written "premises must be a sequence of derivations"

/-- A survey rejects the shape of a node, or what a node records. -/
theorem reject_of_survey {written : String} {levels : Nat} :
    ∀ {path : List Nat} {above : RefSet} {x : Ref} {s : Survey},
      g.survey written levels path above x s = .error (.reject r) →
        (∃ l m, r = ⟨.malformedProofStructure, l, none, m⟩ ∧ g.ShapeMessage written m) ∨
          ∃ l R, r = ⟨.malformedInput, l, some R,
            "recorded conclusion is not a well-formed sequent"⟩ := by
  induction levels using Nat.strongRecOn with
  | ind levels ih =>
    intro path above x s h
    obtain h | ⟨n, rfl, q, -, t, h⟩ := survey_eq_reject h
    · cases h with
      | kind => exact .inl ⟨_, _, rfl, .kind _⟩
      | loop => exact .inl ⟨_, _, rfl, .loop⟩
      | deep => exact .inl ⟨_, _, rfl, .deep⟩
      | rule => exact .inl ⟨_, _, rfl, .rule _⟩
      | premises => exact .inl ⟨_, _, rfl, .premises⟩
      | bytes => exact .inl ⟨_, _, rfl, .kind _⟩
      | conclusion => exact .inr ⟨_, _, rfl⟩
    · exact ih n (Nat.lt_succ_self n) h

theorem isFormal_of_survey {written : String} {levels : Nat} {path : List Nat} {above : RefSet}
    {x : Ref} {s : Survey} (h : g.survey written levels path above x s = .error (.reject r)) :
    r.reason.IsFormal := by
  obtain ⟨l, m, rfl, -⟩ | ⟨l, R, rfl⟩ := reject_of_survey h
  · exact .inr rfl
  · exact .inl rfl

/-- The check of a node rejects for a fault of the node. -/
theorem fault_of_checkAt {path : List Nat} {x : Ref} {goal : Judgement}
    (h : g.checkAt path x goal = .error (.reject r)) :
    ∃ R f, g.ruleOf? x = some R ∧ g.checkNode R (g.premisesOf x) goal = .error (.fault f) ∧
      f.reject g R (g.premisesOf x) (.ofPath path) = .ok r := by
  unfold checkAt at h
  split at h
  case h_1 => cases h
  case h_2 R hR =>
    split at h
    case h_1 => cases h
    case h_2 f hf =>
      split at h
      case h_1 => cases h
      case h_2 r' hr =>
        obtain rfl : r' = r := by simpa using h
        exact ⟨R, f, hR, hf, hr⟩
    case h_3 => cases h

theorem reason_of_runsTo {path : List Nat} (h : g.RunsTo path tree target (.error (.reject r))) :
    ∃ f : RuleFault, r.reason = f.reason := by
  cases h with
  | fails _ _ he =>
    obtain ⟨R, f, -, -, hr⟩ := fault_of_checkAt he
    exact ⟨f, RuleFault.reason_of_reject hr⟩

theorem not_isFormal_of_runsTo {path : List Nat}
    (h : g.RunsTo path tree target (.error (.reject r))) : ¬ r.reason.IsFormal := by
  obtain ⟨f, hf⟩ := reason_of_runsTo h
  rw [hf]
  exact f.not_isFormal

/-- The last step rejects a derivation that records something else than the target. -/
theorem exists_of_checkConclusion (h : g.checkConclusion tree target = .error (.reject r)) :
    ∃ j m, g.conclusion? tree = some j ∧
      g.meets j ⟨.exactly target.env, target.term, .exactly target.ty⟩ = false ∧
      r = ⟨.conclusionTargetMismatch, [], g.ruleOf? tree, m⟩ := by
  unfold checkConclusion at h
  split at h
  case h_1 => cases h
  case h_2 j hj =>
    split at h
    case isTrue => cases h
    case isFalse hm =>
      simp only at h
      split at h
      case h_1 => cases h
      case h_2 m _ =>
        refine ⟨j, m, hj, by simpa using hm, ?_⟩
        exact (Stop.reject.inj (Except.error.inj h)).symm

theorem not_isFormal_of_checkConclusion (h : g.checkConclusion tree target = .error (.reject r)) :
    ¬ r.reason.IsFormal := by
  obtain ⟨j, m, -, -, rfl⟩ := exists_of_checkConclusion h
  rintro (h | h) <;> cases h

/-- The steps of a check that may reject: the target, the shape, the rules, the conclusion. -/
theorem reject_cases {limits : Limits} (h : g.check limits tree target = .ok (.reject r)) :
    g.checkTarget target = .error r ∨
      ∃ memo, g.checkTarget target = .ok memo ∧
        (g.survey limits.written limits.maxDepth [] {} tree ⟨{}, memo⟩ = .error (.reject r) ∨
          ∃ s, g.survey limits.written limits.maxDepth [] {} tree ⟨{}, memo⟩ = .ok s ∧
            (g.plainRules limits.maxDepth [] tree target = .error (.reject r) ∨
              g.plainRules limits.maxDepth [] tree target = .ok () ∧
                g.checkConclusion tree target = .error (.reject r))) := by
  have hsteps : g.checkSteps limits tree target = .error (.reject r) := by
    unfold check at h
    split at h <;> simp_all
  cases hm : g.checkTarget target with
  | error r' =>
    rw [checkSteps, hm] at hsteps
    obtain rfl : r' = r := Stop.reject.inj (Except.error.inj hsteps)
    exact .inl rfl
  | ok memo =>
    refine .inr ⟨memo, rfl, ?_⟩
    cases hs : g.survey limits.written limits.maxDepth [] {} tree ⟨{}, memo⟩ with
    | error e =>
      rw [checkSteps, hm] at hsteps
      have hbind : (g.survey limits.written limits.maxDepth [] {} tree ⟨{}, memo⟩ >>= fun _ => _) =
        .error (.reject r) := hsteps
      rw [hs] at hbind
      obtain rfl : e = .reject r := Except.error.inj hbind
      exact .inl rfl
    | ok s =>
      rw [checkSteps_eq_plainRules hm hs] at hsteps
      refine .inr ⟨s, rfl, ?_⟩
      obtain hrules | ⟨⟨⟩, hrules, hend⟩ := bind_eq_error.mp hsteps
      · exact .inl hrules
      · exact .inr ⟨hrules, hend⟩

/-! ## recorded sequents -/

/-- The target and every sequent that a node of the derivation records are well formed, asked
without a memo. Other values than derivations may stand below it. -/
structure WellRecorded (g : Graph) (tree : Ref) (target : Judgement) : Prop where
  env : (g.envOk none target.env).1 = true
  term : (g.termFault none target.term).1 = none
  ty : (g.typeFault none target.ty).1 = none
  nodes : ∀ x, g.Below tree x → (g.get x).kind = .derivation → g.conclusionOk x = true

section
variable (hw : g.WellRecorded tree target)
include hw

theorem WellRecorded.wellStated : g.WellStated target :=
  ⟨envOk_none_iff.mp hw.env, termFault_none_iff.mp hw.term, typeFault_none_iff.mp hw.ty⟩

theorem WellRecorded.conclusion {x : Ref} (hx : g.Below tree x) {j : Judgement}
    (hj : g.conclusion? x = some j) : g.WellStated j := by
  have hk : (g.get x).kind = .derivation := by
    unfold conclusion? at hj
    cases hc : g.get x <;> simp_all [Cell.kind]
  obtain ⟨i, hi, hi'⟩ := conclusionOk_iff.mp (hw.nodes x hx hk)
  obtain rfl := Option.some.inj (hi.symm.trans hj)
  exact hi'

theorem WellRecorded.rolesApart : g.RolesApart tree target := by
  refine rolesApart_of_wellStated fun j hj => ?_
  rcases hj with rfl | ⟨x, hx, hj⟩
  · exact hw.wellStated
  · exact hw.conclusion hx hj

/-- **A check without memory.** -/
theorem checkSteps_eq_plain (limits : Limits) :
    g.checkSteps limits tree target = (do
      g.plainSurvey limits.written limits.maxDepth [] [] tree
      g.plainRules limits.maxDepth [] tree target
      g.checkConclusion tree target) := by
  obtain ⟨memo, hm⟩ := exists_checkTarget hw.wellStated
  obtain ⟨s, hs, hwalk⟩ | ⟨e, hs, hwalk⟩ :=
    map_unit_eq.mp (map_survey_of_rolesApart limits hw.rolesApart hm)
  · rw [checkSteps_eq_plainRules hm hs, hwalk, ok_bind]
  · rw [checkSteps, hm, hwalk]
    show (g.survey _ _ _ _ _ _ >>= fun _ => _) = _
    rw [hs]
    rfl

end

end Graph

end NaturalDeduction

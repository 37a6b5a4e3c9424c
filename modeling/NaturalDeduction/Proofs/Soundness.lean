import NaturalDeduction.Proofs.PlainSurvey
import NaturalDeduction.Proofs.RuleTable

/-!
# What an accepted derivation shows

* `Graph.Passes`          a node passes the check of its rule for a goal;
* `checkRules_covers`     a run over the rules that passes has checked every node that it has seen,
                          and has seen the premises of each;
* `check_eq_accept`       the four steps of a check that accepts;
* `check_sound`           an accepted derivation is finite, every node of it is in the rule table,
                          and its target can be derived;
* `grammatical_iff_rolesApart`   it is well formed throughout exactly if no value occurs in it in
                          two roles.
-/

namespace NaturalDeduction

namespace Graph
variable {g : Graph}

/-- The node at `x` passes the check of its rule for a goal. -/
def Passes (g : Graph) (x : Ref) (goal : Judgement) : Prop :=
  ∃ R, g.ruleOf? x = some R ∧ g.checkNode R (g.premisesOf x) goal = .ok ()

/-- The check of a premise against the conclusion that it records. -/
def checkPremise (g : Graph) (n : Nat) (path : List Nat) (seen : RefSet) (q : Ref × Nat) :
    Except Stop RefSet :=
  match g.conclusion? q.1 with
  | none => .error (.failure .noPart)
  | some j => g.checkRules n (q.2 :: path) q.1 j seen

theorem checkRules_of_contains {n : Nat} {path : List Nat} {r : Ref} {goal : Judgement}
    {seen : RefSet} (h : seen.contains r = true) :
    g.checkRules (n + 1) path r goal seen = .ok seen := by
  rw [checkRules, if_pos h]

theorem checkRules_of_passes {n : Nat} {path : List Nat} {r : Ref} {goal : Judgement}
    {seen : RefSet} (hr : ¬ seen.contains r = true) (h : g.Passes r goal) :
    g.checkRules (n + 1) path r goal seen =
      (g.premisesOf r).zipIdx.foldlM (g.checkPremise n path) (seen.insert r) := by
  obtain ⟨R, hR, hc⟩ := h
  rw [checkRules, if_neg hr]
  simp only [hR, hc]
  rfl

theorem passes_of_checkRules {n : Nat} {path : List Nat} {r : Ref} {goal : Judgement}
    {seen seen' : RefSet} (hr : ¬ seen.contains r = true)
    (h : g.checkRules (n + 1) path r goal seen = .ok seen') : g.Passes r goal := by
  rw [checkRules, if_neg hr] at h
  split at h
  case h_1 => exact absurd h (by simp)
  case h_2 R hR =>
    simp only at h
    split at h
    case h_1 => exact absurd h (by simp)
    case h_2 => split at h <;> exact absurd h (by simp)
    case h_3 hc => exact ⟨R, hR, hc⟩

/-! ## a run over the rules -/

section
variable {D : Ref → Prop}

/-- The nodes that have been added have `D`, and their premises have been seen as well. -/
structure Covers (g : Graph) (D : Ref → Prop) (seen seen' : RefSet) : Prop where
  keep : ∀ x, seen.contains x = true → seen'.contains x = true
  new : ∀ x, seen'.contains x = true → seen.contains x = true ∨
    D x ∧ ∀ p ∈ g.premisesOf x, seen'.contains p = true

theorem Covers.refl (seen : RefSet) : g.Covers D seen seen := ⟨fun _ h => h, fun _ h => .inl h⟩

theorem Covers.trans {s t u : RefSet} (h : g.Covers D s t) (h' : g.Covers D t u) :
    g.Covers D s u := by
  refine ⟨fun x hx => h'.keep x (h.keep x hx), fun x hx => ?_⟩
  rcases h'.new x hx with hx | hx
  · rcases h.new x hx with hx | ⟨hd, hp⟩
    · exact .inl hx
    · exact .inr ⟨hd, fun p hm => h'.keep p (hp p hm)⟩
  · exact .inr hx

/-- A node is added once all its premises have been. -/
theorem Covers.insert {seen seen' : RefSet} {r : Ref} (h : g.Covers D (seen.insert r) seen')
    (hd : D r) (hp : ∀ p ∈ g.premisesOf r, seen'.contains p = true) : g.Covers D seen seen' := by
  refine ⟨fun x hx => h.keep x (RefSet.contains_insert_iff.mpr (.inr hx)), fun x hx => ?_⟩
  rcases h.new x hx with hx | hx
  · rcases RefSet.contains_insert_iff.mp hx with rfl | hx
    · exact .inr ⟨hd, hp⟩
    · exact .inl hx
  · exact .inr hx

/-- **A run over the rules that passes**: the nodes that it adds have passed, each for the sequent
that it records, except for the node that it starts from. -/
theorem checkRules_covers (hD : ∀ x j, g.conclusion? x = some j → g.Passes x j → D x) {n : Nat} :
    ∀ {path : List Nat} {r : Ref} {goal : Judgement} {seen seen' : RefSet}, g.Shallow n r →
      (g.Passes r goal → D r) → g.checkRules n path r goal seen = .ok seen' →
      g.Covers D seen seen' ∧ seen'.contains r = true := by
  induction n with
  | zero =>
    intro path r goal seen seen' hs _ _
    cases hs
  | succ n ih =>
    intro path r goal seen seen' hs hgoal h
    by_cases hr : seen.contains r = true
    · rw [checkRules_of_contains hr] at h
      obtain rfl := Except.ok.inj h
      exact ⟨.refl _, hr⟩
    · have hpass : g.Passes r goal := passes_of_checkRules hr h
      rw [checkRules_of_passes hr hpass] at h
      have step : ∀ q ∈ (g.premisesOf r).zipIdx, ∀ s s', g.checkPremise n path s q = .ok s' →
          g.Covers D s s' ∧ s'.contains q.1 = true := by
        intro q hq s s' hs'
        unfold checkPremise at hs'
        split at hs'
        case h_1 => exact absurd hs' (by simp)
        case h_2 j hj => exact ih (hs.premise (mem_of_mem_zipIdx hq)) (hD q.1 j hj) hs'
      obtain ⟨-, hc, hps⟩ := foldlM_steps (I := fun _ => True) (P := fun q s => s.contains q.1 = true)
        Covers.refl (fun _ _ _ => Covers.trans) (fun q _ _ he => he.keep q.1)
        (fun q hq s s' _ hs' => ⟨trivial, step q hq s s' hs'⟩) trivial h
      exact ⟨hc.insert (hgoal hpass) (forall_of_zipIdx hps),
        hc.keep r (RefSet.contains_insert_iff.mpr (.inl rfl))⟩

/-- From nothing, every node below one that has been seen has `D`. -/
theorem Covers.below {seen : RefSet} (h : g.Covers D {} seen) {r x : Ref}
    (hr : seen.contains r = true) (hx : g.Below r x) : D x := by
  have hnew : ∀ y, seen.contains y = true → D y ∧ ∀ p ∈ g.premisesOf y, seen.contains p = true :=
    fun y hy => (h.new y hy).resolve_left RefSet.contains_empty
  have hseen : seen.contains x = true := by
    induction hx with
    | refl => exact hr
    | tail _ hp ih => exact (hnew _ ih).2 _ hp
  exact (hnew x hseen).1

end

/-! ## the four steps -/

section
variable {limits : Limits} {tree : Ref} {target : Judgement}

theorem checkConclusion_eq_ok_iff : g.checkConclusion tree target = .ok () ↔
    ∃ j, g.conclusion? tree = some j ∧ g.same j.env target.env = true ∧
      g.same j.term target.term = true ∧ g.same j.ty target.ty = true := by
  unfold checkConclusion
  split
  case h_1 h => simp [h]
  case h_2 j h =>
    have hm : g.meets j ⟨.exactly target.env, target.term, .exactly target.ty⟩ = true ↔
        g.same j.env target.env = true ∧ g.same j.term target.term = true ∧
          g.same j.ty target.ty = true := by
      simp [meets, hasBindings, hasForm, and_assoc]
    by_cases hj : g.meets j ⟨.exactly target.env, target.term, .exactly target.ty⟩ = true
    · rw [if_pos hj]
      exact iff_of_true rfl ⟨j, h, hm.mp hj⟩
    · rw [if_neg hj]
      refine iff_of_false ?_ ?_
      · simp only
        split <;> simp
      · rintro ⟨i, hi, h'⟩
        obtain rfl := Option.some.inj (h.symm.trans hi)
        exact hj (hm.mpr h')

/-- A check accepts if all of its four steps pass. -/
theorem check_eq_accept : g.check limits tree target = .ok .accept ↔
    ∃ memo s seen, g.checkTarget target = .ok memo ∧
      g.survey limits.written limits.maxDepth [] {} tree ⟨{}, memo⟩ = .ok s ∧
      g.checkRules limits.maxDepth [] tree target {} = .ok seen ∧
      g.checkConclusion tree target = .ok () := by
  have hcheck : g.check limits tree target = .ok .accept ↔
      g.checkSteps limits tree target = .ok () := by
    unfold check
    split <;> simp_all
  have htarget : ∀ m, (g.checkTarget target).mapError Stop.reject = .ok m ↔
      g.checkTarget target = .ok m := by
    intro m
    cases g.checkTarget target <;> simp [Except.mapError]
  rw [hcheck, checkSteps]
  simp only [bind_eq_ok, htarget]
  constructor
  · rintro ⟨memo, hm, s, hs, seen, hr, hc⟩
    exact ⟨memo, s, seen, hm, hs, hr, hc⟩
  · rintro ⟨memo, s, seen, hm, hs, hr, hc⟩
    exact ⟨memo, hm, s, hs, seen, hr, hc⟩

/-- What a survey that passes shows of a derivation, given what stands behind its memo. -/
theorem surveyed_of_survey {U Q : Role → Ref → Prop} {I : Memo → Prop} (T : g.Trust U Q I)
    (h₀ : I (some {})) (hU : ∀ j, g.Stated tree target j → ∀ p ∈ j.roots, U p.1 p.2) {memo : Memo}
    (hm : g.checkTarget target = .ok memo) {s : Survey}
    (hs : g.survey limits.written limits.maxDepth [] {} tree ⟨{}, memo⟩ = .ok s) :
    g.Shallow limits.maxDepth tree ∧ (∀ p ∈ target.roots, Q p.1 p.2) ∧
      ∀ x, g.Below tree x → ∃ R j ps, g.IsNode x R j ps ∧ ∀ p ∈ j.roots, Q p.1 p.2 := by
  obtain ⟨hq, hI⟩ := checkTarget_trusted T h₀ (hU target (.inl rfl)) hm
  have hempty : g.Surveyed Q {} := fun x k hx => absurd hx (by simp)
  obtain ⟨hk, -, k, hk', hlt⟩ := survey_surveyed T
    (fun x j hx hj => hU j (.inr ⟨x, hx, hj⟩)) .refl ⟨hI, hempty⟩ hs
  refine ⟨hk.heights.shallow hk' hlt, hq, fun x hx => ?_⟩
  obtain ⟨l, hl, -⟩ := hk.heights.below hk' hx
  obtain ⟨R, j, ps, hn, hj, -⟩ := hk.heights x l hl
  exact ⟨R, j, ps, hn, hj⟩

/-- The same for an accepted derivation. -/
theorem surveyed_of_accept {U Q : Role → Ref → Prop} {I : Memo → Prop} (T : g.Trust U Q I)
    (h₀ : I (some {})) (hU : ∀ j, g.Stated tree target j → ∀ p ∈ j.roots, U p.1 p.2)
    (h : g.check limits tree target = .ok .accept) :
    g.Shallow limits.maxDepth tree ∧ (∀ p ∈ target.roots, Q p.1 p.2) ∧
      ∀ x, g.Below tree x → ∃ R j ps, g.IsNode x R j ps ∧ ∀ p ∈ j.roots, Q p.1 p.2 := by
  obtain ⟨memo, s, -, hm, hs, -, -⟩ := check_eq_accept.mp h
  exact surveyed_of_survey T h₀ hU hm hs

/-! ## soundness -/

/-- A derivation of finite depth whose nodes are in the rule table derives what it records. -/
theorem derives_of_shallow {n : Nat} {x : Ref} (hs : g.Shallow n x)
    (hn : ∀ y, g.Below x y → ∃ R j ps, g.IsNode y R j ps ∧ g.Fits R ps j) {s : Statement}
    (hx : g.Records x s) : Derives s := by
  induction hs generalizing s with
  | @node n x _ ih =>
    obtain ⟨R, j, ps, hnode, ss, hps, hi⟩ := hn x .refl
    obtain ⟨i, hc, rfl⟩ := hx
    obtain rfl := hnode.eq_of_conclusion hc
    refine .apply hi fun t ht => ?_
    obtain ⟨k, hk, rfl⟩ := List.getElem_of_mem ht
    have hk' : k < ps.length := hps.length_eq ▸ hk
    have hp : ps[k] ∈ g.premisesOf x := hnode.premisesOf ▸ List.getElem_mem hk'
    exact ih _ hp (fun y hy => hn y (hy.head hp)) (hps.get hk' hk)

theorem Loose.of_uses {p q : Role × Ref} (hp : g.Loose p.2) (h : g.Uses p q) : g.Loose q.2 := by
  induction h with
  | refl => exact hp
  | tail _ hq ih => exact ih.part (Role.mem_parts.mp hq).2

/-- What passes a survey can be compared. -/
theorem looseIn_of_survey {memo : Memo} (hm : g.checkTarget target = .ok memo) {s : Survey}
    (hs : g.survey limits.written limits.maxDepth [] {} tree ⟨{}, memo⟩ = .ok s) :
    g.Shallow limits.maxDepth tree ∧ (∀ p ∈ target.roots, g.LooseIn p.1 p.2) ∧
      ∀ x, g.Below tree x → ∃ R j ps, g.IsNode x R j ps ∧ ∀ p ∈ j.roots, g.LooseIn p.1 p.2 :=
  surveyed_of_survey g.trust_loose (fun _ hr => absurd hr (by simp [Memo.knows]))
    (fun _ _ _ _ => trivial) hm hs

theorem looseIn_of_accept (h : g.check limits tree target = .ok .accept) :
    g.Shallow limits.maxDepth tree ∧ (∀ p ∈ target.roots, g.LooseIn p.1 p.2) ∧
      ∀ x, g.Below tree x → ∃ R j ps, g.IsNode x R j ps ∧ ∀ p ∈ j.roots, g.LooseIn p.1 p.2 := by
  obtain ⟨memo, s, -, hm, hs, -, -⟩ := check_eq_accept.mp h
  exact looseIn_of_survey hm hs

/-- Whatever an accepted derivation is about can be compared. -/
theorem loose_of_occurs (h : g.check limits tree target = .ok .accept) {ρ : Role} {r : Ref}
    (hr : g.Occurs tree target ρ r) : g.Loose r := by
  obtain ⟨-, ht, hn⟩ := looseIn_of_accept h
  obtain ⟨j, hj, p, hp, hu⟩ := hr
  have hq : g.LooseIn p.1 p.2 := by
    rcases hj with rfl | ⟨x, hx, hj⟩
    · exact ht p hp
    · obtain ⟨R, i, ps, hnode, hi⟩ := hn x hx
      obtain rfl := hnode.eq_of_conclusion hj
      exact hi p hp
  exact hq.1.of_uses hu

/-- The root of an accepted derivation records what the target states. -/
theorem records_of_accept (h : g.check limits tree target = .ok .accept) :
    g.Records tree (g.statement target) := by
  obtain ⟨-, ht, hn⟩ := looseIn_of_accept h
  obtain ⟨-, -, -, -, -, -, hc⟩ := check_eq_accept.mp h
  obtain ⟨j, hj, hsame⟩ := checkConclusion_eq_ok_iff.mp hc
  obtain ⟨R, i, ps, hnode, hi⟩ := hn tree .refl
  obtain rfl := hnode.eq_of_conclusion hj
  exact ⟨i, hj, (statement_eq_iff (apt_of_looseIn hi) (apt_of_looseIn ht)).mpr hsame⟩

/-- The nodes of an accepted derivation are in the rule table. -/
theorem fits_of_accept (h : g.check limits tree target = .ok .accept) {x : Ref}
    (hx : g.Below tree x) : ∃ R j ps, g.IsNode x R j ps ∧ g.Fits R ps j := by
  obtain ⟨hs, ht, hn⟩ := looseIn_of_accept h
  have htarget : g.Apt target := apt_of_looseIn ht
  have hapt : ∀ y, g.Below tree y → ∀ j, g.conclusion? y = some j → g.Apt j := by
    intro y hy j hj
    obtain ⟨R, i, ps, hnode, hi⟩ := hn y hy
    obtain rfl := hnode.eq_of_conclusion hj
    exact apt_of_looseIn hi
  obtain ⟨-, -, seen, -, -, hr, -⟩ := check_eq_accept.mp h
  obtain ⟨hcov, hseen⟩ := checkRules_covers
    (D := fun y => ∃ j, (y = tree ∧ j = target ∨ g.conclusion? y = some j) ∧ g.Passes y j)
    (fun y j hj hp => ⟨j, .inr hj, hp⟩) hs (fun hp => ⟨target, .inl ⟨rfl, rfl⟩, hp⟩) hr
  obtain ⟨R, j, ps, hnode, -⟩ := hn x hx
  obtain ⟨i, hi, R', hR', hpass⟩ := hcov.below hseen hx
  obtain rfl : R = R' := Option.some.inj (hnode.rule.symm.trans hR')
  rw [hnode.premisesOf] at hpass
  have hps : ∀ p ∈ ps, ∀ i, g.conclusion? p = some i → g.Apt i :=
    fun p hp => hapt p (hx.tail (hnode.premisesOf ▸ hp))
  refine ⟨R, j, ps, hnode, ?_⟩
  rcases hi with ⟨rfl, rfl⟩ | hi
  · -- the root has been checked for the target, which stands for what it records
    obtain ⟨i, hi, hroot⟩ := records_of_accept h
    obtain rfl := hnode.eq_of_conclusion hi
    rw [Fits, hroot]
    exact (checkNode_eq_ok_iff htarget hps).mp hpass
  · obtain rfl := hnode.eq_of_conclusion hi
    exact (checkNode_eq_ok_iff (hapt x hx j hi) hps).mp hpass

theorem derives_of_accept (h : g.check limits tree target = .ok .accept) :
    Derives (g.statement target) :=
  derives_of_shallow (looseIn_of_accept h).1 (fun _ hx => fits_of_accept h hx)
    (records_of_accept h)

end

/-- **Soundness.** An accepted derivation is no deeper than the limit, every node of it has a rule
and as many premises as the rule takes and is in the rule table, its root records the same as the
target, and the target can be derived. What the table says of equal values is said of values that
are the same. -/
theorem check_sound (limits : Limits) {tree : Ref} {target : Judgement}
    (h : g.check limits tree target = .ok .accept) :
    g.Shallow limits.maxDepth tree ∧
      (∀ x, g.Below tree x →
        ∃ R j ps, g.IsNode x R j ps ∧ ps.length = R.arity ∧ g.Fits R ps j) ∧
      (∃ j, g.conclusion? tree = some j ∧ g.same j.env target.env = true ∧
        g.same j.term target.term = true ∧ g.same j.ty target.ty = true) ∧
      (∀ ρ σ a b, g.Occurs tree target ρ a → g.Occurs tree target σ b →
        (g.same a b = true ↔ g.value a = g.value b)) ∧
      Derives (g.statement target) := by
  obtain ⟨-, -, -, -, -, -, hc⟩ := check_eq_accept.mp h
  obtain ⟨j, hj, hsame⟩ := checkConclusion_eq_ok_iff.mp hc
  refine ⟨(looseIn_of_accept h).1, fun x hx => ?_, ⟨j, hj, hsame⟩, fun ρ σ a b ha hb => ?_,
    derives_of_accept h⟩
  · obtain ⟨R, j, ps, hnode, ss, hr, hi⟩ := fits_of_accept h hx
    exact ⟨R, j, ps, hnode, hr.length_eq.trans hi.length, ss, hr, hi⟩
  · exact same_iff (loose_of_occurs h ha) (loose_of_occurs h hb)

/-- A derivation of `{} ⊢ λx:P. x : P → P`; the bound variable has its type from another cell than
the function type. -/
def identity : Graph where
  cells := #[.text "x", .text "P", .base 1, .base 1, .env [], .env [(0, 2)], .var 0, .lambda 0 2 6,
    .arrow 3 3, .sequent 5 6 3, .rule .assm, .tuple [], .derivation 10 9 11, .sequent 4 7 8,
    .rule .lambdaIntro, .list [12], .derivation 14 13 15]
  below := by decide
  apart := by decide

theorem derives_identity : identity.check .default 16 ⟨4, 7, 8⟩ = .ok .accept ∧
    Derives (identity.statement ⟨4, 7, 8⟩) := by
  have h : identity.check .default 16 ⟨4, 7, 8⟩ = .ok .accept := by decide +kernel
  exact ⟨h, (check_sound .default h).2.2.2.2⟩

/-! ## what the memo hides -/

section
variable {tree : Ref} {target : Judgement}

/-- Whether the node at `x` records a well-formed sequent, asked without a memo. -/
def conclusionOk (g : Graph) (x : Ref) : Bool :=
  match g.get x with
  | .derivation _ c _ => (g.sequentOk none c).1
  | _ => false

/-- The target and every recorded sequent are well formed, asked without a memo. -/
structure Grammatical (g : Graph) (tree : Ref) (target : Judgement) : Prop where
  env : (g.envOk none target.env).1 = true
  term : (g.termFault none target.term).1 = none
  ty : (g.typeFault none target.ty).1 = none
  nodes : ∀ x, g.Below tree x → g.conclusionOk x = true

theorem conclusionOk_iff {x : Ref} :
    g.conclusionOk x = true ↔ ∃ j, g.conclusion? x = some j ∧ g.WellStated j := by
  unfold conclusionOk conclusion?
  cases g.get x with
  | derivation tag c p => exact sequentOk_none_iff
  | _ => simp

theorem Grammatical.wellStated (h : g.Grammatical tree target) {j : Judgement}
    (hj : g.Stated tree target j) : g.WellStated j := by
  rcases hj with rfl | ⟨x, hx, hj⟩
  · exact ⟨envOk_none_iff.mp h.env, termFault_none_iff.mp h.term, typeFault_none_iff.mp h.ty⟩
  · obtain ⟨i, hi, hw⟩ := conclusionOk_iff.mp (h.nodes x hx)
    exact Option.some.inj (hi.symm.trans hj) ▸ hw

theorem Grammatical.rolesApart (h : g.Grammatical tree target) : g.RolesApart tree target :=
  rolesApart_of_wellStated fun _ => h.wellStated

/-- **What the memo hides.** Everything in an accepted derivation and its target is well formed, as
asked without a memo, exactly if no value occurs in two roles. -/
theorem grammatical_iff_rolesApart (limits : Limits)
    (h : g.check limits tree target = .ok .accept) :
    g.Grammatical tree target ↔ g.RolesApart tree target := by
  refine ⟨fun hg => hg.rolesApart, fun hr => ?_⟩
  obtain ⟨-, ht, hn⟩ := surveyed_of_accept (trust_backed hr) backed_empty
    (fun j hj p hp => hj.occurs hp) h
  obtain ⟨he, htm, hty⟩ : g.WellFormed .env target.env ∧ g.WellFormed .term target.term ∧
      g.WellFormed .type target.ty := by
    simpa [Judgement.roots] using ht
  refine ⟨envOk_none_iff.mpr he, termFault_none_iff.mpr htm, typeFault_none_iff.mpr hty,
    fun x hx => ?_⟩
  obtain ⟨R, j, ps, hnode, hj⟩ := hn x hx
  exact conclusionOk_iff.mpr ⟨j, hnode.conclusion, by simpa [Judgement.roots, WellStated] using hj⟩

end

/-- A derivation of `{x : P} ⊢ inl x : P + x`, where the term and the type share the variable. -/
def sharedVariable : Graph where
  cells := #[.text "x", .text "P", .base 1, .env [(0, 2)], .var 0, .inl 4, .sum 2 4, .sequent 3 4 2,
    .rule .assm, .tuple [], .derivation 8 7 9, .sequent 3 5 6, .rule .inlIntro, .tuple [10],
    .derivation 12 11 13]
  below := by decide
  apart := by decide

/-- The derivation is accepted, although its type is malformed. -/
theorem accept_sharedVariable :
    sharedVariable.check .default 14 ⟨3, 5, 6⟩ = .ok .accept ∧
      (sharedVariable.typeFault none 6).1 = some [.right] ∧
      sharedVariable.conclusionOk 14 = false := by
  refine ⟨?_, ?_, ?_⟩ <;> decide +kernel

theorem not_rolesApart_sharedVariable :
    sharedVariable.check .default 14 ⟨3, 5, 6⟩ = .ok .accept ∧
      ¬ sharedVariable.RolesApart 14 ⟨3, 5, 6⟩ := by
  have h : sharedVariable.check .default 14 ⟨3, 5, 6⟩ = .ok .accept := by decide +kernel
  refine ⟨h, fun hr => ?_⟩
  have hty := ((grammatical_iff_rolesApart .default h).mpr hr).ty
  have hfault : (sharedVariable.typeFault none 6).1 = some [.right] := by decide +kernel
  exact absurd (hfault.symm.trans hty) (by simp)

end Graph

end NaturalDeduction

import NaturalDeduction.Proofs.Totality

/-!
# Forged nodes

A derivation that is accepted, with another node put in at one position and copies of the nodes
above it.

* `Graph.Replaces`        the two derivations: all they show away from the position is the same;
* `exists_survey_of_replaces`   a new node with the old premises leaves nothing to a survey;
* `check_eq_reject_of_first`    the first node in pre-order that has a fault decides the verdict;
* `Altered.checkNode`     the rule of a node notices what one of its premises records;
* `checkNode_of_kind_ne`, `checkNode_of_length_ne`   a rule notices the wrong kind of term before
                          anything else, and then the wrong number of premises;
* `check_forged_conclusion`, `check_forged_node`   a forgery is rejected where it was made.
-/

namespace NaturalDeduction

attribute [ext] Statement

/-- A form other than `any` is that of one type. -/
theorem TypeForm.Holds.unique {g : Graph} {f : TypeForm} (hf : f ≠ .any) {A B : Value}
    (hA : f.Holds g A) (hB : f.Holds g B) : A = B := by
  cases f with
  | any => exact absurd rfl hf
  | _ => exact Eq.trans hA (Eq.symm hB)

/-- A rule is known by the terms that it is about. -/
theorem Rule.termKind_injective : Function.Injective Rule.termKind := by
  intro R S h
  cases R <;> cases S <;> first | rfl | cases h

namespace Graph
variable {g : Graph}

/-- The derivation at the end is the one before it with the node `n` in place of the node `x` at a
position; the nodes above are copied. -/
inductive Replaces (g : Graph) (x n : Ref) : List Nat → Ref → Ref → Prop
  | here : Replaces g x n [] x n
  | copy {i : Nat} {p : List Nat} {y y' z z' : Ref} {R : Rule} {j : Judgement} {ps : List Ref}
      (hy : g.IsNode y R j ps) (hy' : g.IsNode y' R j (ps.set i z')) (hz : ps[i]? = some z)
      (h : Replaces g x n p z z') : Replaces g x n (i :: p) y y'

/-! ## positions -/

section
variable {x n tree tree' : Ref} {p : List Nat} (h : g.Replaces x n p tree tree')
include h

theorem Replaces.nodeAt? : g.nodeAt? tree p = some x ∧ g.nodeAt? tree' p = some n := by
  induction h with
  | here => exact ⟨rfl, rfl⟩
  | @copy i p y y' z z' R j ps hy hy' hz _ ih =>
    have hi : i < ps.length := (List.getElem?_eq_some_iff.mp hz).1
    rw [← hy.premisesOf] at hz
    have hz' : (g.premisesOf y')[i]? = some z' := by
      rw [hy'.premisesOf, List.getElem?_set_self hi]
    rw [nodeAt?_cons hz, nodeAt?_cons hz']
    exact ih

/-- What stands neither at the position nor below it is as it was. -/
theorem Replaces.labelAt? {q : List Nat} (hq : ¬ p <+: q) :
    g.labelAt? tree q = g.labelAt? tree' q := by
  induction h generalizing q with
  | here => exact absurd (List.nil_prefix) hq
  | @copy i p y y' z z' R j ps hy hy' hz _ ih =>
    have hi : i < ps.length := (List.getElem?_eq_some_iff.mp hz).1
    cases q with
    | nil =>
      show some (g.label y) = some (g.label y')
      rw [label, label, hy.rule, hy'.rule, hy.conclusion, hy'.conclusion]
    | cons k q =>
      have hset : (g.premisesOf y')[k]? = if i = k then some z' else (g.premisesOf y)[k]? := by
        rw [hy.premisesOf, hy'.premisesOf, List.getElem?_set]
        simp only [hi, if_true]
      unfold Graph.labelAt?
      by_cases hk : i = k
      · subst hk
        rw [if_pos rfl] at hset
        rw [← hy.premisesOf] at hz
        rw [nodeAt?_cons hz, nodeAt?_cons hset]
        exact ih fun hp => hq (List.cons_prefix_cons.mpr ⟨rfl, hp⟩)
      · rw [if_neg hk] at hset
        rw [Graph.nodeAt?, Graph.nodeAt?, hset]

/-- The node above the position, and its copy. -/
theorem Replaces.parent {q : List Nat} {i : Nat} (hp : p = q ++ [i]) :
    ∃ y y' R j ps, g.nodeAt? tree q = some y ∧ g.nodeAt? tree' q = some y' ∧
      g.IsNode y R j ps ∧ g.IsNode y' R j (ps.set i n) ∧ ps[i]? = some x := by
  induction h generalizing q with
  | here => exact absurd hp.symm (by simp)
  | @copy k p y y' z z' R j ps hy hy' hz hr ih =>
    cases q with
    | nil =>
      obtain ⟨rfl, rfl⟩ : k = i ∧ p = [] := by simpa using hp
      cases hr
      exact ⟨y, y', R, j, ps, rfl, rfl, hy, hy', hz⟩
    | cons l q =>
      obtain ⟨rfl, hp'⟩ : k = l ∧ p = q ++ [i] := by simpa using hp
      have hk : k < ps.length := (List.getElem?_eq_some_iff.mp hz).1
      rw [← hy.premisesOf] at hz
      have hz' : (g.premisesOf y')[k]? = some z' := by
        rw [hy'.premisesOf, List.getElem?_set_self hk]
      rw [nodeAt?_cons hz, nodeAt?_cons hz']
      exact ih hp'

/-- A property that the nodes of the old derivation and those below the new node have, and that
does not depend on premises, is one of the nodes of the new derivation. -/
theorem Replaces.forall_below {P : Rule → Judgement → Prop}
    (htree : ∀ y, g.Below tree y → ∃ R j ps, g.IsNode y R j ps ∧ P R j)
    (hn : ∀ y, g.Below n y → ∃ R j ps, g.IsNode y R j ps ∧ P R j) :
    ∀ y, g.Below tree' y → ∃ R j ps, g.IsNode y R j ps ∧ P R j := by
  induction h with
  | here => exact hn
  | @copy i p y y' z z' R j ps hy hy' hz _ ih =>
    have hbelow : ∀ q ∈ ps, ∀ w, g.Below q w → g.Below y w := by
      intro q hq w hw
      rw [← hy.premisesOf] at hq
      exact hw.head hq
    intro w hw
    rcases below_iff.mp hw with rfl | ⟨q, hq, hw⟩
    · obtain ⟨R₁, j₁, ps₁, hy₁, hP⟩ := htree y .refl
      obtain rfl : R = R₁ := Option.some.inj (hy.rule.symm.trans hy₁.rule)
      obtain rfl : j = j₁ := hy.eq_of_conclusion hy₁.conclusion
      exact ⟨R, j, _, hy', hP⟩
    · rw [hy'.premisesOf] at hq
      rcases List.mem_or_eq_of_mem_set hq with hq | rfl
      · exact htree w (hbelow q hq w hw)
      · exact ih (fun v hv => htree v (hbelow z (List.mem_of_getElem? hz) v hv)) w hw

theorem Replaces.shallow (hps : g.premisesOf n = g.premisesOf x) {k : Nat} (hs : g.Shallow k tree) :
    g.Shallow k tree' := by
  induction h generalizing k with
  | here => exact hs.of_premises hps.symm
  | @copy i p y y' z z' R j ps hy hy' hz _ ih =>
    cases hs with
    | node hs =>
      rw [hy.premisesOf] at hs
      refine .node fun q hq => ?_
      rw [hy'.premisesOf] at hq
      rcases List.mem_or_eq_of_mem_set hq with hq | rfl
      · exact hs q hq
      · exact ih (hs z (List.mem_of_getElem? hz))

end

/-- A node passes in the new derivation if it did in the old one and shows the same rule, and its
premises record the same. -/
theorem PassesAt.of_agree {tree tree' : Ref} {target : Judgement} {q : List Nat}
    (h : g.PassesAt [] tree target q)
    (hR : (g.nodeAt? tree q).map g.ruleOf? = (g.nodeAt? tree' q).map g.ruleOf?)
    (hgoal : g.goalAt? tree target q = g.goalAt? tree' target q)
    (hps : ∀ i, (g.nodeAt? tree (q ++ [i])).map g.conclusion? =
      (g.nodeAt? tree' (q ++ [i])).map g.conclusion?) :
    g.PassesAt [] tree' target q := by
  intro y j hy hj
  rw [hy, Option.map_some] at hR
  obtain ⟨x, hx, hR⟩ := Option.map_eq_some_iff.mp hR
  have hmap : (g.premisesOf x).map g.conclusion? = (g.premisesOf y).map g.conclusion? := by
    refine List.ext_getElem? fun i => ?_
    have hi := hps i
    rw [nodeAt?_append, nodeAt?_append, hx, hy] at hi
    rw [List.getElem?_map, List.getElem?_map]
    exact hi
  rw [← hgoal] at hj
  obtain ⟨S, hS, hc⟩ := checkAt_eq_ok_iff.mp (h x j hx hj)
  refine checkAt_eq_ok_iff.mpr ⟨S, ?_, ?_⟩
  · rw [← hR, hS]
  · rw [← checkNode_congr hmap, hc]

theorem goalAt?_of_agree {tree tree' : Ref} {q : List Nat}
    (h : (g.nodeAt? tree q).map g.conclusion? = (g.nodeAt? tree' q).map g.conclusion?)
    (target : Judgement) : g.goalAt? tree target q = g.goalAt? tree' target q := by
  cases q with
  | nil => rfl
  | cons i q =>
    show (g.nodeAt? tree (i :: q)).bind g.conclusion? =
      (g.nodeAt? tree' (i :: q)).bind g.conclusion?
    have hb := congrArg (fun o => o.bind id) h
    simpa only [Option.bind_map, Function.id_comp] using hb

section
variable {x n tree tree' : Ref} {p : List Nat} (h : g.Replaces x n p tree tree')
include h

theorem Replaces.ruleAt {q : List Nat} (hq : ¬ p <+: q) :
    (g.nodeAt? tree q).map g.ruleOf? = (g.nodeAt? tree' q).map g.ruleOf? := by
  have hl := congrArg (Option.map Prod.fst) (h.labelAt? hq)
  rw [Graph.labelAt?, Graph.labelAt?, Option.map_map, Option.map_map] at hl
  exact hl

theorem Replaces.conclusionAt {q : List Nat}
    (hq : p <+: q → p = q ∧ g.conclusion? x = g.conclusion? n) :
    (g.nodeAt? tree q).map g.conclusion? = (g.nodeAt? tree' q).map g.conclusion? := by
  by_cases hp : p <+: q
  · obtain ⟨rfl, hc⟩ := hq hp
    rw [h.nodeAt?.1, h.nodeAt?.2, Option.map_some, Option.map_some, hc]
  · have hl := congrArg (Option.map Prod.snd) (h.labelAt? hp)
    rw [Graph.labelAt?, Graph.labelAt?, Option.map_map, Option.map_map] at hl
    exact hl

/-- A position before the new node passes as it did, if the new node records what the old one did
or is not a premise there. -/
theorem Replaces.passesAt {target : Judgement} {q : List Nat} (hq : ¬ p <+: q)
    (hchild : ∀ i, p = q ++ [i] → g.conclusion? x = g.conclusion? n)
    (hpass : g.PassesAt [] tree target q) : g.PassesAt [] tree' target q := by
  have hself := h.conclusionAt (fun hp => absurd hp hq)
  refine hpass.of_agree (h.ruleAt hq) (goalAt?_of_agree hself target) fun i => ?_
  refine h.conclusionAt fun hp => ?_
  rcases List.prefix_concat_iff.mp hp with hp | hp
  · exact ⟨hp, hchild i hp⟩
  · exact absurd hp hq

end

/-! ## runs -/

section
variable {limits : Limits} {tree : Ref} {target : Judgement}

/-- Every position of an accepted derivation passes. -/
theorem passesAt_of_accept (h : g.check limits tree target = .ok .accept) (q : List Nat) :
    g.PassesAt [] tree target q := by
  obtain ⟨memo, s, seen, hm, hs, hseen, -⟩ := check_eq_accept.mp h
  have hplain := map_checkRules_eq_plainRules hm hs
  rw [hseen] at hplain
  have hrun := runsTo_of_survey hm hs
  rw [← hplain] at hrun
  cases hrun with
  | passes hall => exact hall q

/-- **The first fault decides**: if a node has a fault and every position before it passes, then the
verdict is the rejection that the fault leads to. -/
theorem check_eq_reject_of_first {memo : Memo} {s : Survey} (hm : g.checkTarget target = .ok memo)
    (hs : g.survey limits.written limits.maxDepth [] {} tree ⟨{}, memo⟩ = .ok s) {p : List Nat}
    {x : Ref} {goal : Judgement} {R : Rule} {f : RuleFault} (hx : g.nodeAt? tree p = some x)
    (hgoal : g.goalAt? tree target p = some goal) (hR : g.ruleOf? x = some R)
    (hf : g.checkNode R (g.premisesOf x) goal = .error (.fault f))
    (first : ∀ q < p, g.PassesAt [] tree target q) :
    ∃ r, f.reject g R (g.premisesOf x) (p.map Int.ofNat) = .ok r ∧
      g.check limits tree target = .ok (.reject r) := by
  obtain ⟨-, hps, hapt⟩ := apt_of_goalAt? hm hs hx hgoal
  have hsafe := checkNode_safe hps hapt R
  rw [hf] at hsafe
  obtain ⟨r, hr⟩ := exists_reject R (.ofPath p.reverse) hsafe
  have hcheck : g.checkAt (p.reverse ++ []) x goal = .error (.reject r) := by
    rw [List.append_nil, checkAt, hR]
    simp only [hf, hr]
  have hplain := (runsTo_of_survey hm hs).unique (.fails hx hgoal hcheck first)
  refine ⟨r, ?_, ?_⟩
  · rw [← hr, Location.ofPath, List.reverse_reverse]
  · rw [check, checkSteps_eq_plainRules hm hs, hplain]
    rfl

end

/-- A new node that records a well-formed sequent, over the old premises, leaves a derivation that
passes a survey. -/
theorem exists_survey_of_replaces {limits : Limits} {x n tree tree' : Ref} {target s : Judgement}
    {p : List Nat} {R : Rule} (h : g.check limits tree target = .ok .accept)
    (hw : g.Grammatical tree target) (hr : g.Replaces x n p tree tree')
    (hn : g.IsNode n R s (g.premisesOf x)) (hs : g.WellStated s) :
    ∃ memo sv, g.checkTarget target = .ok memo ∧
      g.survey limits.written limits.maxDepth [] {} tree' ⟨{}, memo⟩ = .ok sv := by
  obtain ⟨hshallow, -, hnodes⟩ := looseIn_of_accept h
  have htree : ∀ y, g.Below tree y → ∃ R j ps, g.IsNode y R j ps ∧ g.WellStated j := by
    intro y hy
    obtain ⟨R, j, ps, hnode, -⟩ := hnodes y hy
    exact ⟨R, j, ps, hnode, hw.wellStated (.inr ⟨y, hy, hnode.conclusion⟩)⟩
  have hnew : ∀ y, g.Below n y → ∃ R j ps, g.IsNode y R j ps ∧ g.WellStated j := by
    intro y hy
    rcases below_iff.mp hy with rfl | ⟨q, hq, hy⟩
    · exact ⟨R, s, _, hn, hs⟩
    · rw [hn.premisesOf] at hq
      exact htree y ((below_of_nodeAt? hr.nodeAt?.1).trans (hy.head hq))
  have htree' := hr.forall_below (P := fun _ j => g.WellStated j) htree hnew
  have htarget : g.WellStated target := hw.wellStated (.inl rfl)
  obtain ⟨memo, hm⟩ := exists_checkTarget htarget
  obtain ⟨sv, hsv⟩ := exists_survey limits (grammatical_of_nodes htarget htree') htree'
    (hr.shallow hn.premisesOf hshallow) hm
  exact ⟨memo, sv, hm, hsv⟩

/-! ## single nodes -/

section
variable {R : Rule} {ps qs : List Ref} {goal : Judgement}

/-- The term is looked at before anything else. -/
theorem checkNode_of_kind_ne (h : (g.get goal.term).kind ≠ R.termKind) :
    g.checkNode R ps goal = .error (.fault (.term goal.term)) := by
  rw [checkNode_eq, ask_of_kind_ne h]

/-- The number of premises is looked at before the premises. -/
theorem checkNode_of_length_ne (hok : g.checkNode R ps goal = .ok ()) (hl : qs.length ≠ R.arity) :
    g.checkNode R qs goal = .error (.fault (.arity qs.length)) := by
  rw [checkNode_eq] at hok ⊢
  split at hok
  case h_1 => cases hok
  case h_2 =>
    rw [expectArity, if_neg hl]
    rfl

theorem length_of_checkNode (hgoal : g.Apt goal)
    (hps : ∀ p ∈ ps, ∀ j, g.conclusion? p = some j → g.Apt j)
    (hok : g.checkNode R ps goal = .ok ()) : ps.length = R.arity := by
  obtain ⟨ss, hr, hi⟩ := (checkNode_eq_ok_iff hgoal hps).mp hok
  exact hr.length_eq.trans hi.length

end

/-- The premise at `i` records `j`, and `n`, which is to take its place, records `s`, which stands
for something else. -/
structure Altered (g : Graph) (ps : List Ref) (i : Nat) (n : Ref) (j s : Judgement) : Prop where
  old : ∃ x, ps[i]? = some x ∧ g.conclusion? x = some j
  new : g.conclusion? n = some s
  aptOld : g.Apt j
  aptNew : g.Apt s
  differs : g.statement s ≠ g.statement j

/-- Two sequents differ in more than their types. -/
def DiffersBeyondType (s t : Statement) : Prop := s.context ≠ t.context ∨ s.term ≠ t.term

section
variable {ps : List Ref} {i : Nat} {n : Ref} {j s : Judgement}

theorem expectPremise_set_ne {k : Nat} (hk : i ≠ k) (d : Demand) :
    g.expectPremise (ps.set i n) k d = g.expectPremise ps k d := by
  rw [expectPremise, expectPremise, premise, premise, List.getElem?_set_ne hk]

theorem expectArity_set {R : Rule} (h : expectArity R ps = .ok ()) :
    expectArity R (ps.set i n) = .ok () := by
  rw [expectArity_eq_ok, List.length_set]
  exact expectArity_eq_ok.mp h

variable (h : g.Altered ps i n j s)
include h

theorem Altered.lt_length : i < ps.length := by
  obtain ⟨x, hx, -⟩ := h.old
  exact (List.getElem?_eq_some_iff.mp hx).1

/-- A demand that was met is not met any more. -/
theorem Altered.expectPremise {d : Demand} (hd : d.Apt g) {a : Ref}
    (hok : g.expectPremise ps i d = .ok a)
    (hform : d.ty = .any → DiffersBeyondType (g.statement s) (g.statement j)) :
    g.expectPremise (ps.set i n) i d = .error (.fault (.premise i (.demand d))) := by
  obtain ⟨x, hx, hj⟩ := h.old
  have hmeets : g.meets j d = true := by
    rw [Graph.expectPremise, premise_eq_ok.mpr ⟨x, hx, hj⟩, ok_bind] at hok
    by_contra hm
    rw [if_neg hm] at hok
    cases hok
  obtain ⟨hΓ, ht, hA⟩ := (meets_iff h.aptOld hd).mp hmeets
  have hnot : ¬ g.meets s d = true := by
    intro hm
    obtain ⟨hΓ', ht', hA'⟩ := (meets_iff h.aptNew hd).mp hm
    rw [← hΓ] at hΓ'
    rw [← ht] at ht'
    by_cases hany : d.ty = .any
    · rcases hform hany with hne | hne
      · exact hne hΓ'
      · exact hne ht'
    · have hty := TypeForm.Holds.unique hany hA' hA
      exact h.differs (Statement.ext hΓ' ht' hty)
  have hnew := premise_eq_ok.mpr ⟨n, List.getElem?_set_self h.lt_length, h.new⟩
  rw [Graph.expectPremise, hnew, ok_bind, if_neg hnot]

/-- One of some demands that were met is not met any more; all of them fix the type. -/
theorem Altered.expectAll {ds : List Demand} (hds : ∀ d ∈ ds, d.Apt g)
    (hform : ∀ d ∈ ds, d.ty ≠ .any) {l : Nat} (hl : l ≤ i) (hi : i < l + ds.length)
    (hok : g.expectAll ps l ds = .ok ()) :
    ∃ e, g.expectAll (ps.set i n) l ds = .error (.fault (.premise i e)) := by
  induction ds generalizing l with
  | nil =>
    rw [List.length_nil] at hi
    omega
  | cons d ds ih =>
    obtain ⟨hd, hds⟩ := List.forall_mem_cons.mp hds
    obtain ⟨hf, hform⟩ := List.forall_mem_cons.mp hform
    rw [List.length_cons] at hi
    obtain ⟨a, ha, hok⟩ := bind_eq_ok.mp hok
    rw [Graph.expectAll]
    by_cases hil : i = l
    · subst hil
      rw [h.expectPremise hd ha fun hany => absurd hany hf]
      exact ⟨_, rfl⟩
    · rw [expectPremise_set_ne hil, ha, ok_bind]
      exact ih hds hform (by omega) (by omega) hok

/-- What was asked for was answered and is not any more. -/
theorem Altered.answer {goal : Judgement} (hgoal : g.Apt goal)
    (hps : ∀ p ∈ ps, ∀ j, g.conclusion? p = some j → g.Apt j) {k : Ask}
    (hk : k.All g.Loose fun x => g.isName x = true) (hlen : ps.length = k.arity)
    (hok : g.answer ps goal k = .ok ())
    (hform : i = 0 → k.isOpen = true → DiffersBeyondType (g.statement s) (g.statement j)) :
    ∃ e, g.answer (ps.set i n) goal k = .error (.fault (.premise i e)) := by
  have hi : i < k.arity := hlen ▸ h.lt_length
  cases k with
  | assumption x => exact absurd hi (Nat.not_lt_zero i)
  | conclusions cs =>
    refine h.expectAll (hgoal.conclusions hk) (fun d hd => ?_) (Nat.zero_le i)
      (by simpa [Ask.arity] using hi) hok
    obtain ⟨c, -, rfl⟩ := List.mem_map.mp hd
    exact TypeForm.noConfusion
  | falsity t =>
    have hd := List.forall_mem_singleton.mpr (hgoal.demand (f := .bottom) hk trivial)
    exact h.expectAll hd (by simp) (Nat.zero_le i) hi hok
  | disjunction t u v =>
    obtain ⟨ht, hu, hv⟩ := hk
    have hd : Demand.Apt g ⟨.exactly goal.env, t, .any⟩ := hgoal.demand ht trivial
    obtain ⟨c, hc, hok⟩ := bind_eq_ok.mp hok
    obtain ⟨hloose, -⟩ := records_of_expectPremise hps hd hc
    rw [Graph.answer]
    by_cases hzero : i = 0
    · subst hzero
      rw [h.expectPremise hd hc fun _ => hform rfl rfl]
      exact ⟨_, rfl⟩
    · -- the disjunction is still the one that the sides were read off
      rw [expectPremise_set_ne hzero, hc, ok_bind]
      split at hok
      case h_2 => cases hok
      case h_1 a b hab =>
        have hi : i < 1 + 2 := hi
        exact h.expectAll (hgoal.sides hu hv hloose hab) (by simp) (by omega) hi hok
  | component σ t =>
    obtain ⟨a, ha, -⟩ := bind_eq_ok.mp hok
    obtain rfl : i = 0 := Nat.lt_one_iff.mp hi
    rw [Graph.answer, Graph.expectProjection,
      h.expectPremise (hgoal.demand (f := .any) hk trivial) ha fun _ => hform rfl rfl]
    exact ⟨_, rfl⟩
  | body x a t b =>
    obtain ⟨hx, ha, ht, hb⟩ := hk
    rw [Graph.answer, Graph.bind, if_pos (hashable_of_isName hx)] at hok ⊢
    exact h.expectAll (hgoal.body hx ha ht hb) (by simp) (Nat.zero_le i) hi hok

/-- **The rule of a node notices what its premises record**: where a node passes, a premise that
records something else is a fault, unless it has another type only and the rule takes the type of
its first premise as it is. -/
theorem Altered.checkNode {R : Rule} {goal : Judgement} (hgoal : g.Apt goal)
    (hps : ∀ p ∈ ps, ∀ j, g.conclusion? p = some j → g.Apt j)
    (hok : g.checkNode R ps goal = .ok ())
    (hform : i = 0 → R ∈ [.fstElim, .sndElim, .caseElim] →
      DiffersBeyondType (g.statement s) (g.statement j)) :
    ∃ e, g.checkNode R (ps.set i n) goal = .error (.fault (.premise i e)) := by
  have hlen : ps.length = R.arity := length_of_checkNode hgoal hps hok
  rw [checkNode_eq] at hok ⊢
  cases hk : g.ask R goal with
  | inl f =>
    rw [hk] at hok
    cases hok
  | inr k =>
    rw [hk] at hok
    obtain ⟨⟨⟩, hl, hok⟩ := bind_eq_ok.mp hok
    simp only [expectArity_set hl, ok_bind]
    exact h.answer hgoal hps (hgoal.ask hk) (hlen.trans (arity_of_ask hk).symm) hok
      fun hi hopen => hform hi (mem_of_isOpen hk hopen)

end

/-! ## forgeries -/

section
variable {R : Rule} {ps : List Ref} {l : Location} {r : Reject}

theorem reject_premise {i : Nat} {e : Expectation} {x : Ref} (hx : ps[i]? = some x)
    (h : (RuleFault.premise i e).reject g R ps l = .ok r) :
    ∃ m, r = ⟨.premiseConclusionMismatch, l ++ [(i : Int)], g.ruleOf? x, m⟩ := by
  rw [RuleFault.reject] at h
  obtain ⟨m, -, h⟩ := bind_eq_ok.mp h
  simp only [hx] at h
  exact ⟨m, (Except.ok.inj h).symm⟩

theorem reject_node {f : RuleFault} (hf : ∀ i e, f ≠ .premise i e) (h : f.reject g R ps l = .ok r) :
    ∃ m, r = ⟨f.reason, l, some R, m⟩ := by
  rw [RuleFault.reject] at h
  obtain ⟨m, -, h⟩ := bind_eq_ok.mp h
  cases f with
  | premise i e => exact absurd rfl (hf i e)
  | _ => exact ⟨m, (Except.ok.inj h).symm⟩

end

/-- Recorded sequents are the same exactly if they stand for the same. -/
theorem same_sequents_iff {c d : Ref} {i j : Judgement} (hc : g.judgement? c = some i)
    (hd : g.judgement? d = some j) (hi : g.Apt i) (hj : g.Apt j) :
    g.same c d = true ↔ g.statement i = g.statement j := by
  have get_of_judgement : ∀ {c i}, g.judgement? c = some i →
      g.get c = .sequent i.env i.term i.ty := by
    intro c i h
    unfold judgement? at h
    split at h
    case h_1 e t a hget => rw [hget, ← Option.some.inj h]
    case h_2 => cases h
  have hgc := get_of_judgement hc
  have hgd := get_of_judgement hd
  have hpairs : g.partPairs c d = some [(i.env, j.env), (i.term, j.term), (i.ty, j.ty)] := by
    rw [partPairs, hgc, hgd]
    rfl
  have hvalues : (∀ p ∈ [(i.env, j.env), (i.term, j.term), (i.ty, j.ty)],
      g.value p.1 = g.value p.2) ↔ g.statement i = g.statement j := by
    rw [statement_eq_iff hi hj, same_iff hi.env hj.env, same_iff hi.term hj.term,
      same_iff hi.ty hj.ty]
    simp
  have hstep : ∀ p ∈ [(i.env, j.env), (i.term, j.term), (i.ty, j.ty)], ∀ known, g.Agree known →
      g.Decides p.1 p.2 (g.sameFrom p.1 p.2 known) := by
    intro p hp known hk
    have hp' : p = (i.env, j.env) ∨ p = (i.term, j.term) ∨ p = (i.ty, j.ty) := by simpa using hp
    rcases hp' with rfl | rfl | rfl
    · exact g.transparent_comparable.sameFrom_decides (.inr hi.env) (.inr hj.env) hk
    · exact g.transparent_comparable.sameFrom_decides (.inr hi.term) (.inr hj.term) hk
    · exact g.transparent_comparable.sameFrom_decides (.inr hi.ty) (.inr hj.ty) hk
  have hfold := foldWhile_decides (f := fun p _ known => g.sameFrom p.1 p.2 known) hstep
    g.agree_empty
  rw [same, sameFrom]
  split
  case isTrue h =>
    obtain rfl := eq_of_beq h
    obtain rfl := Option.some.inj (hc.symm.trans hd)
    exact iff_of_true rfl rfl
  case isFalse =>
    simp only [hgc, hgd, Cell.kind, bne_self_eq_false, Bool.false_eq_true, if_false,
      Std.TreeSet.contains_emptyc]
    split
    case h_1 h => exact absurd (hpairs.symm.trans h) (by simp)
    case h_2 qs h =>
      obtain rfl := Option.some.inj (hpairs.symm.trans h)
      rw [← hvalues, Option.isSome_map]
      split at hfold
      case h_1 known hk =>
        rw [hk]
        exact iff_of_true rfl hfold.1
      case h_2 hk =>
        rw [hk]
        refine iff_of_false (by simp) fun hall => ?_
        obtain ⟨p, hp, hne⟩ := hfold
        exact hne (hall p hp)

/-- In pre-order a node comes before those below it. -/
theorem not_prefix_of_lt {p q : List Nat} (h : q < p) : ¬ p <+: q := fun hp => hp.le h

section
variable {limits : Limits} {tree tree' x n : Ref} {target j s : Judgement} {p : List Nat} {R : Rule}
  {ps : List Ref}

/-- The check that a node of an accepted derivation has passed. -/
theorem exists_passed (h : g.check limits tree target = .ok .accept)
    (hx : g.nodeAt? tree p = some x) (hnode : g.IsNode x R j ps) :
    ∃ goal, g.goalAt? tree target p = some goal ∧ g.Apt goal ∧
      (∀ q ∈ ps, ∀ i, g.conclusion? q = some i → g.Apt i) ∧ g.checkNode R ps goal = .ok () := by
  obtain ⟨-, ht, hn⟩ := looseIn_of_accept h
  have hapt : ∀ y, g.Below tree y → ∀ i, g.conclusion? y = some i → g.Apt i := by
    intro y hy i hi
    obtain ⟨R, i', ps, hnode, hi'⟩ := hn y hy
    obtain rfl := hnode.eq_of_conclusion hi
    exact apt_of_looseIn hi'
  have hbelow : g.Below tree x := below_of_nodeAt? hx
  obtain ⟨goal, hgoal, hg⟩ : ∃ goal, g.goalAt? tree target p = some goal ∧ g.Apt goal := by
    cases p with
    | nil => exact ⟨target, rfl, apt_of_looseIn ht⟩
    | cons i p =>
      refine ⟨j, ?_, hapt x hbelow j hnode.conclusion⟩
      show (g.nodeAt? tree (i :: p)).bind g.conclusion? = some j
      rw [hx, Option.bind_some, hnode.conclusion]
  obtain ⟨S, hS, hok⟩ := checkAt_eq_ok_iff.mp (passesAt_of_accept h p x goal hx hgoal)
  obtain rfl : R = S := Option.some.inj (hnode.rule.symm.trans hS)
  rw [hnode.premisesOf] at hok
  refine ⟨goal, hgoal, hg, fun q hq => hapt q (hbelow.tail ?_), hok⟩
  rw [hnode.premisesOf]
  exact hq

/-- The root may record anything as far as the rules go: they are checked for the target. -/
theorem check_forged_root (h : g.check limits tree target = .ok .accept)
    (hw : g.Grammatical tree target) (hx : g.IsNode tree R j ps) (hn : g.IsNode n R s ps)
    (hs : g.WellStated s) (hne : g.statement s ≠ g.statement j) :
    ∃ m, g.check limits n target = .ok (.reject ⟨.conclusionTargetMismatch, [], some R, m⟩) := by
  have hps : g.premisesOf n = g.premisesOf tree := hn.premisesOf.trans hx.premisesOf.symm
  have hbelow : ∀ i q, g.nodeAt? tree (i :: q) = g.nodeAt? n (i :: q) := by
    intro i q
    rw [nodeAt?, nodeAt?, hps]
  obtain ⟨memo, sv, hm, hsv⟩ := exists_survey_of_replaces h hw .here (hx.premisesOf.symm ▸ hn) hs
  have hpass : ∀ q, g.PassesAt [] n target q := by
    intro q
    refine (passesAt_of_accept h q).of_agree ?_ ?_ fun i => ?_
    · cases q with
      | nil => simp only [nodeAt?, Option.map_some, hx.rule, hn.rule]
      | cons i q => rw [hbelow]
    · cases q with
      | nil => rfl
      | cons i q => exact congrArg (Option.bind · g.conclusion?) (hbelow i q)
    · cases q with
      | nil => rw [List.nil_append, hbelow]
      | cons k q => rw [List.cons_append, hbelow]
  have hplain := (runsTo_of_survey hm hsv).unique (.passes hpass)
  have htarget : g.WellStated target := hw.wellStated (.inl rfl)
  have hj : g.WellStated j := hw.wellStated (.inr ⟨tree, .refl, hx.conclusion⟩)
  have hmeets : g.meets s ⟨.exactly target.env, target.term, .exactly target.ty⟩ = false := by
    rw [Bool.eq_false_iff]
    intro hm
    obtain ⟨hΓ, ht, hA⟩ := (meets_iff hs.apt
      (htarget.apt.demand htarget.apt.term (f := .exactly target.ty) htarget.apt.ty)).mp hm
    have hst : g.statement s = g.statement target := Statement.ext hΓ ht hA
    obtain ⟨-, -, -, -, -, -, hc⟩ := check_eq_accept.mp h
    obtain ⟨i, hi, hsame⟩ := checkConclusion_eq_ok_iff.mp hc
    obtain rfl := hx.eq_of_conclusion hi
    exact hne (hst.trans ((statement_eq_iff hj.apt htarget.apt).mpr hsame).symm)
  obtain ⟨m, hc⟩ := checkConclusion_eq_reject hn.conclusion hs.apt htarget.apt hmeets
  refine ⟨m, ?_⟩
  rw [check, checkSteps_eq_plainRules hm hsv, hplain, ok_bind, hc, hn.rule]

/-- Below the root it is the rule of the node above that notices. -/
theorem check_forged_premise {q : List Nat} {i : Nat} {y : Ref} {S : Rule}
    (h : g.check limits tree target = .ok .accept) (hw : g.Grammatical tree target)
    (hr : g.Replaces x n (q ++ [i]) tree tree') (hx : g.IsNode x R j ps) (hn : g.IsNode n R s ps)
    (hs : g.WellStated s) (hne : g.statement s ≠ g.statement j) (hy : g.nodeAt? tree q = some y)
    (hS : g.ruleOf? y = some S) (hform : i = 0 → S ∈ [.fstElim, .sndElim, .caseElim] →
      DiffersBeyondType (g.statement s) (g.statement j)) :
    ∃ m, g.check limits tree' target = .ok (.reject
      ⟨.premiseConclusionMismatch, (q ++ [i]).map Int.ofNat, some R, m⟩) := by
  obtain ⟨memo, sv, hm, hsv⟩ := exists_survey_of_replaces h hw hr (hx.premisesOf.symm ▸ hn) hs
  have hj : g.WellStated j :=
    hw.wellStated (.inr ⟨x, below_of_nodeAt? hr.nodeAt?.1, hx.conclusion⟩)
  obtain ⟨y₁, y', S₁, k, rs, hy₁, hy', hnode, hnode', hxi⟩ := hr.parent rfl
  obtain rfl : y₁ = y := Option.some.inj (hy₁.symm.trans hy)
  obtain rfl : S₁ = S := Option.some.inj (hnode.rule.symm.trans hS)
  obtain ⟨goal, hgoal, hapt, hps, hok⟩ := exists_passed h hy hnode
  have halt : g.Altered rs i n j s := ⟨⟨x, hxi, hx.conclusion⟩, hn.conclusion, hj.apt, hs.apt, hne⟩
  obtain ⟨e, he⟩ := halt.checkNode hapt hps hok hform
  rw [← hnode'.premisesOf] at he
  have hq : ¬ q ++ [i] <+: q := by
    intro hp
    have hlen := hp.length_le
    rw [List.length_append, List.length_singleton] at hlen
    omega
  have hgoal' : g.goalAt? tree' target q = some goal := by
    rw [← goalAt?_of_agree (hr.conclusionAt fun hp => absurd hp hq), hgoal]
  have first : ∀ q' < q, g.PassesAt [] tree' target q' := by
    intro q' hlt
    refine hr.passesAt (fun hp => ?_) (fun k hk => ?_) (passesAt_of_accept h q')
    · exact not_prefix_of_lt hlt ((List.prefix_append q [i]).trans hp)
    · obtain ⟨rfl, -⟩ := List.append_inj' hk rfl
      exact absurd hlt (List.lt_irrefl q)
  obtain ⟨r, hr', hcheck⟩ := check_eq_reject_of_first hm hsv hy' hgoal' hnode'.rule he first
  rw [hnode'.premisesOf] at hr'
  have hi : i < rs.length := (List.getElem?_eq_some_iff.mp hxi).1
  obtain ⟨m, rfl⟩ := reject_premise (List.getElem?_set_self hi) hr'
  refine ⟨m, ?_⟩
  rw [hcheck, hn.rule, List.map_append]
  rfl

end

/-- A derivation of `{x : P} ⊢ (x, x) : P × P` at 14, with one leaf for both premises, and four
forgeries: at 19 its second leaf records `{x : P} ⊢ x : ⊥`, at 21 its root records
`{x : P} ⊢ (x, x) : ⊥`, at 25 its second leaf has another rule, and at 27 its root has one
premise. -/
def forgeries : Graph where
  cells := #[.text "x", .text "P", .base 1, .env [(0, 2)], .var 0, .pair 4 4, .product 2 2,
    .sequent 3 4 2, .rule .assm, .tuple [], .derivation 8 7 9, .sequent 3 5 6, .rule .pairIntro,
    .tuple [10, 10], .derivation 12 11 13, .bottom, .sequent 3 4 15, .derivation 8 16 9,
    .tuple [10, 17], .derivation 12 11 18, .sequent 3 5 15, .derivation 12 20 13, .rule .fstElim,
    .derivation 22 7 9, .list [10, 23], .derivation 12 11 24, .tuple [10], .derivation 12 11 26]
  below := by decide
  apart := by decide

theorem accept_forgeries : forgeries.check .default 14 ⟨3, 5, 6⟩ = .ok .accept := by decide +kernel

theorem grammatical_forgeries : forgeries.Grammatical 14 ⟨3, 5, 6⟩ := by
  refine ⟨by decide +kernel, by decide +kernel, by decide +kernel, fun x hx => ?_⟩
  have hm : x ∈ [10, 14] := mem_of_below (by decide) (by decide) hx
  obtain rfl | rfl : x = 10 ∨ x = 14 := by simpa using hm
  · decide +kernel
  · decide +kernel

theorem isNode_forgeries : forgeries.IsNode 10 .assm ⟨3, 4, 2⟩ [] ∧
    forgeries.IsNode 14 .pairIntro ⟨3, 5, 6⟩ [10, 10] := ⟨⟨rfl, rfl, rfl⟩, ⟨rfl, rfl, rfl⟩⟩

/-- **A forged conclusion is caught where it was forged.** Let a derivation be accepted, its target
and all that it records be well formed, and let another well-formed sequent stand at the node `x`.
At the root, it is not the target. Anywhere else, the rule above finds the premise at fault, unless
the sequents differ in their types only and the rule takes the type of its first premise as it
is. -/
theorem check_forged_conclusion (limits : Limits) {tree tree' x n c c' : Ref}
    {target j s : Judgement} {p : List Nat} {R : Rule} {ps : List Ref}
    (h : g.check limits tree target = .ok .accept) (hw : g.Grammatical tree target)
    (hr : g.Replaces x n p tree tree') (hx : g.IsNode x R j ps) (hn : g.IsNode n R s ps)
    (hc : g.judgement? c = some j) (hc' : g.judgement? c' = some s)
    (hs : (g.sequentOk none c').1 = true) (hne : g.same c' c = false) :
    (p = [] →
      ∃ m, g.check limits tree' target = .ok (.reject ⟨.conclusionTargetMismatch, [], some R, m⟩)) ∧
    ∀ q i y S, p = q ++ [i] → g.nodeAt? tree q = some y → g.ruleOf? y = some S →
      (g.same s.env j.env = false ∨ g.same s.term j.term = false ∨
        ¬ (i = 0 ∧ S ∈ [.fstElim, .sndElim, .caseElim])) →
      ∃ m, g.check limits tree' target =
        .ok (.reject ⟨.premiseConclusionMismatch, p.map Int.ofNat, some R, m⟩) := by
  have hj : g.WellStated j :=
    hw.wellStated (.inr ⟨x, below_of_nodeAt? hr.nodeAt?.1, hx.conclusion⟩)
  have hs' : g.WellStated s := by
    obtain ⟨i, hi, hw⟩ := sequentOk_none_iff.mp hs
    exact Option.some.inj (hi.symm.trans hc') ▸ hw
  have hst : g.statement s ≠ g.statement j := by
    intro heq
    rw [(same_sequents_iff hc' hc hs'.apt hj.apt).mpr heq] at hne
    cases hne
  constructor
  · rintro rfl
    cases hr
    exact check_forged_root h hw hx hn hs' hst
  · rintro q i y S rfl hy hS hwhere
    refine check_forged_premise h hw hr hx hn hs' hst hy hS fun hi hmem => ?_
    rcases hwhere with henv | hterm | hnot
    · refine .inl fun heq => ?_
      have hv := (same_iff hs'.apt.env hj.apt.env).mpr (by
        rw [value_of_kind_env hs'.apt.kind, value_of_kind_env hj.apt.kind]
        exact congrArg Value.env heq)
      rw [hv] at henv
      cases henv
    · refine .inr fun heq => ?_
      rw [(same_iff hs'.apt.term hj.apt.term).mpr heq] at hterm
      cases hterm
    · exact absurd ⟨hi, hmem⟩ hnot

/-- The forged leaf and the forged root. -/
theorem check_forgeries_conclusion : forgeries.check .default 14 ⟨3, 5, 6⟩ = .ok .accept ∧
    forgeries.Grammatical 14 ⟨3, 5, 6⟩ ∧ forgeries.same 16 7 = false ∧
    forgeries.same 20 11 = false ∧
    (∃ m, forgeries.check .default 19 ⟨3, 5, 6⟩ =
      .ok (.reject ⟨.premiseConclusionMismatch, [1], some .assm, m⟩)) ∧
    ∃ m, forgeries.check .default 21 ⟨3, 5, 6⟩ =
      .ok (.reject ⟨.conclusionTargetMismatch, [], some .pairIntro, m⟩) := by
  obtain ⟨hleaf, hroot⟩ := isNode_forgeries
  have hleaf' : forgeries.IsNode 17 .assm ⟨3, 4, 15⟩ [] := ⟨rfl, rfl, rfl⟩
  have hroot' : forgeries.IsNode 21 .pairIntro ⟨3, 5, 15⟩ [10, 10] := ⟨rfl, rfl, rfl⟩
  have hcopy : forgeries.IsNode 19 .pairIntro ⟨3, 5, 6⟩ [10, 17] := ⟨rfl, rfl, rfl⟩
  have hne : forgeries.same 16 7 = false := by decide +kernel
  have hne' : forgeries.same 20 11 = false := by decide +kernel
  refine ⟨accept_forgeries, grammatical_forgeries, hne, hne', ?_, ?_⟩
  · exact (check_forged_conclusion .default accept_forgeries grammatical_forgeries
      (.copy hroot hcopy rfl .here) hleaf hleaf' rfl rfl (by decide +kernel) hne).2 [] 1 14
      .pairIntro rfl rfl rfl (.inr (.inr (by decide)))
  · exact (check_forged_conclusion .default accept_forgeries grammatical_forgeries .here hroot
      hroot' rfl rfl (by decide +kernel) hne').1 rfl

/-- **A forged rule or a forged list of premises is caught where it was forged.** Let a derivation
be accepted and its target and all that it records be well formed. A node with another rule has the
wrong kind of term; a node with another number of premises has that fault, if the rest of the
derivation still has the shape of one. -/
theorem check_forged_node (limits : Limits) {tree tree' x n : Ref} {target j : Judgement}
    {p : List Nat} {R : Rule} {ps : List Ref} (h : g.check limits tree target = .ok .accept)
    (hw : g.Grammatical tree target) (hr : g.Replaces x n p tree tree') (hx : g.IsNode x R j ps) :
    (∀ S, S ≠ R → g.IsNode n S j ps →
      ∃ m, g.check limits tree' target =
        .ok (.reject ⟨.ruleTermMismatch, p.map Int.ofNat, some S, m⟩)) ∧
    ∀ qs memo sv, g.IsNode n R j qs → qs.length ≠ ps.length → g.checkTarget target = .ok memo →
      g.survey limits.written limits.maxDepth [] {} tree' ⟨{}, memo⟩ = .ok sv →
      ∃ m, g.check limits tree' target =
        .ok (.reject ⟨.premiseInvalid, p.map Int.ofNat, some R, m⟩) := by
  obtain ⟨hxp, hnp⟩ := hr.nodeAt?
  obtain ⟨goal, hgoal, hapt, hps, hok⟩ := exists_passed h hxp hx
  have hj : g.WellStated j := hw.wellStated (.inr ⟨x, below_of_nodeAt? hxp, hx.conclusion⟩)
  -- the new node records what the old one did, so nothing changes before it
  have hgoal' : g.conclusion? n = some j → g.goalAt? tree' target p = some goal := by
    intro hn
    rw [← hgoal]
    refine (goalAt?_of_agree (hr.conclusionAt fun _ => ⟨rfl, ?_⟩) target).symm
    rw [hx.conclusion, hn]
  have first : g.conclusion? n = some j → ∀ q < p, g.PassesAt [] tree' target q := by
    intro hn q hq
    refine hr.passesAt (not_prefix_of_lt hq) (fun _ _ => ?_) (passesAt_of_accept h q)
    rw [hx.conclusion, hn]
  constructor
  · intro S hS hn
    obtain ⟨memo, sv, hm, hsv⟩ := exists_survey_of_replaces h hw hr (hx.premisesOf.symm ▸ hn) hj
    have hkind : (g.get goal.term).kind ≠ S.termKind := by
      rw [(shaped_of_checkNode hok).term]
      exact fun heq => hS (Rule.termKind_injective heq).symm
    obtain ⟨r, hrej, hcheck⟩ := check_eq_reject_of_first hm hsv hnp (hgoal' hn.conclusion) hn.rule
      (checkNode_of_kind_ne hkind) (first hn.conclusion)
    obtain ⟨m, rfl⟩ := reject_node (by simp) hrej
    exact ⟨m, hcheck⟩
  · intro qs memo sv hn hlen hm hsv
    have hl : (g.premisesOf n).length ≠ R.arity := by
      rw [hn.premisesOf, ← length_of_checkNode hapt hps hok]
      exact hlen
    obtain ⟨r, hrej, hcheck⟩ := check_eq_reject_of_first hm hsv hnp (hgoal' hn.conclusion) hn.rule
      (checkNode_of_length_ne hok hl) (first hn.conclusion)
    obtain ⟨m, rfl⟩ := reject_node (by simp) hrej
    exact ⟨m, hcheck⟩

/-- The leaf with another rule, and the root with one premise. -/
theorem check_forgeries_node : forgeries.check .default 14 ⟨3, 5, 6⟩ = .ok .accept ∧
    forgeries.Grammatical 14 ⟨3, 5, 6⟩ ∧
    (∃ m, forgeries.check .default 25 ⟨3, 5, 6⟩ =
      .ok (.reject ⟨.ruleTermMismatch, [1], some .fstElim, m⟩)) ∧
    ∃ memo sv, forgeries.checkTarget ⟨3, 5, 6⟩ = .ok memo ∧
      forgeries.survey "10000" 10000 [] {} 27 ⟨{}, memo⟩ = .ok sv ∧
      ∃ m, forgeries.check .default 27 ⟨3, 5, 6⟩ =
        .ok (.reject ⟨.premiseInvalid, [], some .pairIntro, m⟩) := by
  obtain ⟨hleaf, hroot⟩ := isNode_forgeries
  have hleaf' : forgeries.IsNode 23 .fstElim ⟨3, 4, 2⟩ [] := ⟨rfl, rfl, rfl⟩
  have hcopy : forgeries.IsNode 25 .pairIntro ⟨3, 5, 6⟩ [10, 23] := ⟨rfl, rfl, rfl⟩
  have hroot' : forgeries.IsNode 27 .pairIntro ⟨3, 5, 6⟩ [10] := ⟨rfl, rfl, rfl⟩
  refine ⟨accept_forgeries, grammatical_forgeries, ?_, ?_⟩
  · exact (check_forged_node .default accept_forgeries grammatical_forgeries
      (.copy hroot hcopy rfl .here) hleaf).1 .fstElim (by decide) hleaf'
  · have hrun : (do
        let memo ← (forgeries.checkTarget ⟨3, 5, 6⟩).mapError Stop.reject
        forgeries.survey "10000" 10000 [] {} 27 ⟨{}, memo⟩).isOk = true := by decide +kernel
    cases hm : forgeries.checkTarget ⟨3, 5, 6⟩ with
    | error r => rw [hm] at hrun; cases hrun
    | ok memo =>
      rw [hm] at hrun
      cases hs : forgeries.survey "10000" 10000 [] {} 27 ⟨{}, memo⟩ with
      | error e =>
        have hrun' : (forgeries.survey "10000" 10000 [] {} 27 ⟨{}, memo⟩).isOk = true := hrun
        rw [hs] at hrun'
        cases hrun'
      | ok sv =>
        refine ⟨memo, sv, rfl, hs, ?_⟩
        exact (check_forged_node .default accept_forgeries grammatical_forgeries .here hroot).2 [10]
          memo sv hroot' (by decide) hm hs

end Graph

end NaturalDeduction

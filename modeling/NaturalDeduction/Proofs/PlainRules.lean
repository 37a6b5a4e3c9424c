import Mathlib.Data.List.Lex
import NaturalDeduction.Proofs.Completeness
import NaturalDeduction.Proofs.Faults

/-!
# Runs over the rules and plain recursion

* `Graph.checkAt`        the check of one node, with the rejection that it leads to;
* `Graph.plainRules`     the recursion that a run over the rules stands for: it remembers nothing and
                         checks a node again on every way to it;
* `checkRules_below_eq_plainRules`   a run that remembers only ancestors and nodes below which
                         everything passes goes the way of the plain recursion;
* `Graph.nodeAt?`, `Graph.goalAt?`, `Graph.labelAt?`   the unfolded derivation: the node at a
                         position, what it is checked for, and its rule with the sequent it records;
* `Graph.RunsTo`         the outcome in terms of positions: the first failure in pre-order, which is
                         the lexicographic order of positions;
* `checkRules_eq_plainRules`   after a survey that passes, all of these agree, and nothing but the
                         unfolded derivation counts.
-/

namespace NaturalDeduction

namespace Graph
variable {g : Graph}

/-- The check of the node at `x`, which is met at the end of `path`, for a goal. -/
def checkAt (g : Graph) (path : List Nat) (x : Ref) (goal : Judgement) : Except Stop Unit :=
  match g.ruleOf? x with
  | none => .error (.failure .noPart)
  | some R =>
    match g.checkNode R (g.premisesOf x) goal with
    | .error (.failure f) => .error (.failure f)
    | .error (.fault f) =>
      match f.reject g R (g.premisesOf x) (.ofPath path) with
      | .error f => .error (.failure f)
      | .ok r => .error (.reject r)
    | .ok () => .ok ()

/-- Checks that the node at `r` derives `goal`, and that the nodes below it, on every way down,
derive what they record, to a depth of `levels`. -/
def plainRules (g : Graph) : (levels : Nat) → (path : List Nat) → Ref → (goal : Judgement) →
    Except Stop Unit
  | 0, _, _, _ => .ok ()
  | n + 1, path, r, goal => do
    g.checkAt path r goal
    (g.premisesOf r).zipIdx.forM fun q =>
      match g.conclusion? q.1 with
      | none => .error (.failure .noPart)
      | some j => g.plainRules n (q.2 :: path) q.1 j

/-! ## single nodes -/

theorem checkAt_eq_ok_iff {path : List Nat} {x : Ref} {goal : Judgement} :
    g.checkAt path x goal = .ok () ↔ g.Passes x goal := by
  unfold checkAt Passes
  cases g.ruleOf? x with
  | none => simp
  | some R =>
    simp only [Option.some.injEq, exists_eq_left']
    cases g.checkNode R (g.premisesOf x) goal with
    | ok a => simp
    | error e =>
      cases e with
      | failure f => simp
      | fault f =>
        simp only
        split <;> simp

theorem checkRules_eq_bind {n : Nat} {path : List Nat} {r : Ref} {goal : Judgement} {seen : RefSet}
    (hr : ¬ seen.contains r = true) :
    g.checkRules (n + 1) path r goal seen = (do
      g.checkAt path r goal
      (g.premisesOf r).zipIdx.foldlM (g.checkPremise n path) (seen.insert r)) := by
  rw [checkRules, if_neg hr, checkAt]
  cases g.ruleOf? r with
  | none => rfl
  | some R =>
    simp only
    cases g.checkNode R (g.premisesOf r) goal with
    | ok a => rfl
    | error e =>
      cases e with
      | failure f => rfl
      | fault f =>
        simp only
        cases f.reject g R (g.premisesOf r) (.ofPath path) <;> rfl

/-! ## nodes below which everything passes -/

/-- Every node at or below `x` passes for what it records. -/
def Done (g : Graph) (x : Ref) : Prop :=
  ∀ y, g.Below x y → ∃ j, g.conclusion? y = some j ∧ g.Passes y j

theorem Done.plainRules {n : Nat} : ∀ {path : List Nat} {x : Ref} {j : Judgement}, g.Done x →
    g.conclusion? x = some j → g.plainRules n path x j = .ok () := by
  induction n with
  | zero => exact fun _ _ => rfl
  | succ n ih =>
    intro path x j hd hj
    obtain ⟨i, hi, hp⟩ := hd x .refl
    obtain rfl : j = i := Option.some.inj (hj.symm.trans hi)
    rw [Graph.plainRules, checkAt_eq_ok_iff.mpr hp, ok_bind]
    refine forM_eq_ok fun q hq => ?_
    have hq' : q.1 ∈ g.premisesOf x := mem_of_mem_zipIdx hq
    have hdq : g.Done q.1 := fun y hy => hd y (hy.head hq')
    obtain ⟨k, hk, -⟩ := hdq q.1 .refl
    rw [hk]
    exact ih hdq hk

theorem forM_eq_ok_iff {ε α : Type} {f : α → Except ε Unit} {l : List α} :
    l.forM f = .ok () ↔ ∀ a ∈ l, f a = .ok () := by
  refine ⟨fun h => ?_, forM_eq_ok⟩
  induction l with
  | nil => simp
  | cons a l ih =>
    obtain ⟨⟨⟩, ha, hl⟩ := bind_eq_ok.mp h
    exact List.forall_mem_cons.mpr ⟨ha, ih hl⟩

theorem below_iff {x y : Ref} :
    g.Below x y ↔ y = x ∨ ∃ p ∈ g.premisesOf x, g.Below p y := by
  refine Relation.ReflTransGen.cases_head_iff.trans ?_
  exact or_congr eq_comm Iff.rfl

/-- A recursion that passes with enough levels has passed everywhere. -/
theorem done_of_plainRules {n : Nat} : ∀ {path : List Nat} {x : Ref} {j : Judgement}, g.Shallow n x →
    g.conclusion? x = some j → g.plainRules n path x j = .ok () → g.Done x := by
  induction n with
  | zero => exact fun h => nomatch h
  | succ n ih =>
    intro path x j hs hj h y hy
    rw [Graph.plainRules] at h
    obtain ⟨⟨⟩, hx, hps⟩ := bind_eq_ok.mp h
    rcases below_iff.mp hy with rfl | ⟨p, hp, hy⟩
    · exact ⟨j, hj, checkAt_eq_ok_iff.mp hx⟩
    · obtain ⟨i, hi, rfl⟩ := List.getElem_of_mem hp
      have hq := forM_eq_ok_iff.mp hps ((g.premisesOf x)[i], i)
        (List.mk_mem_zipIdx_iff_getElem?.mpr (List.getElem?_eq_getElem hi))
      simp only at hq
      split at hq
      case h_1 => cases hq
      case h_2 k hk => exact ih (hs.premise hp) hk hq y hy

/-! ## the agreement -/

/-- The plain recursion for a premise and what it records. -/
def plainPremise (g : Graph) (n : Nat) (path : List Nat) (q : Ref × Nat) : Except Stop Unit :=
  match g.conclusion? q.1 with
  | none => .error (.failure .noPart)
  | some j => g.plainRules n (q.2 :: path) q.1 j

theorem plainRules_succ {n : Nat} {path : List Nat} {r : Ref} {goal : Judgement} :
    g.plainRules (n + 1) path r goal = (do
      g.checkAt path r goal
      (g.premisesOf r).zipIdx.forM (g.plainPremise n path)) := rfl

/-- What a run remembers when it comes to `r` is above `r`, or everything below it passes. -/
def Remembers (g : Graph) (seen : RefSet) (r : Ref) : Prop :=
  ∀ x, seen.contains x = true → g.StrictlyBelow x r ∨ g.Done x

/-- What a run from `r` adds to its memory is `r` and nodes below which everything passes. -/
def Adds (g : Graph) (r : Ref) (seen seen' : RefSet) : Prop :=
  ∀ x, seen'.contains x = true → seen.contains x = true ∨ x = r ∨ g.Done x

theorem adds_insert (r : Ref) (seen : RefSet) : g.Adds r seen (seen.insert r) := by
  intro x hx
  rcases RefSet.contains_insert_iff.mp hx with rfl | hx
  · exact .inr (.inl rfl)
  · exact .inl hx

theorem Remembers.premise {seen s : RefSet} {r p : Ref} (h : g.Remembers seen r)
    (hp : p ∈ g.premisesOf r) (hs : g.Adds r seen s) : g.Remembers s p := by
  intro x hx
  rcases hs x hx with hx | rfl | hx
  · rcases h x hx with hx | hx
    · exact .inl (hx.tail hp)
    · exact .inr hx
  · exact .inl (.single hp)
  · exact .inr hx

/-- A run over the rules goes the way of the plain recursion. -/
theorem checkRules_below_eq_plainRules {n : Nat} :
    ∀ (path : List Nat) {r : Ref} {goal : Judgement} {seen : RefSet}, g.Shallow n r →
      g.Remembers seen r → (seen.contains r = true → g.conclusion? r = some goal) →
      (g.checkRules n path r goal seen).map (fun _ => ()) = g.plainRules n path r goal ∧
        ∀ seen', g.checkRules n path r goal seen = .ok seen' → g.Adds r seen seen' := by
  induction n with
  | zero => exact fun _ _ _ _ h => nomatch h
  | succ n ih =>
    intro path r goal seen hs hseen hgoal
    by_cases hr : seen.contains r = true
    · -- the node is not above itself, so everything below it passes
      have hd : g.Done r := (hseen r hr).resolve_left hs.irrefl
      rw [checkRules_of_contains hr, hd.plainRules (hgoal hr)]
      refine ⟨rfl, fun seen' h x hx => .inl ?_⟩
      rw [Except.ok.inj h]
      exact hx
    · rw [checkRules_eq_bind hr, plainRules_succ]
      cases g.checkAt path r goal with
      | error e => exact ⟨rfl, fun seen' h => nomatch h⟩
      | ok u =>
        have step : ∀ q ∈ (g.premisesOf r).zipIdx, ∀ s, g.Adds r seen s →
            (g.checkPremise n path s q).map (fun _ => ()) = g.plainPremise n path q ∧
              ∀ s', g.checkPremise n path s q = .ok s' → g.Adds r seen s' := by
          intro q hq s hadd
          have hq' : q.1 ∈ g.premisesOf r := mem_of_mem_zipIdx hq
          rw [checkPremise, plainPremise]
          cases hj : g.conclusion? q.1 with
          | none => exact ⟨rfl, fun s' h => nomatch h⟩
          | some j =>
            simp only
            obtain ⟨heq, hnew⟩ := ih (q.2 :: path) (hs.premise hq') (hseen.premise hq' hadd)
              fun _ => hj
            refine ⟨heq, fun s' hs' x hx => ?_⟩
            rcases hnew s' hs' x hx with hx | rfl | hx
            · exact hadd x hx
            · -- the premise itself has passed, with everything below it
              rw [hs'] at heq
              exact .inr (.inr (done_of_plainRules (hs.premise hq') hj heq.symm))
            · exact .inr (.inr hx)
        refine ⟨foldlM_eq_forM step (adds_insert r seen), fun seen' h => ?_⟩
        exact (foldlM_steps (I := g.Adds r seen) (E := fun _ _ => True) (P := fun _ _ => True)
          (fun _ => trivial) (fun _ _ _ _ _ => trivial) (fun _ _ _ _ h => h)
          (fun q hq s s' hadd hs' => ⟨(step q hq s hadd).2 s' hs', trivial, trivial⟩)
          (adds_insert r seen) h).1

/-! ## positions -/

/-- The node at a position: the premise indices from `r` down to it. -/
def nodeAt? (g : Graph) : Ref → List Nat → Option Ref
  | r, [] => some r
  | r, i :: p => (g.premisesOf r)[i]?.bind fun q => g.nodeAt? q p

/-- What the node at a position is checked for: the root for the target, any other node for the
sequent that it records. -/
def goalAt? (g : Graph) (tree : Ref) (target : Judgement) : List Nat → Option Judgement
  | [] => some target
  | p => (g.nodeAt? tree p).bind g.conclusion?

/-- The node at a position passes the check, if there is one. -/
def PassesAt (g : Graph) (path : List Nat) (tree : Ref) (target : Judgement) (p : List Nat) : Prop :=
  ∀ x j, g.nodeAt? tree p = some x → g.goalAt? tree target p = some j →
    g.checkAt (p.reverse ++ path) x j = .ok ()

/-- The outcome of checking the nodes at all positions in the order of the positions. The tree is
met at the end of `path`. -/
inductive RunsTo (g : Graph) (path : List Nat) (tree : Ref) (target : Judgement) :
    Except Stop Unit → Prop
  | passes (h : ∀ p, g.PassesAt path tree target p) : RunsTo g path tree target (.ok ())
  | fails {p : List Nat} {x : Ref} {j : Judgement} {e : Stop} (hx : g.nodeAt? tree p = some x)
      (hj : g.goalAt? tree target p = some j) (he : g.checkAt (p.reverse ++ path) x j = .error e)
      (first : ∀ q < p, g.PassesAt path tree target q) : RunsTo g path tree target (.error e)

theorem goalAt?_cons {tree q : Ref} {target j : Judgement} {i : Nat}
    (hq : (g.premisesOf tree)[i]? = some q) (hj : g.conclusion? q = some j) (p : List Nat) :
    g.goalAt? tree target (i :: p) = g.goalAt? q j p := by
  show (g.nodeAt? tree (i :: p)).bind g.conclusion? = _
  rw [nodeAt?, hq]
  cases p with
  | nil => exact hj
  | cons k p => rfl

theorem nodeAt?_cons {tree q : Ref} {i : Nat} (hq : (g.premisesOf tree)[i]? = some q)
    (p : List Nat) : g.nodeAt? tree (i :: p) = g.nodeAt? q p := by
  rw [nodeAt?, hq]
  rfl

theorem passesAt_nil {path : List Nat} {tree : Ref} {target : Judgement} :
    g.PassesAt path tree target [] ↔ g.checkAt path tree target = .ok () := by
  constructor
  · exact fun h => h tree target rfl rfl
  · intro h x j hx hj
    rw [← Option.some.inj hx, ← Option.some.inj hj]
    exact h

theorem passesAt_cons {path : List Nat} {tree q : Ref} {target j : Judgement} {i : Nat}
    (hq : (g.premisesOf tree)[i]? = some q) (hj : g.conclusion? q = some j) (p : List Nat) :
    g.PassesAt path tree target (i :: p) ↔ g.PassesAt (i :: path) q j p := by
  unfold PassesAt
  rw [nodeAt?_cons hq, goalAt?_cons hq hj, List.reverse_cons, List.append_assoc]
  rfl

theorem passesAt_cons_of_none {path : List Nat} {tree : Ref} {target : Judgement} {i : Nat}
    (hi : (g.premisesOf tree)[i]? = none) (p : List Nat) :
    g.PassesAt path tree target (i :: p) := by
  intro x j hx
  rw [nodeAt?, hi] at hx
  cases hx

/-- Steps over a list with indices pass everywhere, or stop at a first index. -/
theorem forM_zipIdx_cases {ε α : Type} (f : α × Nat → Except ε Unit) (l : List α) (k : Nat) :
    ((l.zipIdx k).forM f = .ok () ∧ ∀ i a, l[i]? = some a → f (a, k + i) = .ok ()) ∨
      ∃ i a e, l[i]? = some a ∧ f (a, k + i) = .error e ∧ (l.zipIdx k).forM f = .error e ∧
        ∀ m < i, ∀ b, l[m]? = some b → f (b, k + m) = .ok () := by
  induction l generalizing k with
  | nil => exact .inl ⟨rfl, fun i a h => nomatch h⟩
  | cons c l ih =>
    rw [List.zipIdx_cons]
    show ((f (c, k) >>= fun _ => (l.zipIdx (k + 1)).forM f) = .ok () ∧ _) ∨
      ∃ i a e, _ ∧ _ ∧ (f (c, k) >>= fun _ => (l.zipIdx (k + 1)).forM f) = .error e ∧ _
    cases hc : f (c, k) with
    | error e =>
      refine .inr ⟨0, c, e, rfl, hc, rfl, fun m hm => absurd hm (Nat.not_lt_zero m)⟩
    | ok u =>
      have hk : ∀ i, k + (i + 1) = k + 1 + i := fun i => by omega
      rcases ih (k + 1) with ⟨hl, hall⟩ | ⟨i, a, e, ha, hf, hl, hall⟩
      · refine .inl ⟨hl, fun i a ha => ?_⟩
        cases i with
        | zero => rw [← Option.some.inj ha]; exact hc
        | succ i => rw [hk]; exact hall i a ha
      · refine .inr ⟨i + 1, a, e, ha, by rw [hk]; exact hf, hl, fun m hm b hb => ?_⟩
        cases m with
        | zero => rw [← Option.some.inj hb]; exact hc
        | succ m => rw [hk]; exact hall m (by omega) b hb

/-- The plain recursion comes to the first failure in pre-order. -/
theorem runsTo_plainRules {n : Nat} : ∀ (path : List Nat) {r : Ref} (goal : Judgement),
    g.Shallow n r → (∀ x, g.Below r x → ∃ j, g.conclusion? x = some j) →
    g.RunsTo path r goal (g.plainRules n path r goal) := by
  induction n with
  | zero => exact fun _ _ _ h => nomatch h
  | succ n ih =>
    intro path r goal hs hn
    rw [plainRules_succ]
    cases hc : g.checkAt path r goal with
    | error e =>
      exact .fails (p := []) (x := r) (j := goal) rfl rfl hc fun q hq => absurd hq (List.not_lt_nil q)
    | ok u =>
      rw [ok_bind]
      -- each premise, by induction, for what it records
      have hpremise : ∀ i q, (g.premisesOf r)[i]? = some q → ∃ j, g.conclusion? q = some j ∧
          g.RunsTo (i :: path) q j (g.plainPremise n path (q, i)) := by
        intro i q hq
        have hmem : q ∈ g.premisesOf r := List.mem_of_getElem? hq
        obtain ⟨j, hj⟩ := hn q (.single hmem)
        refine ⟨j, hj, ?_⟩
        rw [plainPremise, hj]
        exact ih (i :: path) j (hs.premise hmem) fun x hx => hn x (hx.head hmem)
      have hpass : ∀ i q, (g.premisesOf r)[i]? = some q → g.plainPremise n path (q, i) = .ok () →
          ∀ p, g.PassesAt path r goal (i :: p) := by
        intro i q hq hok p
        obtain ⟨j, hj, hrun⟩ := hpremise i q hq
        rw [hok] at hrun
        obtain ⟨hall⟩ := hrun
        exact (passesAt_cons hq hj p).mpr (hall p)
      rcases forM_zipIdx_cases (g.plainPremise n path) (g.premisesOf r) 0 with
        ⟨hok, hall⟩ | ⟨i, q, e, hq, he, herr, hbefore⟩
      · rw [hok]
        refine .passes fun p => ?_
        cases p with
        | nil => exact passesAt_nil.mpr hc
        | cons i p =>
          cases hq : (g.premisesOf r)[i]? with
          | none => exact passesAt_cons_of_none hq p
          | some q => exact hpass i q hq (by rw [← hall i q hq, Nat.zero_add]) p
      · rw [herr]
        obtain ⟨j, hj, hrun⟩ := hpremise i q hq
        rw [Nat.zero_add] at he
        rw [he] at hrun
        cases hrun with
        | @fails p x k _ hx hk hxe first =>
          refine .fails (p := i :: p) (x := x) (j := k) ?_ ?_ ?_ fun m hm => ?_
          · rw [nodeAt?_cons hq, hx]
          · rw [goalAt?_cons hq hj, hk]
          · rw [List.reverse_cons, List.append_assoc]
            exact hxe
          · cases m with
            | nil => exact passesAt_nil.mpr hc
            | cons l m =>
              rcases List.cons_lt_cons_iff.mp hm with hl | ⟨rfl, hlt⟩
              · cases hq' : (g.premisesOf r)[l]? with
                | none => exact passesAt_cons_of_none hq' m
                | some q' =>
                  exact hpass l q' hq' (by rw [← hbefore l hl q' hq', Nat.zero_add]) m
              · exact (passesAt_cons hq hj m).mpr (first m hlt)

/-- There is one outcome. -/
theorem RunsTo.unique {path : List Nat} {tree : Ref} {target : Judgement} {a b : Except Stop Unit}
    (ha : g.RunsTo path tree target a) (hb : g.RunsTo path tree target b) : a = b := by
  -- a position that fails does not pass
  have absurd_pass : ∀ {p x j e}, g.nodeAt? tree p = some x → g.goalAt? tree target p = some j →
      g.checkAt (p.reverse ++ path) x j = .error e → ¬ g.PassesAt path tree target p := by
    intro p x j e hx hj he h
    rw [h x j hx hj] at he
    cases he
  cases ha with
  | passes h =>
    cases hb with
    | passes => rfl
    | @fails p _ _ _ hx hj he _ => exact absurd (h p) (absurd_pass hx hj he)
  | @fails p x j e hx hj he first =>
    cases hb with
    | passes h => exact absurd (h p) (absurd_pass hx hj he)
    | @fails q y i e' hy hi he' first' =>
      rcases lt_trichotomy p q with h | rfl | h
      · exact absurd (first' p h) (absurd_pass hx hj he)
      · obtain rfl := Option.some.inj (hx.symm.trans hy)
        obtain rfl := Option.some.inj (hj.symm.trans hi)
        rw [← he, ← he']
      · exact absurd (first q h) (absurd_pass hy hi he')

/-! ## the unfolded derivation -/

/-- What a node shows: its rule and the sequent that it records. -/
def label (g : Graph) (x : Ref) : Option Rule × Option Judgement := (g.ruleOf? x, g.conclusion? x)

/-- The unfolded derivation: what the node at a position shows, if there is one. -/
def labelAt? (g : Graph) (tree : Ref) (p : List Nat) : Option (Option Rule × Option Judgement) :=
  (g.nodeAt? tree p).map g.label

section
variable {ps ps' : List Ref}

theorem checkNode_congr (h : ps.map g.conclusion? = ps'.map g.conclusion?) (R : Rule)
    (goal : Judgement) : g.checkNode R ps goal = g.checkNode R ps' goal := by
  have hlen : ps.length = ps'.length := by simpa using congrArg List.length h
  have hA : expectArity R ps = expectArity R ps' := by rw [expectArity, expectArity, hlen]
  have hp : g.premise ps = g.premise ps' := by
    funext i
    have hi : ps[i]?.map g.conclusion? = ps'[i]?.map g.conclusion? := by
      rw [← List.getElem?_map, h, List.getElem?_map]
    unfold premise
    cases hx : ps[i]? <;> cases hx' : ps'[i]? <;> simp_all
  have hP : g.expectPremise ps = g.expectPremise ps' := by
    funext i d
    rw [expectPremise, expectPremise, hp]
  have hJ : g.expectProjection ps = g.expectProjection ps' := by
    funext d s a
    rw [expectProjection, expectProjection, hP]
  cases R <;> simp only [checkNode, hA, hP, hJ]

theorem showSequent_of_judgement {c : Ref} {j : Judgement} (h : g.judgement? c = some j) :
    g.showSequent shown c = g.showJudgement j := by
  unfold judgement? at h
  split at h
  case h_2 => cases h
  case h_1 e t a hc =>
    rw [← Option.some.inj h, showSequent, showSequentWith, hc]
    rfl

theorem showSequent_of_not_sequent {limit : Option Int} {c : Ref} (h : g.judgement? c = none) :
    g.showSequent limit c = .error .noPart := by
  unfold judgement? at h
  rw [showSequent, showSequentWith]
  cases hget : g.get c with
  | sequent e t a =>
    rw [hget] at h
    cases h
  | _ => rfl

/-- The text of a premise is the text of the sequent that it records. -/
theorem showPremise_eq (i : Nat) : g.showPremise ps i =
    match ps[i]?.map g.conclusion? with
    | none => .error .noPremise
    | some none => .error .noPart
    | some (some j) => g.showJudgement j := by
  unfold showPremise
  cases ps[i]? with
  | none => rfl
  | some p =>
    simp only [Option.map_some]
    unfold conclusion?
    cases g.get p with
    | derivation R c q =>
      simp only
      cases hc : g.judgement? c with
      | some j => exact showSequent_of_judgement hc
      | none => exact showSequent_of_not_sequent hc
    | _ => rfl

theorem reject_congr (h : ps.map g.label = ps'.map g.label) (R : Rule) (path : Location)
    (f : RuleFault) : f.reject g R ps path = f.reject g R ps' path := by
  have hi : ∀ i : Nat, ps[i]?.map g.label = ps'[i]?.map g.label := by
    intro i
    rw [← List.getElem?_map, h, List.getElem?_map]
  have hs : g.showPremise ps = g.showPremise ps' := by
    funext i
    have hc : ps[i]?.map g.conclusion? = ps'[i]?.map g.conclusion? := by
      have hc := congrArg (Option.map Prod.snd) (hi i)
      rw [Option.map_map, Option.map_map] at hc
      exact hc
    rw [showPremise_eq, showPremise_eq, hc]
  have hm : f.message g R ps = f.message g R ps' := by
    cases f <;> simp only [RuleFault.message, hs]
  rw [RuleFault.reject, RuleFault.reject, hm]
  cases f with
  | premise i e =>
    have hr := congrArg (Option.map Prod.fst) (hi i)
    rw [Option.map_map, Option.map_map] at hr
    simp only
    cases hp : ps[i]? <;> cases hp' : ps'[i]? <;> simp_all [label]
  | _ => rfl

end

/-- The check of a node depends on what it and its premises show. -/
theorem checkAt_congr {x y : Ref} (h : g.label x = g.label y)
    (hp : (g.premisesOf x).map g.label = (g.premisesOf y).map g.label) (path : List Nat)
    (goal : Judgement) : g.checkAt path x goal = g.checkAt path y goal := by
  have hR : g.ruleOf? x = g.ruleOf? y := congrArg Prod.fst h
  have hc : (g.premisesOf x).map g.conclusion? = (g.premisesOf y).map g.conclusion? := by
    have hc := congrArg (List.map Prod.snd) hp
    rw [List.map_map, List.map_map] at hc
    exact hc
  unfold checkAt
  rw [hR]
  cases g.ruleOf? y with
  | none => rfl
  | some R =>
    simp only
    rw [checkNode_congr hc]
    cases g.checkNode R (g.premisesOf y) goal with
    | ok u => rfl
    | error e =>
      cases e with
      | failure f => rfl
      | fault f =>
        simp only
        rw [reject_congr hp]

theorem nodeAt?_append (tree : Ref) (p : List Nat) (i : Nat) :
    g.nodeAt? tree (p ++ [i]) = (g.nodeAt? tree p).bind fun x => (g.premisesOf x)[i]? := by
  induction p generalizing tree with
  | nil =>
    show ((g.premisesOf tree)[i]?.bind fun q => some q) = (g.premisesOf tree)[i]?
    cases (g.premisesOf tree)[i]? <;> rfl
  | cons k p ih =>
    show ((g.premisesOf tree)[k]?.bind fun q => g.nodeAt? q (p ++ [i])) = _
    rw [nodeAt?]
    cases (g.premisesOf tree)[k]? with
    | none => rfl
    | some q => exact ih q

section
variable {tree tree' : Ref} (h : ∀ p, g.labelAt? tree p = g.labelAt? tree' p)
include h

/-- Nodes at the same position of derivations that unfold to the same tree. -/
theorem exists_nodeAt? {p : List Nat} {x : Ref} (hx : g.nodeAt? tree p = some x) :
    ∃ y, g.nodeAt? tree' p = some y ∧ g.label x = g.label y ∧
      (g.premisesOf x).map g.label = (g.premisesOf y).map g.label := by
  have hp := h p
  rw [labelAt?, labelAt?, hx, Option.map_some] at hp
  obtain ⟨y, hy, hl⟩ := Option.map_eq_some_iff.mp hp.symm
  refine ⟨y, hy, hl.symm, List.ext_getElem? fun i => ?_⟩
  have hi := h (p ++ [i])
  rw [labelAt?, labelAt?, nodeAt?_append, nodeAt?_append, hx, hy] at hi
  rw [List.getElem?_map, List.getElem?_map]
  exact hi

theorem goalAt?_congr (target : Judgement) (p : List Nat) :
    g.goalAt? tree target p = g.goalAt? tree' target p := by
  cases p with
  | nil => rfl
  | cons i p =>
    show (g.nodeAt? tree (i :: p)).bind g.conclusion? =
      (g.nodeAt? tree' (i :: p)).bind g.conclusion?
    have hp := congrArg (fun o => o.bind Prod.snd) (h (i :: p))
    simp only [labelAt?, Option.bind_map] at hp
    exact hp

theorem PassesAt.congr {path p : List Nat} {target : Judgement}
    (hp : g.PassesAt path tree target p) : g.PassesAt path tree' target p := by
  intro y j hy hj
  obtain ⟨x, hx, hl, hps⟩ := exists_nodeAt? (fun p => (h p).symm) hy
  rw [checkAt_congr hl hps]
  exact hp x j hx (by rw [goalAt?_congr h, hj])

/-- The outcome depends on the unfolded derivation alone. -/
theorem RunsTo.congr {path : List Nat} {target : Judgement} {a : Except Stop Unit}
    (ha : g.RunsTo path tree target a) : g.RunsTo path tree' target a := by
  cases ha with
  | passes hall => exact .passes fun p => (hall p).congr h
  | @fails p x j e hx hj he first =>
    obtain ⟨y, hy, hl, hps⟩ := exists_nodeAt? h hx
    refine .fails (j := j) hy ?_ ?_ fun q hq => (first q hq).congr h
    · rw [← goalAt?_congr h, hj]
    · rw [← checkAt_congr hl hps, he]

end

/-! ## derivations that pass a survey -/

/-- The check of a node whose sequents can be compared comes to a verdict. -/
theorem checkAt_ne_failure {path : List Nat} {x : Ref} {goal : Judgement} {R : Rule}
    (hR : g.ruleOf? x = some R) (hps : g.AptPremises (g.premisesOf x)) (hgoal : g.Apt goal)
    (f : Failure) : g.checkAt path x goal ≠ .error (.failure f) := by
  have hsafe := checkNode_safe hps hgoal R
  intro h
  rw [checkAt, hR] at h
  simp only at h
  cases hc : g.checkNode R (g.premisesOf x) goal with
  | ok u => rw [hc] at h; cases h
  | error e =>
    rw [hc] at h hsafe
    cases e with
    | failure f => exact hsafe
    | fault f =>
      obtain ⟨r, hr⟩ := exists_reject R (.ofPath path) hsafe
      simp only [hr] at h
      cases h

theorem below_of_nodeAt? {tree x : Ref} {p : List Nat} (h : g.nodeAt? tree p = some x) :
    g.Below tree x := by
  induction p generalizing tree with
  | nil =>
    rw [← Option.some.inj h]
    exact .refl
  | cons i p ih =>
    obtain ⟨q, hq, hx⟩ := Option.bind_eq_some_iff.mp h
    exact (ih hx).head (List.mem_of_getElem? hq)

section
variable {limits : Limits} {tree : Ref} {target : Judgement} {memo : Memo} {s : Survey}
  (hm : g.checkTarget target = .ok memo)
  (hs : g.survey limits.written limits.maxDepth [] {} tree ⟨{}, memo⟩ = .ok s)
include hm hs

theorem runsTo_of_survey :
    g.RunsTo [] tree target (g.plainRules limits.maxDepth [] tree target) := by
  obtain ⟨hshallow, -, hn⟩ := looseIn_of_survey hm hs
  refine runsTo_plainRules [] target hshallow fun x hx => ?_
  obtain ⟨R, j, ps, hnode, -⟩ := hn x hx
  exact ⟨j, hnode.conclusion⟩

theorem apt_of_survey {x : Ref} (hx : g.Below tree x) :
    ∃ R j, g.ruleOf? x = some R ∧ g.conclusion? x = some j ∧ g.Apt j := by
  obtain ⟨R, j, ps, hnode, hj⟩ := (looseIn_of_survey hm hs).2.2 x hx
  exact ⟨R, j, hnode.rule, hnode.conclusion, apt_of_looseIn hj⟩

/-- What is compared at a position, after a survey that passes. -/
theorem apt_of_goalAt? {p : List Nat} {x : Ref} {goal : Judgement} (hx : g.nodeAt? tree p = some x)
    (hgoal : g.goalAt? tree target p = some goal) :
    (∃ R, g.ruleOf? x = some R) ∧ g.AptPremises (g.premisesOf x) ∧ g.Apt goal := by
  have hbelow := below_of_nodeAt? hx
  obtain ⟨R, j, hR, hj, hapt⟩ := apt_of_survey hm hs hbelow
  refine ⟨⟨R, hR⟩, fun q hq => ?_, ?_⟩
  · obtain ⟨-, i, -, hi, happ⟩ := apt_of_survey hm hs (hbelow.tail hq)
    exact ⟨i, hi, happ⟩
  · cases p with
    | nil =>
      rw [← Option.some.inj hgoal]
      exact apt_of_looseIn (looseIn_of_survey hm hs).2.1
    | cons k p =>
      have hgoal : (g.nodeAt? tree (k :: p)).bind g.conclusion? = some goal := hgoal
      rw [hx, Option.bind_some, hj] at hgoal
      rw [← Option.some.inj hgoal]
      exact hapt

theorem plainRules_ne_failure (f : Failure) :
    g.plainRules limits.maxDepth [] tree target ≠ .error (.failure f) := by
  intro hf
  have hrun := runsTo_of_survey hm hs
  rw [hf] at hrun
  cases hrun with
  | fails hx hj he _ =>
    obtain ⟨⟨R, hR⟩, hps, hgoal⟩ := apt_of_goalAt? hm hs hx hj
    exact checkAt_ne_failure hR hps hgoal f he

theorem map_checkRules_eq_plainRules :
    (g.checkRules limits.maxDepth [] tree target {}).map (fun _ => ()) =
      g.plainRules limits.maxDepth [] tree target :=
  (checkRules_below_eq_plainRules [] (looseIn_of_survey hm hs).1
    (fun _ hx => absurd hx RefSet.contains_empty) fun hx => absurd hx RefSet.contains_empty).1

end

/-- **A run over the rules is the plain recursion**: after a target and a derivation that pass, both
come to the same verdict, at the same place and with the same message. It is that of the first
position in pre-order which fails, there is always one, and it is the same for every derivation
that unfolds to the same tree. -/
theorem checkRules_eq_plainRules (limits : Limits) {tree : Ref} {target : Judgement} {memo : Memo}
    {s : Survey} (hm : g.checkTarget target = .ok memo)
    (hs : g.survey limits.written limits.maxDepth [] {} tree ⟨{}, memo⟩ = .ok s) :
    (g.checkRules limits.maxDepth [] tree target {}).map (fun _ => ()) =
        g.plainRules limits.maxDepth [] tree target ∧
      g.RunsTo [] tree target (g.plainRules limits.maxDepth [] tree target) ∧
      (∀ f, g.plainRules limits.maxDepth [] tree target ≠ .error (.failure f)) ∧
      ∀ (limits' : Limits) (tree' : Ref) (s' : Survey),
        g.survey limits'.written limits'.maxDepth [] {} tree' ⟨{}, memo⟩ = .ok s' →
        (∀ p, g.labelAt? tree' p = g.labelAt? tree p) →
        (g.checkRules limits'.maxDepth [] tree' target {}).map (fun _ => ()) =
          (g.checkRules limits.maxDepth [] tree target {}).map (fun _ => ()) := by
  refine ⟨map_checkRules_eq_plainRules hm hs, runsTo_of_survey hm hs, plainRules_ne_failure hm hs,
    fun limits' tree' s' hs' hl => ?_⟩
  rw [map_checkRules_eq_plainRules hm hs, map_checkRules_eq_plainRules hm hs']
  exact ((runsTo_of_survey hm hs').congr hl).unique (runsTo_of_survey hm hs)

/-- A derivation of `{x : P} ⊢ (x, (x, x)) : P × (P × P)` whose leaf at 12 is used twice, and whose last
leaf has the wrong rule. -/
def wrongLeaf : Graph where
  cells := #[.text "x", .text "P", .base 1, .env [(0, 2)], .var 0, .pair 4 4, .product 2 2, .pair 4 5,
    .product 2 6, .sequent 3 4 2, .rule .assm, .tuple [], .derivation 10 9 11, .rule .fstElim,
    .derivation 13 9 11, .sequent 3 5 6, .rule .pairIntro, .tuple [12, 14], .derivation 16 15 17,
    .sequent 3 7 8, .tuple [12, 18], .derivation 16 19 20]
  below := by decide
  apart := by decide

/-- The leaf at `[1, 0]` is passed over, and the one after it is rejected at its own place. -/
theorem checkRules_wrongLeaf : ∃ memo s, wrongLeaf.checkTarget ⟨3, 7, 8⟩ = .ok memo ∧
    wrongLeaf.survey "3" 3 [] {} 21 ⟨{}, memo⟩ = .ok s ∧
    (wrongLeaf.checkRules 3 [] 21 ⟨3, 7, 8⟩ {}).map (fun _ => ()) = .error (.reject
      ⟨.ruleTermMismatch, [1, 1], some .fstElim, "FstElim needs a left projection, got x"⟩) := by
  have hrun : (do
      let memo ← (wrongLeaf.checkTarget ⟨3, 7, 8⟩).mapError Stop.reject
      wrongLeaf.survey "3" 3 [] {} 21 ⟨{}, memo⟩).isOk = true := by decide +kernel
  cases hm : wrongLeaf.checkTarget ⟨3, 7, 8⟩ with
  | error r => rw [hm] at hrun; cases hrun
  | ok memo =>
    rw [hm] at hrun
    cases hs : wrongLeaf.survey "3" 3 [] {} 21 ⟨{}, memo⟩ with
    | error e =>
      have hrun' : (wrongLeaf.survey "3" 3 [] {} 21 ⟨{}, memo⟩).isOk = true := hrun
      rw [hs] at hrun'
      cases hrun'
    | ok s =>
      refine ⟨memo, s, rfl, hs, ?_⟩
      rw [(checkRules_eq_plainRules ⟨3, by decide, "3"⟩ hm hs).1]
      decide +kernel

end Graph

end NaturalDeduction

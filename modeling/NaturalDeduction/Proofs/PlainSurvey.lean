import NaturalDeduction.Proofs.Survey

/-!
# Surveys and plain walks

* `Graph.plainSurvey`   the walk that a survey stands for: it remembers nothing but the nodes above,
                        and looks at a node again on every way to it;
* `plainSurvey_known`   on a node of known height the plain walk goes wrong only by its depth, and
                        at the place that `deepest` finds;
* `survey_eq_plainSurvey`   where no value occurs in two roles, a survey and the plain walk agree.
-/

namespace NaturalDeduction

namespace Graph
variable {g : Graph}

/-- Walks the node at `r` and everything below it in pre-order. `path` leads to it from the root,
the last index first, `above` are the nodes on the way, and `levels` is how many more levels of nodes
there may be. -/
def plainSurvey (g : Graph) (written : String) (levels : Nat) (path : List Nat) (above : List Ref)
    (r : Ref) : Except Stop Unit :=
  match g.get r with
  | .derivation R c p =>
    if r ∈ above then .error (misshapen (.ofPath path) "derivation contains itself")
    else
      match levels with
      | 0 => .error (tooDeep (.ofPath path) written)
      | n + 1 =>
        match g.get R with
        | .rule rule =>
          match (g.get p).sequence? with
          | some ps =>
            if (g.sequentOk none c).1 then
              if (g.get p).holdsBytes then
                .error (notDerivation (Location.ofPath path ++ [0]) .int)
              else
                ps.zipIdx.forM fun q => g.plainSurvey written n (q.2 :: path) (r :: above) q.1
            else
              .error (.reject ⟨.malformedInput, .ofPath path, some rule,
                "recorded conclusion is not a well-formed sequent"⟩)
          | none => .error (misshapen (.ofPath path) "premises must be a sequence of derivations")
        | _ => .error (unknownRule (.ofPath path) (g.quote? R))
  | c => .error (notDerivation (.ofPath path) c.kind)
termination_by structural levels

/-- Steps that fail where `P` holds fail at the first such place. -/
theorem forM_eq_find? {ε α : Type} {f : α → Except ε Unit} {P : α → Bool} {e : α → ε} {l : List α}
    (h : ∀ a ∈ l, f a = if P a then .error (e a) else .ok ()) :
    l.forM f =
      match l.find? P with
      | some a => .error (e a)
      | none => .ok () := by
  induction l with
  | nil => rfl
  | cons a l ih =>
    have ih := ih fun b hb => h b (List.mem_cons_of_mem _ hb)
    show (f a >>= fun _ => l.forM f) = _
    rw [h a List.mem_cons_self, List.find?_cons]
    cases P a with
    | true => rfl
    | false => exact ih

theorem ofPath_cons (i : Nat) (path : List Nat) :
    Location.ofPath (i :: path) = Location.ofPath path ++ [(i : Int)] := by
  simp [Location.ofPath]

/-- A node, to the plain walk, if it is not above itself and not too deep. -/
theorem plainSurvey_node {written : String} {n : Nat} {path : List Nat} {above : List Ref} {r : Ref}
    {R : Rule} {j : Judgement} {ps : List Ref} (hn : g.IsNode r R j ps) (hj : g.WellStated j)
    (ha : r ∉ above) :
    g.plainSurvey written (n + 1) path above r =
      ps.zipIdx.forM fun q => g.plainSurvey written n (q.2 :: path) (r :: above) q.1 := by
  obtain ⟨hR, hc, hp⟩ := hn
  unfold ruleOf? at hR
  unfold conclusion? at hc
  unfold sequenceOf? at hp
  cases hr : g.get r with
  | derivation tag c p =>
    simp only [hr] at hR hc hp
    have hc' : (g.sequentOk none c).1 = true := sequentOk_none_iff.mpr ⟨j, hc, hj⟩
    split at hR
    · rename_i R' hR'
      split at hp
      · exact absurd hp (by simp)
      · rename_i hb
        rw [plainSurvey]
        simp only [hr, hR', hp, hc', hb, if_neg ha, if_true, Bool.false_eq_true, if_false]
    · exact absurd hR (by simp)
  | _ => simp [hr] at hR

/-- On a node of known height the plain walk can only go too deep, and it does so first at the place
that `deepest` finds. Nodes above are higher, so that none of them is met again. -/
theorem plainSurvey_known {hs : Heights} (H : g.Surveyed g.WellFormed hs) (written : String)
    (levels : Nat) :
    ∀ (path : List Nat) (above : List Ref) {r : Ref} {h : Nat}, hs[r]? = some h →
      (∀ a ∈ above, ∀ k, hs[a]? = some k → h < k) →
      (h < levels → g.plainSurvey written levels path above r = .ok ()) ∧
      (levels ≤ h → ∃ below, g.deepest hs levels r = .ok below ∧
        g.plainSurvey written levels path above r =
          .error (tooDeep (Location.ofPath path ++ below) written)) := by
  induction levels with
  | zero =>
    intro path above r h hr ha
    refine ⟨fun hlt => by omega, fun _ => ⟨[], rfl, ?_⟩⟩
    obtain ⟨R, j, ps, hn, -, -⟩ := H r h hr
    have hra : r ∉ above := fun hm => absurd (ha r hm h hr) (Nat.lt_irrefl h)
    have hR := hn.rule
    unfold ruleOf? at hR
    rw [plainSurvey]
    cases hg : g.get r with
    | derivation tag c p => simp [hra]
    | _ => simp [hg] at hR
  | succ n ih =>
    intro path above r h hr ha
    obtain ⟨R, j, ps, hn, hj, hh⟩ := H r h hr
    have hra : r ∉ above := fun hm => absurd (ha r hm h hr) (Nat.lt_irrefl h)
    have hw : g.WellStated j := by simpa [Judgement.roots, WellStated] using hj
    rw [plainSurvey_node hn hw hra]
    -- a premise fails exactly if it reaches `n` levels down
    have hstep : ∀ q ∈ ps.zipIdx, g.plainSurvey written n (q.2 :: path) (r :: above) q.1 =
        if hs[q.1]?.any (n ≤ ·) then
          .error (tooDeep (Location.ofPath (q.2 :: path) ++
            ((g.deepest hs n q.1).toOption.getD [])) written)
        else .ok () := by
      intro q hq
      obtain ⟨k, hk, hkh⟩ := lt_of_heightAbove hh q.1 (mem_of_mem_zipIdx hq)
      have hab : ∀ a ∈ r :: above, ∀ l, hs[a]? = some l → k < l := by
        refine List.forall_mem_cons.mpr ⟨fun l hl => ?_, fun a haa l hl => ?_⟩
        · rw [hr] at hl
          exact Option.some.inj hl ▸ hkh
        · exact Nat.lt_trans hkh (ha a haa l hl)
      obtain ⟨hok, hdeep⟩ := ih (q.2 :: path) (r :: above) hk hab
      by_cases hnk : n ≤ k
      · obtain ⟨below, hb, he⟩ := hdeep hnk
        simp [hk, hnk, hb, he]
      · simp [hk, hnk, hok (by omega)]
    rw [forM_eq_find? hstep]
    constructor
    · intro hlt
      have hnone : ps.zipIdx.find? (fun q => hs[q.1]?.any (n ≤ ·)) = none := by
        rw [List.find?_eq_none]
        intro q hq
        obtain ⟨k, hk, hkh⟩ := lt_of_heightAbove hh q.1 (mem_of_mem_zipIdx hq)
        simp [hk]
        omega
      simp [hnone]
    · intro hle
      rw [deepest, hn.premisesOf]
      cases hf : ps.zipIdx.find? (fun q => hs[q.1]?.any (n ≤ ·)) with
      | none =>
        obtain ⟨p, hp, k, hk, hnk⟩ := exists_of_lt_heightAbove hh (Nat.lt_of_succ_le hle)
        obtain ⟨i, hi, rfl⟩ := List.getElem_of_mem hp
        have hq : (ps[i], i) ∈ ps.zipIdx :=
          List.mk_mem_zipIdx_iff_getElem?.mpr (List.getElem?_eq_getElem hi)
        exact absurd (List.find?_eq_none.mp hf _ hq) (by simp [hk, hnk])
      | some q =>
        have hq := List.mem_of_find?_eq_some hf
        obtain ⟨k, hk, hkh⟩ := lt_of_heightAbove hh q.1 (mem_of_mem_zipIdx hq)
        have hnk : n ≤ k := by simpa [hk] using List.find?_some hf
        obtain ⟨below, hb, -⟩ := (ih [] [] hk (by simp)).2 hnk
        refine ⟨(q.2 : Int) :: below, by simp [hb, Except.map], ?_⟩
        simp [hb, ofPath_cons, List.append_assoc]

/-! ## memos of values that keep to one role -/

section
variable {tree : Ref} {target : Judgement}

/-- Every value in the memo occurs in a role in which it is well formed. -/
def Backed (g : Graph) (tree : Ref) (target : Judgement) (m : Memo) : Prop :=
  ∀ r, m.knows r = true → ∃ ρ, g.Occurs tree target ρ r ∧ g.WellFormed ρ r

theorem trust_backed (h : g.RolesApart tree target) :
    g.Trust (g.Occurs tree target) g.WellFormed (g.Backed tree target) where
  part hu hp := hu.part hp
  build := .intro
  known := by
    intro m r ρ hm hk hu _
    obtain ⟨σ, hσ, hw⟩ := hm r hk
    exact h σ ρ r hσ hu ▸ hw
  grow := fun hm _ hg r hr => (hg r hr).elim (hm r) id

theorem checkTarget_eq_ok {m : Memo} (h : g.checkTarget target = .ok m) :
    g.judgementOk (some {}) target.env target.term target.ty = (true, m) := by
  rcases he : g.envOk (some {}) target.env with ⟨_ | _, m₁⟩
  · simp [checkTarget, he] at h
  · rcases ht : g.termFault m₁ target.term with ⟨_ | p, m₂⟩
    · rcases ha : g.typeFault m₂ target.ty with ⟨_ | p, m₃⟩
      · obtain rfl : m₃ = m := by simpa [checkTarget, he, ht, ha] using h
        simp [judgementOk, he, ht, ha]
      · simp [checkTarget, he, ht, ha] at h
    · simp [checkTarget, he, ht] at h

/-- A well-formed target passes. -/
theorem exists_checkTarget (h : g.WellStated target) : ∃ m, g.checkTarget target = .ok m := by
  obtain ⟨he, ht, ha⟩ := h
  unfold checkTarget
  split
  case h_1 h₁ => exact absurd (fst_envOk_of_wellFormed he (some {})) (by simp [h₁])
  case h_2 m₁ h₁ =>
    split
    case h_1 h₂ => exact absurd (fst_termFault_of_wellFormed ht m₁) (by simp [h₂])
    case h_2 m₂ h₂ =>
      split
      case h_1 h₃ => exact absurd (fst_typeFault_of_wellFormed ha m₂) (by simp [h₃])
      case h_2 m₃ h₃ => exact ⟨m₃, rfl⟩

/-- The memo that a well-formed target leaves. -/
theorem checkTarget_trusted {U Q : Role → Ref → Prop} {I : Memo → Prop} (T : g.Trust U Q I)
    (h₀ : I (some {})) (hU : ∀ p ∈ target.roots, U p.1 p.2) {m : Memo}
    (h : g.checkTarget target = .ok m) : (∀ p ∈ target.roots, Q p.1 p.2) ∧ I m :=
  judgementOk_trusted T h₀ hU (checkTarget_eq_ok h)

theorem backed_empty : g.Backed tree target (some {}) := by
  intro r hr
  exact absurd hr (by simp [Memo.knows])

theorem occurs_of_below {x : Ref} {j : Judgement} (hx : g.Below tree x)
    (hj : g.conclusion? x = some j) : ∀ p ∈ j.roots, g.Occurs tree target p.1 p.2 :=
  fun _ hp => Stated.occurs (.inr ⟨x, hx, hj⟩) hp

/-- A trusted memo does not change whether a recorded sequent is well formed. -/
theorem fst_sequentOk_backed (h : g.RolesApart tree target) {m : Memo}
    (hm : g.Backed tree target m) {x tag c p : Ref} (hx : g.Below tree x)
    (hg : g.get x = .derivation tag c p) : (g.sequentOk m c).1 = (g.sequentOk none c).1 := by
  cases hc : g.judgement? c with
  | none => rw [sequentOk_of_none hc, sequentOk_of_none hc]
  | some j =>
    have hj : g.conclusion? x = some j := by simp [conclusion?, hg, hc]
    rw [sequentOk_of_some hc, sequentOk_of_some hc, Bool.eq_iff_iff, judgementOk_none_iff]
    refine ⟨fun hk => ?_, fun hw => judgementOk_complete hw m⟩
    have hq := (judgementOk_trusted (trust_backed h) hm (occurs_of_below hx hj)
      (Prod.ext hk rfl)).1
    simpa [Judgement.roots, WellStated] using hq

theorem backed_of_sequentOk (h : g.RolesApart tree target) {m m' : Memo}
    (hm : g.Backed tree target m) {x tag c p : Ref} (hx : g.Below tree x)
    (hg : g.get x = .derivation tag c p) (hc : g.sequentOk m c = (true, m')) :
    g.Backed tree target m' := by
  cases hj : g.judgement? c with
  | none => simp [sequentOk_of_none hj] at hc
  | some j =>
    rw [sequentOk_of_some hj] at hc
    have hx' : g.conclusion? x = some j := by simp [conclusion?, hg, hj]
    exact (judgementOk_trusted (trust_backed h) hm (occurs_of_below hx hx') hc).2

/-! ## the agreement -/

theorem map_unit_eq {ε α : Type} {x : Except ε α} {y : Except ε Unit} :
    x.map (fun _ => ()) = y ↔ (∃ a, x = .ok a ∧ y = .ok ()) ∨ ∃ e, x = .error e ∧ y = .error e := by
  cases x <;> cases y <;> simp [Except.map, eq_comm]

/-- The survey of premises, one after the other, agrees with the plain walk if each one does and
keeps what the next one relies on. -/
theorem foldlM_eq_forM {σ ε α : Type} {P : σ → Prop} {f : σ → α → Except ε σ} {k : α → Except ε Unit}
    {l : List α} (step : ∀ a ∈ l, ∀ s, P s → (f s a).map (fun _ => ()) = k a ∧
      ∀ s', f s a = .ok s' → P s') {s : σ} (hs : P s) :
    (l.foldlM f s).map (fun _ => ()) = l.forM k := by
  induction l generalizing s with
  | nil => rfl
  | cons a l ih =>
    obtain ⟨hk, hP⟩ := step a List.mem_cons_self s hs
    rw [List.foldlM_cons]
    show _ = (k a >>= fun _ => l.forM k)
    rcases map_unit_eq.mp hk with ⟨t, ht, hka⟩ | ⟨e, he, hka⟩
    · rw [ht, hka]
      exact ih (fun b hb => step b (List.mem_cons_of_mem _ hb)) (hP t ht)
    · rw [he, hka]
      rfl

/-- The premises of a node, and the height that the node gets from them. -/
theorem survey_premises_eq_plainSurvey (h : g.RolesApart tree target) {written : String} {n : Nat}
    {path : List Nat} {above : RefSet} {nodes : List Ref} {r : Ref} {s : Survey} {ps : List Ref}
    (hr : g.Below tree r) (hs : g.Knows g.WellFormed (g.Backed tree target) s)
    (hab : ∀ a, above.contains a = true ↔ a ∈ nodes) (hnodes : ∀ a ∈ nodes, s.heights[a]? = none)
    (hps : g.premisesOf r = ps)
    (ih : ∀ q ∈ ps.zipIdx, ∀ t, g.Knows g.WellFormed (g.Backed tree target) t →
      (∀ a ∈ nodes, t.heights[a]? = none) →
      (g.survey written n (q.2 :: path) above q.1 t).map (fun _ => ()) =
        g.plainSurvey written n (q.2 :: path) nodes q.1) :
    (do
      let s ← ps.zipIdx.foldlM
        (fun s (q : Ref × Nat) => g.survey written n (q.2 :: path) above q.1 s) s
      match heightAbove s.heights ps with
      | .error f => (.error (.failure f) : Except Stop Survey)
      | .ok k => .ok { s with heights := s.heights.insert r k }).map (fun _ => ()) =
      ps.zipIdx.forM fun q => g.plainSurvey written n (q.2 :: path) nodes q.1 := by
  have hbelow : ∀ q ∈ ps.zipIdx, g.Below tree q.1 := fun q hq =>
    hr.tail (hps ▸ mem_of_mem_zipIdx hq)
  have hstep : ∀ q ∈ ps.zipIdx, ∀ t t', g.Knows g.WellFormed (g.Backed tree target) t →
      g.survey written n (q.2 :: path) above q.1 t = .ok t' →
      g.Knows g.WellFormed (g.Backed tree target) t' ∧ Grows above t.heights t'.heights ∧
        ∃ k, t'.heights[q.1]? = some k ∧ k < n := fun q hq t t' ht hw =>
    survey_surveyed (trust_backed h) (fun x j => occurs_of_below) (hbelow q hq) ht hw
  have hfold := foldlM_eq_forM
    (P := fun t => g.Knows g.WellFormed (g.Backed tree target) t ∧
      ∀ a ∈ nodes, t.heights[a]? = none)
    (f := fun s (q : Ref × Nat) => g.survey written n (q.2 :: path) above q.1 s) (l := ps.zipIdx)
    (fun q hq t ht => ⟨ih q hq t ht.1 ht.2, fun t' hw => by
      obtain ⟨hk, hg, -⟩ := hstep q hq t t' ht.1 hw
      exact ⟨hk, fun a ha => hg.above a ((hab a).mpr ha) (ht.2 a ha)⟩⟩) ⟨hs, hnodes⟩
  rw [← hfold]
  cases hf : ps.zipIdx.foldlM (fun s q => g.survey written n (q.2 :: path) above q.1 s) s with
  | error e => rfl
  | ok t =>
    obtain ⟨-, -, hall⟩ := foldlM_survey hstep hs hf
    obtain ⟨k, -, hk⟩ := exists_heightAbove (forall_of_zipIdx hall)
    show Except.map _ (match heightAbove t.heights ps with
      | .error f => (.error (.failure f) : Except Stop Survey)
      | .ok k => .ok { t with heights := t.heights.insert r k }) = _
    rw [hk]
    rfl

/-- A survey that knows what it has passed goes the way of the plain walk. -/
theorem survey_below_eq_plainSurvey (h : g.RolesApart tree target) (written : String)
    (levels : Nat) :
    ∀ (path : List Nat) (above : RefSet) (nodes : List Ref) {r : Ref} {s : Survey},
      g.Below tree r → g.Knows g.WellFormed (g.Backed tree target) s →
      (∀ a, above.contains a = true ↔ a ∈ nodes) →
      (∀ a ∈ nodes, s.heights[a]? = none) →
      (g.survey written levels path above r s).map (fun _ => ()) =
        g.plainSurvey written levels path nodes r := by
  induction levels using Nat.strongRecOn with
  | ind levels ih =>
    intro path above nodes r s hr hs hab hnodes
    cases hg : g.get r with
    | derivation tag c p =>
      by_cases hra : r ∈ nodes
      · rw [survey, plainSurvey]
        simp [hg, hra, (hab r).mpr hra, Except.map]
      · have hra' : ¬ above.contains r = true := fun h => hra ((hab r).mp h)
        cases hk : s.heights[r]? with
        | some k =>
          obtain ⟨hok, hdeep⟩ := plainSurvey_known hs.heights written levels path nodes hk
            (fun a ha l hl => absurd hl (by rw [hnodes a ha]; simp))
          rw [survey]
          simp only [hg, if_neg hra', hk]
          by_cases hlk : levels ≤ k
          · obtain ⟨below, hb, he⟩ := hdeep hlk
            rw [he, if_pos hlk, hb]
            rfl
          · rw [hok (by omega), if_neg hlk]
            rfl
        | none =>
          cases levels with
          | zero =>
            rw [survey, plainSurvey]
            simp [hg, hra, hra', hk, Except.map]
          | succ n =>
            have hseq := fst_sequentOk_backed h hs.memo hr hg
            rw [survey, plainSurvey]
            simp only [hg, if_neg hra', if_neg hra, hk]
            cases hR : g.get tag with
            | rule R =>
              cases hps : (g.get p).sequence? with
              | none => rfl
              | some ps =>
                rcases hm : g.sequentOk s.memo c with ⟨_ | _, memo⟩
                · rw [hm] at hseq
                  simp [← hseq, Except.map]
                · rw [hm] at hseq
                  by_cases hb : (g.get p).holdsBytes = true
                  · simp [← hseq, hb, Except.map]
                  · simp only [← hseq, hb, if_true, Bool.false_eq_true, if_false]
                    have hmemo : g.Backed tree target memo := backed_of_sequentOk h hs.memo hr hg hm
                    have hitems : g.premisesOf r = ps := by
                      rw [premisesOf, hg]
                      exact Cell.items_of_sequence? hps
                    have hab' : ∀ a, (above.insert r).contains a = true ↔ a ∈ r :: nodes := by
                      intro a
                      rw [RefSet.contains_insert_iff, List.mem_cons, hab]
                    refine survey_premises_eq_plainSurvey (s := { s with memo }) h hr
                      ⟨hmemo, hs.heights⟩ hab'
                      (List.forall_mem_cons.mpr ⟨hk, hnodes⟩) hitems fun q hq t ht hn => ?_
                    exact ih n (Nat.lt_succ_self n) (q.2 :: path) (above.insert r) (r :: nodes)
                      (hr.tail (hitems ▸ mem_of_mem_zipIdx hq)) ht hab' hn
            | _ => rfl
    | _ =>
      rw [survey, plainSurvey]
      simp [hg, Except.map]

/-- Where no value occurs in two roles, a survey is the plain walk. -/
theorem map_survey_of_rolesApart (limits : Limits) (h : g.RolesApart tree target) {memo : Memo}
    (hm : g.checkTarget target = .ok memo) :
    (g.survey limits.written limits.maxDepth [] {} tree ⟨{}, memo⟩).map (fun _ => ()) =
      g.plainSurvey limits.written limits.maxDepth [] [] tree := by
  have hb : g.Backed tree target memo := (checkTarget_trusted (trust_backed h) backed_empty
    (fun p hp => Stated.occurs (.inl rfl) hp) hm).2
  exact survey_below_eq_plainSurvey h limits.written limits.maxDepth [] {} [] .refl
    ⟨hb, fun x k hx => absurd hx (by simp)⟩ (by simp) (by simp)

/-- After a target that passes, the survey of a derivation and the plain walk through it reach the
same verdict, at the same place and with the same message. -/
theorem survey_eq_plainSurvey (limits : Limits) {memo : Memo}
    (hm : g.checkTarget target = .ok memo) (h : g.RolesApart tree target) :
    (g.survey limits.written limits.maxDepth [] {} tree ⟨{}, memo⟩).map (fun _ => ()) =
      g.plainSurvey limits.written limits.maxDepth [] [] tree :=
  map_survey_of_rolesApart limits h hm

end

/-- The nodes below `tree` are in every list that holds `tree` and the premises of its members. -/
theorem mem_of_below {tree x : Ref} {l : List Ref} (ht : tree ∈ l)
    (hl : ∀ y ∈ l, ∀ z ∈ g.premisesOf y, z ∈ l) (hx : g.Below tree x) : x ∈ l := by
  induction hx with
  | refl => exact ht
  | tail _ hz ih => exact hl _ ih _ hz

/-- A derivation whose first premise, at 8, is a premise of its second one as well. -/
def twiceUsed : Graph where
  cells := #[.text "x", .text "P", .base 1, .env [(0, 2)], .var 0, .sequent 3 4 2, .rule .assm,
    .tuple [], .derivation 6 5 7, .rule .fstElim, .tuple [8], .derivation 9 5 10, .rule .pairIntro,
    .tuple [8, 11], .derivation 12 5 13]
  below := by decide
  apart := by decide

theorem wellStated_twiceUsed : twiceUsed.WellStated ⟨3, 4, 2⟩ :=
  judgementOk_none_iff.mp (by decide +kernel)

theorem rolesApart_twiceUsed : twiceUsed.RolesApart 14 ⟨3, 4, 2⟩ := by
  refine rolesApart_of_wellStated fun j hj => ?_
  suffices h : j = ⟨3, 4, 2⟩ from h ▸ wellStated_twiceUsed
  rcases hj with rfl | ⟨x, hx, hj⟩
  · rfl
  · have hm : x ∈ [8, 11, 14] := mem_of_below (by decide) (by decide) hx
    have hc : ∀ y ∈ [8, 11, 14], twiceUsed.conclusion? y = some ⟨3, 4, 2⟩ := by decide
    exact Option.some.inj (hj.symm.trans (hc x hm))

/-- With two levels the shared node is passed as the first premise, and lies too deep below the
second one. -/
theorem survey_twiceUsed : ∃ memo, twiceUsed.checkTarget ⟨3, 4, 2⟩ = .ok memo ∧
    twiceUsed.RolesApart 14 ⟨3, 4, 2⟩ ∧
    (twiceUsed.survey "2" 2 [] {} 14 ⟨{}, memo⟩).map (fun _ => ()) =
      .error (tooDeep [1, 0] "2") := by
  obtain ⟨memo, hm⟩ := exists_checkTarget wellStated_twiceUsed
  refine ⟨memo, hm, rolesApart_twiceUsed, ?_⟩
  rw [survey_eq_plainSurvey ⟨2, by decide, "2"⟩ hm rolesApart_twiceUsed]
  have h₈ : twiceUsed.IsNode 8 .assm ⟨3, 4, 2⟩ [] := ⟨rfl, rfl, rfl⟩
  have h₁₁ : twiceUsed.IsNode 11 .fstElim ⟨3, 4, 2⟩ [8] := ⟨rfl, rfl, rfl⟩
  have h₁₄ : twiceUsed.IsNode 14 .pairIntro ⟨3, 4, 2⟩ [8, 11] := ⟨rfl, rfl, rfl⟩
  rw [plainSurvey_node h₁₄ wellStated_twiceUsed (by simp)]
  show (twiceUsed.plainSurvey "2" 1 [0] [14] 8 >>= fun _ =>
    twiceUsed.plainSurvey "2" 1 [1] [14] 11 >>= fun _ => .ok ()) = _
  rw [plainSurvey_node h₈ wellStated_twiceUsed (by simp),
    plainSurvey_node h₁₁ wellStated_twiceUsed (by simp)]
  rfl

end Graph

end NaturalDeduction

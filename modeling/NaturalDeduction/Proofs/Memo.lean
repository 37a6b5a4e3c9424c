import NaturalDeduction.Proofs.Roles

/-!
# Walks with a memo

A walk passes over the values in the memo, whatever they are asked to be. What a successful walk
shows therefore depends on what stands behind the memo.

* `typeWalk_toOption`, `termWalk_toOption`   a walk, paths aside, is a fold over the parts;
* `Graph.Trust`             what stands behind a memo: a property `Q` that passes from parts to
                            wholes, for the values that occur in the roles `U`;
* `judgementOk_trusted`     a sequent that passes has `Q`, and the memo after it can be trusted;
* `judgementOk_complete`    a well-formed sequent passes with any memo;
* `sequentOk_none_iff`      without a memo, exactly the well-formed sequents pass.
-/

namespace NaturalDeduction

section
variable {ε ε' α σ : Type}

@[simp] theorem toOption_ok (a : α) : (Except.ok a : Except ε α).toOption = some a := rfl

@[simp] theorem toOption_error (e : ε) : (Except.error e : Except ε α).toOption = none := rfl

@[simp] theorem toOption_mapError (f : ε → ε') (x : Except ε α) :
    (x.mapError f).toOption = x.toOption := by
  cases x <;> rfl

/-- What every step of a fold keeps, the fold keeps; what every step shows, the fold shows. -/
theorem foldlM_keeps {f : σ → α → Option σ} {P : σ → Prop} {R : α → Prop} {l : List α}
    (step : ∀ a ∈ l, ∀ s s', P s → f s a = some s' → P s' ∧ R a) {s s' : σ} (hs : P s)
    (h : l.foldlM f s = some s') : P s' ∧ ∀ a ∈ l, R a := by
  induction l generalizing s with
  | nil =>
    obtain rfl : s = s' := by simpa using h
    exact ⟨hs, by simp⟩
  | cons a l ih =>
    rw [List.foldlM_cons] at h
    obtain ⟨t, ht, h'⟩ := Option.bind_eq_some_iff.mp h
    obtain ⟨hP, hR⟩ := step a List.mem_cons_self s t hs ht
    obtain ⟨hP', hR'⟩ := ih (fun b hb => step b (List.mem_cons_of_mem _ hb)) hP h'
    exact ⟨hP', List.forall_mem_cons.mpr ⟨hR, hR'⟩⟩

theorem foldlM_isSome {f : σ → α → Option σ} {l : List α}
    (h : ∀ a ∈ l, ∀ s, (f s a).isSome) (s : σ) : (l.foldlM f s).isSome := by
  induction l generalizing s with
  | nil => rfl
  | cons a l ih =>
    obtain ⟨t, ht⟩ := Option.isSome_iff_exists.mp (h a List.mem_cons_self s)
    rw [List.foldlM_cons, ht]
    exact ih (fun b hb => h b (List.mem_cons_of_mem _ hb)) t

end

theorem RefSet.contains_insert_iff {s : RefSet} {r x : Ref} :
    (s.insert r).contains x = true ↔ x = r ∨ s.contains x = true := by
  rw [Std.TreeSet.contains_insert, Bool.or_eq_true, beq_iff_eq, Std.LawfulEqCmp.compare_eq_iff_eq, eq_comm]

theorem RefSet.contains_empty {x : Ref} : ¬ (∅ : RefSet).contains x = true := by simp

namespace Memo

theorem knows_learn_some {s t : RefSet} {r : Ref} :
    knows (learn (some t) s) r = true ↔ t.contains r = true ∨ s.contains r = true := by
  simp only [learn, knows, Option.map_some, Option.any_some,
    Std.TreeSet.contains_insertMany_list, Bool.or_eq_true, List.contains_iff_mem,
    Std.TreeSet.mem_toList]
  rfl

theorem knows_note_some {t : RefSet} {r x : Ref} :
    knows (note (some t) r) x = true ↔ x = r ∨ t.contains x = true := RefSet.contains_insert_iff

theorem knows_learn {m : Memo} {s : RefSet} {r : Ref} (h : (m.learn s).knows r = true) :
    m.knows r = true ∨ s.contains r = true := by
  cases m with
  | none => cases h
  | some t => exact knows_learn_some.mp h

theorem knows_note {m : Memo} {r x : Ref} (h : (m.note r).knows x = true) :
    m.knows x = true ∨ x = r := by
  cases m with
  | none => cases h
  | some t => exact (knows_note_some.mp h).symm

end Memo

namespace Graph
variable {g : Graph}

/-! ## walks as folds -/

theorem fits_of_role?_ne {ρ : Role} {c : Cell} (h : c.role? ≠ some ρ) : g.fits ρ c = false := by
  simp [fits, h]

theorem typeWalk_toOption (m : Memo) (r : Ref) (seen : RefSet) :
    (g.typeWalk m r seen).toOption =
      if seen.contains r || m.knows r then some seen
      else if g.fits .type (g.get r) then
        (Role.type.parts (g.get r)).foldlM (fun seen p => (g.typeWalk m p.2 seen).toOption)
          (seen.insert r)
      else none := by
  rw [typeWalk]
  split
  · rfl
  · split
    case h_1 h => simp [h, fits, Role.parts, Cell.role?, Cell.labels, Cell.parts]
    case h_2 n h =>
      cases hn : g.isName n <;> simp [h, hn, fits, Role.parts, Cell.role?, Cell.labels, Cell.parts]
    case h_3 a b h | h_4 a b h | h_5 a b h =>
      cases ha : g.typeWalk m a (seen.insert r) <;>
        simp [h, ha, fits, Role.parts, Cell.role?, Cell.labels, Cell.parts]
    case h_6 =>
      have hr : (g.get r).role? ≠ some .type := by
        cases hc : g.get r <;> simp_all [Cell.role?]
      rw [fits_of_role?_ne hr]
      rfl

/-- What a walk through a term does with one of its parts. -/
def walkPart (g : Graph) (w : Walk) (p : Role × Ref) : Option Walk :=
  match p.1 with
  | .type =>
    match g.typeFault w.memo p.2 with
    | (none, m) => some { w with memo := m }
    | (some _, _) => none
  | .term => (g.termWalk p.2 w).toOption
  | .env => none

theorem termWalk_toOption (r : Ref) (w : Walk) :
    (g.termWalk r w).toOption =
      if w.seen.contains r || w.memo.knows r then some w
      else if g.fits .term (g.get r) then
        (Role.term.parts (g.get r)).foldlM g.walkPart (w.visit r)
      else none := by
  rw [termWalk]
  split
  · rfl
  · split
    case h_1 n h =>
      cases hn : g.isName n <;> simp [h, hn, fits, Role.parts, Cell.role?, Cell.labels, Cell.parts]
    case h_2 a b h =>
      cases ha : g.termWalk a (w.visit r) <;>
        simp [h, ha, fits, walkPart, Role.parts, Cell.role?, Cell.labels, Cell.parts]
    case h_3 a h | h_4 a h | h_6 a h | h_7 a h | h_9 a h =>
      simp [h, fits, walkPart, Role.parts, Cell.role?, Cell.labels, Cell.parts]
    case h_5 a b c h =>
      cases ha : g.termWalk a (w.visit r) with
      | error e => simp [h, ha, fits, walkPart, Role.parts, Cell.role?, Cell.labels, Cell.parts]
      | ok v =>
        cases hb : g.termWalk b v <;>
          simp [h, ha, hb, fits, walkPart, Role.parts, Cell.role?, Cell.labels, Cell.parts]
    case h_8 x a b h =>
      cases hx : g.isName x with
      | false => simp [h, hx, fits, Cell.role?, Cell.labels]
      | true =>
        rcases ha : g.typeFault w.memo a with ⟨_ | p, m⟩ <;>
          simp [h, hx, ha, fits, walkPart, Walk.visit, Role.parts, Cell.role?, Cell.labels,
            Cell.parts]
    case h_10 =>
      have hr : (g.get r).role? ≠ some .term := by
        cases hc : g.get r <;> simp_all [Cell.role?]
      rw [fits_of_role?_ne hr]
      rfl

theorem fst_typeFault (m : Memo) (r : Ref) :
    (g.typeFault m r).1 = none ↔ ((g.typeWalk m r {}).toOption).isSome := by
  unfold typeFault
  cases g.typeWalk m r {} <;> simp

theorem fst_termFault (m : Memo) (r : Ref) :
    (g.termFault m r).1 = none ↔ ((g.termWalk r ⟨{}, m⟩).toOption).isSome := by
  unfold termFault
  cases g.termWalk r ⟨{}, m⟩ <;> simp

theorem typeFault_eq_none {m m' : Memo} {r : Ref} (h : g.typeFault m r = (none, m')) :
    ∃ seen, (g.typeWalk m r {}).toOption = some seen ∧ m' = m.learn seen := by
  unfold typeFault at h
  cases hw : g.typeWalk m r {} with
  | error p => simp [hw] at h
  | ok seen =>
    simp only [hw, Prod.mk.injEq, true_and] at h
    exact ⟨seen, rfl, h.symm⟩

theorem termFault_eq_none {m m' : Memo} {r : Ref} (h : g.termFault m r = (none, m')) :
    ∃ w, (g.termWalk r ⟨{}, m⟩).toOption = some w ∧ m' = w.memo.learn w.seen := by
  unfold termFault at h
  cases hw : g.termWalk r ⟨{}, m⟩ with
  | error p => simp [hw] at h
  | ok w =>
    simp only [hw, Prod.mk.injEq, true_and] at h
    exact ⟨w, rfl, h.symm⟩

/-! ## what a walk with a trusted memo shows -/

/-- What stands behind a memo. The values that occur in the roles `U` are looked at; `Q` is a
property that a value has in a role if its cell fits and its parts have `Q`; a memo with `I` holds
only values with `Q` in every role in which they occur, and may take up values with `Q`. A memo is
never asked whether something else than an environment is one. -/
structure Trust (g : Graph) (U Q : Role → Ref → Prop) (I : Memo → Prop) : Prop where
  part : ∀ {ρ : Role} {r : Ref} {p : Role × Ref}, U ρ r → p ∈ ρ.parts (g.get r) → U p.1 p.2
  build : ∀ {ρ : Role} {r : Ref}, g.fits ρ (g.get r) = true →
    (∀ p ∈ ρ.parts (g.get r), Q p.1 p.2) → Q ρ r
  known : ∀ {m : Memo} {r : Ref} {ρ : Role}, I m → m.knows r = true → U ρ r →
    (ρ = .env → (g.get r).kind = .env) → Q ρ r
  grow : ∀ {m m' : Memo}, I m → (m = none → m' = none) →
    (∀ r, m'.knows r = true → m.knows r = true ∨ ∃ ρ, U ρ r ∧ Q ρ r) → I m'

theorem role_of_mem_type_parts {c : Cell} {p : Role × Ref} (h : p ∈ Role.type.parts c) :
    p.1 = .type := by
  obtain ⟨hr, hp⟩ := Role.mem_parts.mp h
  cases c <;> simp_all [Cell.role?, Cell.parts] <;> grind

theorem role_of_mem_term_parts {c : Cell} {p : Role × Ref} (h : p ∈ Role.term.parts c) :
    p.1 = .type ∨ p.1 = .term := by
  obtain ⟨hr, hp⟩ := Role.mem_parts.mp h
  cases c <;> simp_all [Cell.role?, Cell.parts] <;> grind

section
variable {U Q : Role → Ref → Prop} {I : Memo → Prop}

theorem Trust.learn (T : g.Trust U Q I) {m : Memo} (hm : I m) {s : RefSet} {ρ : Role}
    (hs : ∀ r, s.contains r = true → U ρ r ∧ Q ρ r) : I (m.learn s) := by
  refine T.grow hm (fun h => by rw [h]; rfl) (fun r hr => ?_)
  rcases Memo.knows_learn hr with h | h
  · exact .inl h
  · exact .inr ⟨ρ, hs r h⟩

theorem Trust.note (T : g.Trust U Q I) {m : Memo} (hm : I m) {r : Ref} {ρ : Role} (hu : U ρ r)
    (hq : Q ρ r) : I (m.note r) := by
  refine T.grow hm (fun h => by rw [h]; rfl) (fun x hx => ?_)
  rcases Memo.knows_note hx with h | rfl
  · exact .inl h
  · exact .inr ⟨ρ, hu, hq⟩

/-- A type that passes has `Q`, and so has everything that the walk has added to what it saw. The
values above `r` may have been seen without having `Q` yet: no part of `r` is among them. -/
theorem typeWalk_trusted (T : g.Trust U Q I) {m : Memo} (hm : I m) {r : Ref} :
    ∀ {seen seen' : RefSet}, U .type r → (∀ s ≤ r, seen.contains s = true → Q .type s) →
      (g.typeWalk m r seen).toOption = some seen' →
      Q .type r ∧ ∀ s, seen'.contains s = true → seen.contains s = true ∨ U .type s ∧ Q .type s := by
  induction r using Nat.strongRecOn with
  | ind r ih =>
    intro seen seen' hu hseen h
    rw [typeWalk_toOption] at h
    split at h
    case isTrue hk =>
      obtain rfl := Option.some.inj h
      refine ⟨?_, fun s hs => .inl hs⟩
      rcases (Bool.or_eq_true _ _).mp hk with hk | hk
      · exact hseen r (Nat.le_refl r) hk
      · exact T.known hm hk hu nofun
    case isFalse =>
      split at h
      case isFalse => exact absurd h (by simp)
      case isTrue hf =>
        -- the fold keeps: what is seen was seen before, is `r`, or has `Q`
        have hfold := foldlM_keeps (f := fun t p => (g.typeWalk m p.2 t).toOption)
          (P := fun t : RefSet => ∀ s, t.contains s = true →
            (s = r ∨ seen.contains s = true) ∨ U .type s ∧ Q .type s)
          (R := fun p => Q .type p.2) (l := Role.type.parts (g.get r))
          (fun p hp t t' ht hw => by
            have hlt : p.2 < r := lt_of_mem_parts hp
            have hup : U .type p.2 := role_of_mem_type_parts hp ▸ T.part hu hp
            have hbelow : ∀ s ≤ p.2, t.contains s = true → Q .type s := by
              intro s hs hst
              rcases ht s hst with (rfl | h) | h
              · exact absurd hlt (Nat.not_lt.mpr hs)
              · exact hseen s (Nat.le_trans hs (Nat.le_of_lt hlt)) h
              · exact h.2
            obtain ⟨hq, hn⟩ := ih p.2 hlt hup hbelow hw
            exact ⟨fun s hs => (hn s hs).elim (ht s) .inr, hq⟩)
          (fun s hs => .inl (RefSet.contains_insert_iff.mp hs)) h
        have hq : Q .type r := T.build hf fun p hp => by
          rw [role_of_mem_type_parts hp]
          exact hfold.2 p hp
        refine ⟨hq, fun s hs => ?_⟩
        rcases hfold.1 s hs with (rfl | h) | h
        · exact .inr ⟨hu, hq⟩
        · exact .inl h
        · exact .inr h

theorem typeFault_trusted (T : g.Trust U Q I) {m m' : Memo} (hm : I m) {r : Ref} (hu : U .type r)
    (h : g.typeFault m r = (none, m')) : Q .type r ∧ I m' := by
  obtain ⟨seen, hw, rfl⟩ := typeFault_eq_none h
  obtain ⟨hq, hn⟩ := typeWalk_trusted T hm hu (fun s _ hs => absurd hs RefSet.contains_empty) hw
  exact ⟨hq, T.learn hm fun s hs => (hn s hs).resolve_left RefSet.contains_empty⟩

/-- The same for a term; the memo takes up the types of parameters on the way. -/
theorem termWalk_trusted (T : g.Trust U Q I) {r : Ref} :
    ∀ {w w' : Walk}, I w.memo → U .term r → (∀ s ≤ r, w.seen.contains s = true → Q .term s) →
      (g.termWalk r w).toOption = some w' →
      Q .term r ∧ I w'.memo ∧
        ∀ s, w'.seen.contains s = true → w.seen.contains s = true ∨ U .term s ∧ Q .term s := by
  induction r using Nat.strongRecOn with
  | ind r ih =>
    intro w w' hm hu hseen h
    rw [termWalk_toOption] at h
    split at h
    case isTrue hk =>
      obtain rfl := Option.some.inj h
      refine ⟨?_, hm, fun s hs => .inl hs⟩
      rcases (Bool.or_eq_true _ _).mp hk with hk | hk
      · exact hseen r (Nat.le_refl r) hk
      · exact T.known hm hk hu nofun
    case isFalse =>
      split at h
      case isFalse => exact absurd h (by simp)
      case isTrue hf =>
        have hfold := foldlM_keeps (f := g.walkPart)
          (P := fun v : Walk => I v.memo ∧ ∀ s, v.seen.contains s = true →
            (s = r ∨ w.seen.contains s = true) ∨ U .term s ∧ Q .term s)
          (R := fun p => Q p.1 p.2) (l := Role.term.parts (g.get r))
          (by
            rintro ⟨ρ, a⟩ hp v v' ⟨hv, ht⟩ hw
            have hlt : a < r := lt_of_mem_parts hp
            have hup : U ρ a := T.part hu hp
            rcases role_of_mem_term_parts hp with rfl | rfl
            · simp only [walkPart] at hw
              split at hw
              · rename_i m' hty
                obtain rfl := Option.some.inj hw
                obtain ⟨hq, hm'⟩ := typeFault_trusted T hv hup hty
                exact ⟨⟨hm', ht⟩, hq⟩
              · exact absurd hw (by simp)
            · have hbelow : ∀ s ≤ a, v.seen.contains s = true → Q .term s := by
                intro s hs hst
                rcases ht s hst with (rfl | h) | h
                · exact absurd hlt (Nat.not_lt.mpr hs)
                · exact hseen s (Nat.le_trans hs (Nat.le_of_lt hlt)) h
                · exact h.2
              obtain ⟨hq, hm', hn⟩ := ih a hlt hv hup hbelow hw
              exact ⟨⟨hm', fun s hs => (hn s hs).elim (ht s) .inr⟩, hq⟩)
          (s := w.visit r) ⟨hm, fun s hs => .inl (RefSet.contains_insert_iff.mp hs)⟩ h
        have hq : Q .term r := T.build hf hfold.2
        refine ⟨hq, hfold.1.1, fun s hs => ?_⟩
        rcases hfold.1.2 s hs with (rfl | h) | h
        · exact .inr ⟨hu, hq⟩
        · exact .inl h
        · exact .inr h

theorem termFault_trusted (T : g.Trust U Q I) {m m' : Memo} (hm : I m) {r : Ref} (hu : U .term r)
    (h : g.termFault m r = (none, m')) : Q .term r ∧ I m' := by
  obtain ⟨w, hw, rfl⟩ := termFault_eq_none h
  obtain ⟨hq, hm', hn⟩ :=
    termWalk_trusted T hm hu (fun s _ hs => absurd hs RefSet.contains_empty) hw
  exact ⟨hq, T.learn hm' fun s hs => (hn s hs).resolve_left RefSet.contains_empty⟩

theorem bindingsOk_trusted (T : g.Trust U Q I) {bs : List (Ref × Ref)} :
    ∀ {m m' : Memo}, I m → (∀ e ∈ bs, U .type e.2) → g.bindingsOk bs m = (true, m') →
      (∀ e ∈ bs, g.isName e.1 = true ∧ Q .type e.2) ∧ I m' := by
  induction bs with
  | nil =>
    intro m m' hm _ h
    simp only [bindingsOk, Prod.mk.injEq, true_and] at h
    exact ⟨by simp, h ▸ hm⟩
  | cons e bs ih =>
    obtain ⟨x, a⟩ := e
    intro m m' hm hu h
    simp only [bindingsOk] at h
    split at h
    · rename_i hx
      split at h
      · rename_i m₁ hty
        obtain ⟨hq, hm₁⟩ := typeFault_trusted T hm (hu _ List.mem_cons_self) hty
        obtain ⟨hqs, hm'⟩ := ih hm₁ (fun e he => hu e (List.mem_cons_of_mem _ he)) h
        exact ⟨List.forall_mem_cons.mpr ⟨⟨hx, hq⟩, hqs⟩, hm'⟩
      · exact absurd h (by simp)
    · exact absurd h (by simp)

theorem envOk_trusted (T : g.Trust U Q I) {m m' : Memo} (hm : I m) {r : Ref} (hu : U .env r)
    (h : g.envOk m r = (true, m')) : Q .env r ∧ I m' := by
  unfold envOk at h
  split at h
  case h_2 => exact absurd h (by simp)
  case h_1 bs hc =>
    split at h
    case isTrue hk =>
      simp only [Prod.mk.injEq, true_and] at h
      exact ⟨T.known hm hk hu fun _ => by rw [hc]; rfl, h ▸ hm⟩
    case isFalse =>
      split at h
      case h_2 => exact absurd h (by simp)
      case h_1 m₁ hb =>
        simp only [Prod.mk.injEq, true_and] at h
        have hparts : Role.env.parts (g.get r) = bs.map fun e => (.type, e.2) := by
          rw [hc]
          rfl
        have hus : ∀ e ∈ bs, U .type e.2 := fun e he =>
          T.part (p := (.type, e.2)) hu (by rw [hparts]; exact List.mem_map.mpr ⟨e, he, rfl⟩)
        obtain ⟨hqs, hm₁⟩ := bindingsOk_trusted T hm hus hb
        have hfit : g.fits .env (g.get r) = true := by
          rw [hc, fits_iff]
          refine ⟨rfl, fun n hn => ?_⟩
          obtain ⟨e, he, rfl⟩ := List.mem_map.mp hn
          exact (hqs e he).1
        have hq : Q .env r := T.build hfit fun p hp => by
          rw [hparts] at hp
          obtain ⟨e, he, rfl⟩ := List.mem_map.mp hp
          exact (hqs e he).2
        exact ⟨hq, h ▸ T.note hm₁ hu hq⟩

/-- A sequent that passes has `Q` in its three parts, and the memo stays trusted. -/
theorem judgementOk_trusted (T : g.Trust U Q I) {m m' : Memo} (hm : I m) {j : Judgement}
    (hu : ∀ p ∈ j.roots, U p.1 p.2) (h : g.judgementOk m j.env j.term j.ty = (true, m')) :
    (∀ p ∈ j.roots, Q p.1 p.2) ∧ I m' := by
  obtain ⟨hue, hut, hua⟩ : U .env j.env ∧ U .term j.term ∧ U .type j.ty := by
    simpa [Judgement.roots] using hu
  unfold judgementOk at h
  split at h
  case h_1 => exact absurd h (by simp)
  case h_2 m₁ he =>
    split at h
    case h_1 => exact absurd h (by simp)
    case h_2 m₂ ht =>
      split at h
      case h_1 => exact absurd h (by simp)
      case h_2 m₃ ha =>
        simp only [Prod.mk.injEq, true_and] at h
        obtain ⟨hqe, hm₁⟩ := envOk_trusted T hm hue he
        obtain ⟨hqt, hm₂⟩ := termFault_trusted T hm₁ hut ht
        obtain ⟨hqa, hm₃⟩ := typeFault_trusted T hm₂ hua ha
        exact ⟨by simpa [Judgement.roots] using ⟨hqe, hqt, hqa⟩, h ▸ hm₃⟩

end

theorem sequentOk_of_some {c : Ref} {j : Judgement} (h : g.judgement? c = some j) (m : Memo) :
    g.sequentOk m c = g.judgementOk m j.env j.term j.ty := by
  unfold judgement? at h
  unfold sequentOk
  split at h
  · obtain rfl := Option.some.inj h
    simp [*]
  · exact absurd h (by simp)

theorem sequentOk_of_none {c : Ref} (h : g.judgement? c = none) (m : Memo) :
    g.sequentOk m c = (false, m) := by
  unfold judgement? at h
  unfold sequentOk
  split at h
  · exact absurd h (by simp)
  · simp [*]

/-! ## a well-formed value passes with any memo -/

/-- A memo makes a walk skip values, and so a well-formed value passes whatever is in it. -/
theorem WellFormed.walks {ρ : Role} {r : Ref} (h : g.WellFormed ρ r) :
    (ρ = .type → ∀ m seen, ((g.typeWalk m r seen).toOption).isSome) ∧
      (ρ = .term → ∀ w, ((g.termWalk r w).toOption).isSome) := by
  induction h with
  | @intro ρ r hf _ ih =>
    constructor
    · rintro rfl m seen
      rw [typeWalk_toOption]
      split
      · rfl
      · exact foldlM_isSome (fun p hp t => (ih p hp).1 (role_of_mem_type_parts hp) m t) _
    · rintro rfl w
      rw [termWalk_toOption]
      split
      · rfl
      · refine foldlM_isSome (fun p hp v => ?_) _
        obtain ⟨hty, htm⟩ := ih p hp
        obtain ⟨σ, a⟩ := p
        rcases role_of_mem_term_parts hp with rfl | rfl
        · have hn := (fst_typeFault v.memo a).mpr (hty rfl _ _)
          simp only [walkPart]
          split
          · rfl
          · rename_i he
            exact absurd hn (by simp [he])
        · exact htm rfl v

theorem fst_typeFault_of_wellFormed {r : Ref} (h : g.WellFormed .type r) (m : Memo) :
    (g.typeFault m r).1 = none := (fst_typeFault m r).mpr (h.walks.1 rfl m {})

theorem fst_termFault_of_wellFormed {r : Ref} (h : g.WellFormed .term r) (m : Memo) :
    (g.termFault m r).1 = none := (fst_termFault m r).mpr (h.walks.2 rfl ⟨{}, m⟩)

theorem fst_bindingsOk_of_wellFormed {bs : List (Ref × Ref)}
    (h : ∀ e ∈ bs, g.isName e.1 = true ∧ g.WellFormed .type e.2) :
    ∀ m, (g.bindingsOk bs m).1 = true := by
  induction bs with
  | nil => exact fun _ => rfl
  | cons e bs ih =>
    intro m
    obtain ⟨⟨hx, ha⟩, hbs⟩ := List.forall_mem_cons.mp h
    have hn := fst_typeFault_of_wellFormed ha m
    simp only [bindingsOk, hx, if_true]
    split
    · exact ih hbs _
    · rename_i he
      exact absurd hn (by simp [he])

theorem fst_envOk_of_wellFormed {r : Ref} (h : g.WellFormed .env r) (m : Memo) :
    (g.envOk m r).1 = true := by
  have hf := fits_iff.mp h.fits
  unfold envOk
  split
  case h_1 bs hc =>
    split
    · rfl
    · have hbs : ∀ e ∈ bs, g.isName e.1 = true ∧ g.WellFormed .type e.2 := by
        intro e he
        constructor
        · exact hf.2 e.1 (by rw [hc]; exact List.mem_map.mpr ⟨e, he, rfl⟩)
        · refine h.part (p := (.type, e.2)) ?_
          rw [hc]
          exact List.mem_map.mpr ⟨e, he, rfl⟩
      have hb := fst_bindingsOk_of_wellFormed hbs m
      split
      · rfl
      · rename_i he
        exact absurd hb (by simp [he])
  case h_2 hc =>
    cases hk : g.get r <;> simp_all [Cell.role?]

theorem judgementOk_complete {j : Judgement} (h : g.WellStated j) (m : Memo) :
    (g.judgementOk m j.env j.term j.ty).1 = true := by
  obtain ⟨he, ht, ha⟩ := h
  unfold judgementOk
  split
  case h_1 h₁ => exact absurd (fst_envOk_of_wellFormed he m) (by simp [h₁])
  case h_2 m₁ h₁ =>
    split
    case h_1 h₂ => exact absurd (fst_termFault_of_wellFormed ht m₁) (by simp [h₂])
    case h_2 m₂ h₂ =>
      split
      case h_1 h₃ => exact absurd (fst_typeFault_of_wellFormed ha m₂) (by simp [h₃])
      case h_2 => rfl

/-! ## walks without a memo -/

/-- Without a memo nothing is taken on trust. -/
theorem trust_none (g : Graph) : g.Trust (fun _ _ => True) g.WellFormed (· = none) where
  part _ _ := trivial
  build := .intro
  known hm hk _ := absurd hk (by simp [hm, Memo.knows])
  grow hm hn _ := hn hm

theorem envOk_none_iff {r : Ref} : (g.envOk none r).1 = true ↔ g.WellFormed .env r :=
  ⟨fun h => (envOk_trusted g.trust_none rfl trivial (Prod.ext h rfl)).1,
    fun h => fst_envOk_of_wellFormed h none⟩

theorem termFault_none_iff {r : Ref} : (g.termFault none r).1 = none ↔ g.WellFormed .term r :=
  ⟨fun h => (termFault_trusted g.trust_none rfl trivial (Prod.ext h rfl)).1,
    fun h => fst_termFault_of_wellFormed h none⟩

theorem typeFault_none_iff {r : Ref} : (g.typeFault none r).1 = none ↔ g.WellFormed .type r :=
  ⟨fun h => (typeFault_trusted g.trust_none rfl trivial (Prod.ext h rfl)).1,
    fun h => fst_typeFault_of_wellFormed h none⟩

theorem judgementOk_none_iff {j : Judgement} :
    (g.judgementOk none j.env j.term j.ty).1 = true ↔ g.WellStated j := by
  refine ⟨fun h => ?_, fun h => judgementOk_complete h none⟩
  have hq := (judgementOk_trusted g.trust_none rfl (fun _ _ => trivial) (Prod.ext h rfl)).1
  simpa [Judgement.roots, WellStated] using hq

/-- Without a memo, exactly the well-formed sequents pass. -/
theorem sequentOk_none_iff {c : Ref} :
    (g.sequentOk none c).1 = true ↔ ∃ j, g.judgement? c = some j ∧ g.WellStated j := by
  cases hc : g.judgement? c with
  | none => simp [sequentOk_of_none hc]
  | some j =>
    rw [sequentOk_of_some hc, judgementOk_none_iff]
    exact ⟨fun h => ⟨j, rfl, h⟩, fun ⟨_, hj, h⟩ => Option.some.inj hj ▸ h⟩

end Graph

end NaturalDeduction

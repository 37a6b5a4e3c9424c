import NaturalDeduction.Proofs.FirstFault

/-!
# What remembering changes

A memo lets a walk pass over values. If what it says about the values that a walk meets is true, and
no value is met in two roles, then the walk answers as it does without a memo, and what the memo
says stays true. A value in two roles is passed over in the second one, whatever it is there.

* `Graph.Met`           a value is met in a role, from some values in their roles;
* `Graph.Truthful`      what is met and remembered is well formed in the role in which it is met;
* `Graph.Apart`         no value is met in two roles;
* `Memo.Keeps`          nothing is forgotten between two memos;
* `Graph.trust_met`     a truthful set can be trusted while the roles are apart;
* `Graph.Faithful`      how a walk that remembers stands to the same walk without a memo;
* `walks_faithful`      the four walks do so;
* `fault_sharedParameter`   a fault that is missed, of a value in two roles.
-/

namespace NaturalDeduction

/-! ## memos grow -/

/-- Nothing is forgotten on the way from one memo to the other. -/
structure Memo.Keeps (m m' : Memo) : Prop where
  isSome : m'.isSome = m.isSome
  knows : ∀ r, m.knows r = true → m'.knows r = true

namespace Memo
variable {m m' m'' : Memo} {r : Ref} {s : RefSet}

theorem Keeps.refl (m : Memo) : m.Keeps m := ⟨rfl, fun _ h => h⟩

theorem Keeps.trans (h : m.Keeps m') (h' : m'.Keeps m'') : m.Keeps m'' :=
  ⟨h'.isSome.trans h.isSome, fun r hr => h'.knows r (h.knows r hr)⟩

theorem knows_learn_of_contains (hm : m.isSome = true) (h : s.contains r = true) :
    (m.learn s).knows r = true := by
  obtain ⟨t, rfl⟩ := Option.isSome_iff_exists.mp hm
  exact knows_learn_some.mpr (.inr h)

theorem knows_note_self (hm : m.isSome = true) : (m.note r).knows r = true := by
  obtain ⟨t, rfl⟩ := Option.isSome_iff_exists.mp hm
  exact knows_note_some.mpr (.inl rfl)

theorem keeps_learn (m : Memo) (s : RefSet) : m.Keeps (m.learn s) := by
  cases m with
  | none => exact .refl _
  | some t => exact ⟨rfl, fun r h => knows_learn_some.mpr (.inl h)⟩

theorem keeps_note (m : Memo) (r : Ref) : m.Keeps (m.note r) := by
  cases m with
  | none => exact .refl _
  | some t => exact ⟨rfl, fun x h => knows_note_some.mpr (.inr h)⟩

end Memo

namespace Graph
variable {g : Graph}

theorem keeps_typeFault (m : Memo) (r : Ref) : m.Keeps (g.typeFault m r).2 := by
  unfold typeFault
  cases g.typeWalk m r {} with
  | ok seen => exact m.keeps_learn seen
  | error p => exact .refl m

/-- The memo after a walk through a term, whether it passes or stops. -/
def memoAfter : Except Misfit Walk → Memo
  | .ok w => w.memo
  | .error e => e.memo

@[simp] theorem memoAfter_under (f : Field) (x : Except Misfit Walk) :
    memoAfter (x.mapError (Misfit.under f)) = memoAfter x := by
  cases x <;> rfl

theorem keeps_termWalk (r : Ref) (w : Walk) : w.memo.Keeps (memoAfter (g.termWalk r w)) := by
  fun_induction termWalk g r w with
  -- no part is walked
  | case1 | case2 | case3 | case15 | case17 => exact .refl _
  -- the first part of a pair or of a case analysis stops the walk
  | case4 r w _ _ a b _ _ e hw ih | case8 r w _ _ a b c _ _ e hw ih =>
    rw [hw] at ih
    exact ih
  -- there is only one part
  | case6 r w _ _ a _ _ ih | case7 r w _ _ a _ _ ih | case11 r w _ _ a _ _ ih
  | case12 r w _ _ a _ _ ih | case16 r w _ _ a _ _ ih =>
    rw [memoAfter_under]
    exact ih
  -- the later parts of a pair or of a case analysis, with the memo that those before have left
  | case5 r w _ _ a b _ _ v hw ih ihb =>
    rw [hw] at ih
    rw [memoAfter_under]
    exact ih.trans ihb
  | case9 r w _ _ a b c _ _ v hw e hv ih ihb =>
    rw [hw] at ih
    rw [hv] at ihb
    exact ih.trans ihb
  | case10 r w _ _ a b c _ _ v hw u hv ih ihb ihc =>
    rw [hw] at ih
    rw [hv] at ihb
    rw [memoAfter_under]
    exact (ih.trans ihb).trans ihc
  -- the type of a parameter, and then the body
  | case13 r w _ _ x a b _ _ _ p m ht =>
    have h := g.keeps_typeFault w.memo a
    rw [ht] at h
    exact h
  | case14 r w _ _ x a b _ _ _ m ht ih =>
    have h := g.keeps_typeFault w.memo a
    rw [ht] at h
    rw [memoAfter_under]
    exact h.trans ih

theorem keeps_termFault (m : Memo) (r : Ref) : m.Keeps (g.termFault m r).2 := by
  have h := g.keeps_termWalk r ⟨{}, m⟩
  unfold termFault
  cases hw : g.termWalk r ⟨{}, m⟩ with
  | ok w =>
    rw [hw] at h
    exact h.trans (w.memo.keeps_learn w.seen)
  | error e =>
    rw [hw] at h
    exact h

theorem keeps_bindingsOk (bs : List (Ref × Ref)) (m : Memo) : m.Keeps (g.bindingsOk bs m).2 := by
  fun_induction bindingsOk g bs m with
  | case1 | case4 => exact .refl _
  | case2 x a bs m _ m' ht ih =>
    have h := g.keeps_typeFault m a
    rw [ht] at h
    exact h.trans ih
  | case3 x a bs m _ p m' ht =>
    have h := g.keeps_typeFault m a
    rw [ht] at h
    exact h

theorem keeps_envOk (m : Memo) (r : Ref) : m.Keeps (g.envOk m r).2 := by
  fun_cases envOk g m r with
  | case1 | case4 => exact .refl _
  | case2 bs _ _ m' hb =>
    have h := g.keeps_bindingsOk bs m
    rw [hb] at h
    exact h.trans (m'.keeps_note r)
  | case3 bs _ _ m' hb =>
    have h := g.keeps_bindingsOk bs m
    rw [hb] at h
    exact h

theorem keeps_judgementOk (m : Memo) (e t a : Ref) : m.Keeps (g.judgementOk m e t a).2 := by
  have he := g.keeps_envOk m e
  fun_cases judgementOk g m e t a with
  | case1 m₁ h₁ =>
    rw [h₁] at he
    exact he
  | case2 m₁ h₁ p m₂ h₂ =>
    have ht := g.keeps_termFault m₁ t
    rw [h₁] at he
    rw [h₂] at ht
    exact he.trans ht
  | case3 m₁ h₁ m₂ h₂ p m₃ h₃ | case4 m₁ h₁ m₂ h₂ m₃ h₃ =>
    have ht := g.keeps_termFault m₁ t
    have ha := g.keeps_typeFault m₂ a
    rw [h₁] at he
    rw [h₂] at ht
    rw [h₃] at ha
    exact (he.trans ht).trans ha

/-! ## what passes is remembered -/

/-- A walk forgets nothing that it has seen, and has seen what it passes, if that was not known. -/
theorem seen_of_typeWalk {m : Memo} {r : Ref} : ∀ {seen seen' : RefSet},
    (g.typeWalk m r seen).toOption = some seen' →
      (∀ x, seen.contains x = true → seen'.contains x = true) ∧
        (seen'.contains r = true ∨ m.knows r = true) := by
  induction r using Nat.strongRecOn with
  | ind r ih =>
    intro seen seen' h
    rw [typeWalk_toOption] at h
    split at h
    case isTrue hk =>
      obtain rfl := Option.some.inj h
      exact ⟨fun _ hx => hx, (Bool.or_eq_true _ _).mp hk⟩
    case isFalse =>
      split at h
      case isFalse => cases h
      case isTrue =>
        obtain ⟨hkeep, -⟩ := foldlM_keeps (f := fun t p => (g.typeWalk m p.2 t).toOption)
          (P := fun t : RefSet => ∀ x, (seen.insert r).contains x = true → t.contains x = true)
          (R := fun _ => True) (l := Role.type.parts (g.get r))
          (fun p hp t t' ht hw =>
            ⟨fun x hx => (ih p.2 (lt_of_mem_parts hp) hw).1 x (ht x hx), trivial⟩)
          (fun _ hx => hx) h
        exact ⟨fun x hx => hkeep x (RefSet.contains_insert_iff.mpr (.inr hx)),
          .inl (hkeep r (RefSet.contains_insert_iff.mpr (.inl rfl)))⟩

theorem seen_of_termWalk {r : Ref} : ∀ {w w' : Walk}, (g.termWalk r w).toOption = some w' →
    (∀ x, w.seen.contains x = true → w'.seen.contains x = true) ∧
      (w'.seen.contains r = true ∨ w.memo.knows r = true) := by
  induction r using Nat.strongRecOn with
  | ind r ih =>
    intro w w' h
    rw [termWalk_toOption] at h
    split at h
    case isTrue hk =>
      obtain rfl := Option.some.inj h
      exact ⟨fun _ hx => hx, (Bool.or_eq_true _ _).mp hk⟩
    case isFalse =>
      split at h
      case isFalse => cases h
      case isTrue =>
        have step : ∀ p ∈ Role.term.parts (g.get r), ∀ v v' : Walk, g.walkPart v p = some v' →
            ∀ x, v.seen.contains x = true → v'.seen.contains x = true := by
          intro p hp v v' hw
          unfold walkPart at hw
          split at hw
          · split at hw
            · obtain rfl := Option.some.inj hw
              exact fun _ hx => hx
            · cases hw
          · exact (ih p.2 (lt_of_mem_parts hp) hw).1
          · cases hw
        obtain ⟨hkeep, -⟩ := foldlM_keeps (f := g.walkPart)
          (P := fun v : Walk => ∀ x, (w.seen.insert r).contains x = true → v.seen.contains x = true)
          (R := fun _ => True)
          (fun p hp v v' hv hw => ⟨fun x hx => step p hp v v' hw x (hv x hx), trivial⟩)
          (s := w.visit r) (fun _ hx => hx) h
        exact ⟨fun x hx => hkeep x (RefSet.contains_insert_iff.mpr (.inr hx)),
          .inl (hkeep r (RefSet.contains_insert_iff.mpr (.inl rfl)))⟩

theorem knows_of_typeFault {m m' : Memo} {r : Ref} (hm : m.isSome = true)
    (h : g.typeFault m r = (none, m')) : m'.knows r = true := by
  obtain ⟨seen, hw, rfl⟩ := typeFault_eq_none h
  rcases (seen_of_typeWalk hw).2 with hr | hr
  · exact Memo.knows_learn_of_contains hm hr
  · exact (m.keeps_learn seen).knows r hr

theorem knows_of_termFault {m m' : Memo} {r : Ref} (hm : m.isSome = true)
    (h : g.termFault m r = (none, m')) : m'.knows r = true := by
  obtain ⟨w, hw, rfl⟩ := termFault_eq_none h
  have hk : m.Keeps w.memo := by
    have hk := g.keeps_termWalk r ⟨{}, m⟩
    cases hx : g.termWalk r ⟨{}, m⟩ <;> simp_all [memoAfter]
  rcases (seen_of_termWalk hw).2 with hr | hr
  · exact Memo.knows_learn_of_contains (hk.isSome.trans hm) hr
  · exact (hk.trans (w.memo.keeps_learn w.seen)).knows r hr

theorem knows_of_envOk {m m' : Memo} {r : Ref} (hm : m.isSome = true)
    (h : g.envOk m r = (true, m')) : m'.knows r = true := by
  unfold envOk at h
  split at h
  case h_2 => cases h
  case h_1 bs hc =>
    split at h
    case isTrue hk =>
      cases h
      exact hk
    case isFalse =>
      have hkeep := g.keeps_bindingsOk bs m
      split at h
      case h_2 => cases h
      case h_1 m₁ hb =>
        cases h
        rw [hb] at hkeep
        exact Memo.knows_note_self (hkeep.isSome.trans hm)

theorem knows_of_judgementOk {m m' : Memo} {j : Judgement} (hm : m.isSome = true)
    (h : g.judgementOk m j.env j.term j.ty = (true, m')) : ∀ p ∈ j.roots, m'.knows p.2 = true := by
  unfold judgementOk at h
  split at h
  case h_1 => cases h
  case h_2 m₁ h₁ =>
    split at h
    case h_1 => cases h
    case h_2 m₂ h₂ =>
      split at h
      case h_1 => cases h
      case h_2 m₃ h₃ =>
        cases h
        have k₁ := g.keeps_envOk m j.env
        have k₂ := g.keeps_termFault m₁ j.term
        have k₃ := g.keeps_typeFault m₂ j.ty
        rw [h₁] at k₁
        rw [h₂] at k₂
        rw [h₃] at k₃
        have hm₁ : m₁.isSome = true := k₁.isSome.trans hm
        have hm₂ : m₂.isSome = true := k₂.isSome.trans hm₁
        have he := (k₂.trans k₃).knows _ (knows_of_envOk hm h₁)
        have ht := k₃.knows _ (knows_of_termFault hm₁ h₂)
        have ha := knows_of_typeFault hm₂ h₃
        simpa [Judgement.roots] using ⟨he, ht, ha⟩

/-! ## trusted memos -/

section
variable {U : Role → Ref → Prop} {I : Memo → Prop} {m : Memo}

theorem Trust.snd_bindingsOk (T : g.Trust U g.WellFormed I) {bs : List (Ref × Ref)} (hm : I m)
    (hu : ∀ e ∈ bs, U .type e.2) : I (g.bindingsOk bs m).2 := by
  fun_induction bindingsOk g bs m with
  | case1 | case4 => exact hm
  | case2 x a bs m _ m' ht ih =>
    have h := (T.typeFault hm (hu _ List.mem_cons_self)).2
    rw [ht] at h
    exact ih h fun e he => hu e (List.mem_cons_of_mem _ he)
  | case3 x a bs m _ p m' ht =>
    have h := (T.typeFault hm (hu _ List.mem_cons_self)).2
    rw [ht] at h
    exact h

theorem Trust.snd_envOk (T : g.Trust U g.WellFormed I) (hm : I m) {r : Ref} (hu : U .env r) :
    I (g.envOk m r).2 := by
  cases ho : (g.envOk m r).1 with
  | true => exact (envOk_trusted T hm hu (Prod.ext ho rfl)).2
  | false =>
    revert ho
    fun_cases envOk g m r with
    | case1 | case4 => exact fun _ => hm
    | case2 => exact nofun
    | case3 bs hc _ m' hb =>
      intro _
      have hus : ∀ e ∈ bs, U .type e.2 := fun e he =>
        T.part (p := (.type, e.2)) hu (by rw [hc]; exact List.mem_map.mpr ⟨e, he, rfl⟩)
      have h := T.snd_bindingsOk hm hus
      rw [hb] at h
      exact h

/-- A trusted memo makes no difference to what is found out about an environment. -/
theorem Trust.envOk (T : g.Trust U g.WellFormed I) (hm : I m) {r : Ref} (hu : U .env r) :
    (g.envOk m r).1 = (g.envOk none r).1 ∧ I (g.envOk m r).2 := by
  refine ⟨?_, T.snd_envOk hm hu⟩
  rw [Bool.eq_iff_iff, envOk_none_iff]
  exact ⟨fun h => (envOk_trusted T hm hu (Prod.ext h rfl)).1, fun h => fst_envOk_of_wellFormed h m⟩

/-- A trusted memo makes no difference to what is found out about a sequent. -/
theorem Trust.judgementOk (T : g.Trust U g.WellFormed I) (hm : I m) {j : Judgement}
    (hu : ∀ p ∈ j.roots, U p.1 p.2) :
    (g.judgementOk m j.env j.term j.ty).1 = (g.judgementOk none j.env j.term j.ty).1 ∧
      I (g.judgementOk m j.env j.term j.ty).2 := by
  obtain ⟨hue, hut, hua⟩ : U .env j.env ∧ U .term j.term ∧ U .type j.ty := by
    simpa [Judgement.roots] using hu
  constructor
  · rw [Bool.eq_iff_iff, judgementOk_none_iff]
    refine ⟨fun h => ?_, fun h => judgementOk_complete h m⟩
    have hq := (judgementOk_trusted T hm hu (Prod.ext h rfl)).1
    simpa [Judgement.roots, WellStated] using hq
  · have he := T.snd_envOk hm hue
    fun_cases Graph.judgementOk g m j.env j.term j.ty with
    | case1 m₁ h₁ =>
      rw [h₁] at he
      exact he
    | case2 m₁ h₁ p m₂ h₂ =>
      rw [h₁] at he
      have ht := (T.termFault he hut).2
      rw [h₂] at ht
      exact ht
    | case3 m₁ h₁ m₂ h₂ p m₃ h₃ | case4 m₁ h₁ m₂ h₂ m₃ h₃ =>
      rw [h₁] at he
      have ht := (T.termFault he hut).2
      rw [h₂] at ht
      have ha := (T.typeFault ht hua).2
      rw [h₃] at ha
      exact ha

end

/-! ## the values that a walk meets -/

/-- The value `r` is met in a role, from some values in theirs. -/
def Met (g : Graph) (roots : List (Role × Ref)) (ρ : Role) (r : Ref) : Prop :=
  ∃ p ∈ roots, g.Uses p (ρ, r)

/-- What is met and remembered is well formed in the role in which it is met. -/
def Truthful (g : Graph) (roots : List (Role × Ref)) (s : RefSet) : Prop :=
  ∀ ρ r, g.Met roots ρ r → s.contains r = true → g.WellFormed ρ r

/-- No value is met in two roles. -/
def Apart (g : Graph) (roots : List (Role × Ref)) : Prop :=
  ∀ ρ σ r, g.Met roots ρ r → g.Met roots σ r → ρ = σ

section
variable {roots : List (Role × Ref)} {s : RefSet}

theorem met_root {p : Role × Ref} (hp : p ∈ roots) : g.Met roots p.1 p.2 := ⟨p, hp, .refl⟩

theorem Met.part {ρ : Role} {r : Ref} (h : g.Met roots ρ r) {p : Role × Ref}
    (hp : p ∈ ρ.parts (g.get r)) : g.Met roots p.1 p.2 := by
  obtain ⟨q, hq, hu⟩ := h
  exact ⟨q, hq, hu.tail hp⟩

/-- Whatever holds of the roots and passes to parts holds of all that is met. -/
theorem Met.induction {P : Role × Ref → Prop} {ρ : Role} {r : Ref} (h : g.Met roots ρ r)
    (root : ∀ p ∈ roots, P p) (part : ∀ p, P p → ∀ q ∈ p.1.parts (g.get p.2), P q) :
    P (ρ, r) := by
  obtain ⟨p, hp, hu⟩ := h
  generalize (ρ, r) = q at hu ⊢
  induction hu with
  | refl => exact root p hp
  | tail _ hq ih => exact part _ ih _ hq

theorem apart_of_wellFormed (h : ∀ p ∈ roots, g.WellFormed p.1 p.2) : g.Apart roots := by
  have hw : ∀ ρ r, g.Met roots ρ r → g.WellFormed ρ r := fun ρ r hm =>
    hm.induction (P := fun p => g.WellFormed p.1 p.2) h fun _ hp _ hq => hp.part hq
  exact fun ρ σ r hρ hσ => (hw ρ r hρ).role_unique (hw σ r hσ)

/-- The parts of a type are met as types only. -/
theorem apart_type (r : Ref) : g.Apart [(.type, r)] := by
  have hty : ∀ ρ x, g.Met [(.type, r)] ρ x → ρ = .type := fun ρ x h =>
    h.induction (P := fun p => p.1 = .type) (by simp) fun p hp q hq => by
      rw [hp] at hq
      exact role_of_mem_type_parts hq
  intro ρ σ x hρ hσ
  rw [hty ρ x hρ, hty σ x hσ]

theorem role_of_mem_env_parts {c : Cell} {p : Role × Ref} (h : p ∈ Role.env.parts c) :
    p.1 = .type := by
  obtain ⟨hr, hp⟩ := Role.mem_parts.mp h
  cases c with
  | env bs =>
    obtain ⟨e, -, rfl⟩ := List.mem_map.mp hp
    rfl
  | _ => cases hr

/-- The types in an environment are met as types only, and it is none of them. -/
theorem apart_env (r : Ref) : g.Apart [(.env, r)] := by
  have henv : ∀ ρ x, g.Met [(.env, r)] ρ x → ρ = .env ∧ x = r ∨ ρ = .type ∧ x < r := by
    refine fun ρ x h => h.induction (P := fun p => p.1 = .env ∧ p.2 = r ∨ p.1 = .type ∧ p.2 < r)
      (by simp) fun p hp q hq => .inr ?_
    have hlt := lt_of_mem_parts hq
    rcases hp with ⟨hp, rfl⟩ | ⟨hp, hr⟩
    · rw [hp] at hq
      exact ⟨role_of_mem_env_parts hq, hlt⟩
    · rw [hp] at hq
      exact ⟨role_of_mem_type_parts hq, Nat.lt_trans hlt hr⟩
  intro ρ σ x hρ hσ
  rcases henv ρ x hρ with ⟨rfl, rfl⟩ | ⟨rfl, hx⟩ <;> rcases henv σ x hσ with ⟨rfl, hy⟩ | ⟨rfl, hy⟩
  · rfl
  · exact absurd hy (Nat.lt_irrefl x)
  · exact absurd hx (by rw [hy]; exact Nat.lt_irrefl r)
  · rfl

/-- Every value in the memo is in the set, or it is met in a role in which it is well formed. -/
def Earned (g : Graph) (roots : List (Role × Ref)) (s : RefSet) (m : Memo) : Prop :=
  ∀ r, m.knows r = true → s.contains r = true ∨ ∃ ρ, g.Met roots ρ r ∧ g.WellFormed ρ r

theorem trust_met (h : g.Truthful roots s) (ha : g.Apart roots) :
    g.Trust (g.Met roots) g.WellFormed (g.Earned roots s) where
  part hu hp := hu.part hp
  build := .intro
  known := by
    intro m r ρ hm hk hu _
    rcases hm r hk with hs | ⟨σ, hσ, hw⟩
    · exact h ρ r hu hs
    · exact ha σ ρ r hσ hu ▸ hw
  grow := fun hm _ hg r hr => (hg r hr).elim (hm r) .inr

end

/-- How a walk from some values, with the set `s` as its memo, stands to the walk without a memo. -/
structure Faithful {α : Type} (g : Graph) (s : RefSet) (roots : List (Role × Ref))
    (walk : Memo → α × Memo) (passed : α) : Prop where
  /-- without a memo, exactly what is well formed passes -/
  plain : (walk none).1 = passed ↔ ∀ p ∈ roots, g.WellFormed p.1 p.2
  /-- with the memo, the answer is the same, if no value is met in two roles -/
  same : g.Apart roots → (walk (some s)).1 = (walk none).1
  /-- what passes with the memo passes without one only then -/
  exactly : (walk (some s)).1 = passed → ((walk none).1 = passed ↔ g.Apart roots)
  /-- Whether it passed or not, nothing is forgotten, and what has passed is remembered. If no value
  is met in two roles, then what is new was met in a role in which it is well formed. -/
  after : ∃ s', (walk (some s)).2 = some s' ∧
    (∀ r, s.contains r = true → s'.contains r = true) ∧
    ((walk (some s)).1 = passed → ∀ p ∈ roots, s'.contains p.2 = true) ∧
    (g.Apart roots → g.Truthful roots s' ∧ g.Earned roots s (some s'))

/-- A walk is faithful to the one without a memo if a trusted memo makes no difference to it, and if
it keeps in mind what was known and what it passes. -/
theorem faithful_of_trust {α : Type} {s : RefSet} {roots : List (Role × Ref)}
    {walk : Memo → α × Memo} {passed : α} (h : g.Truthful roots s)
    (plain : (walk none).1 = passed ↔ ∀ p ∈ roots, g.WellFormed p.1 p.2)
    (trusted : ∀ {I : Memo → Prop}, g.Trust (g.Met roots) g.WellFormed I → ∀ m, I m →
      (walk m).1 = (walk none).1 ∧ I (walk m).2)
    (keeps : ∀ m : Memo, m.Keeps (walk m).2)
    (known : ∀ m m' : Memo, m.isSome = true → walk m = (passed, m') →
      ∀ p ∈ roots, m'.knows p.2 = true) :
    g.Faithful s roots walk passed := by
  have hs : g.Earned roots s (some s) := fun r hr => .inl hr
  have same : g.Apart roots → (walk (some s)).1 = (walk none).1 := fun ha =>
    (trusted (trust_met h ha) (some s) hs).1
  refine ⟨plain, same, fun hp => ⟨fun hn => ?_, fun ha => (same ha).symm.trans hp⟩, ?_⟩
  · exact apart_of_wellFormed (plain.mp hn)
  · obtain ⟨s', hs'⟩ := Option.isSome_iff_exists.mp (keeps (some s)).isSome
    have hkeep := (keeps (some s)).knows
    rw [hs'] at hkeep
    refine ⟨s', hs', hkeep, fun hp => ?_, fun ha => ?_⟩
    · exact known (some s) (some s') rfl (Prod.ext hp hs')
    · have T := trust_met h ha
      have he := (trusted T (some s) hs).2
      rw [hs'] at he
      refine ⟨fun ρ r hm hr => ?_, he⟩
      rcases he r hr with hr | ⟨σ, hσ, hw⟩
      · exact h ρ r hm hr
      · exact ha σ ρ r hσ hm ▸ hw

/-- **A truthful memo hides nothing, as long as values keep to one role.** A walk over a type, a
term, an environment or a sequent whose memo says the truth about the values that it meets gives the
answer of the walk without a memo, path included, and what it adds to the memo is true, whether it
passes or stops. Types and environments always keep their values in one role; where a term or a
sequent passes with the memo, it passes without one exactly if it does. -/
theorem walks_faithful (g : Graph) (s : RefSet) :
    (∀ r, g.Truthful [(.type, r)] s →
      g.Apart [(.type, r)] ∧ g.Faithful s [(.type, r)] (g.typeFault · r) none) ∧
    (∀ r, g.Truthful [(.term, r)] s → g.Faithful s [(.term, r)] (g.termFault · r) none) ∧
    (∀ r, g.Truthful [(.env, r)] s →
      g.Apart [(.env, r)] ∧ g.Faithful s [(.env, r)] (g.envOk · r) true) ∧
    (∀ c j, g.judgement? c = some j → g.Truthful j.roots s →
      g.Faithful s j.roots (g.sequentOk · c) true) := by
  refine ⟨fun r h => ⟨apart_type r, ?_⟩, fun r h => ?_, fun r h => ⟨apart_env r, ?_⟩,
    fun c j hc h => ?_⟩
  · refine faithful_of_trust h (by simpa using typeFault_none_iff) (fun T m hm => ?_)
      (g.keeps_typeFault · r) fun m m' hm hw => by simpa using knows_of_typeFault hm hw
    obtain ⟨hf, hi⟩ := T.typeFault hm (met_root List.mem_cons_self)
    exact ⟨hf.trans (g.typeFault_eq_fault? r).symm, hi⟩
  · refine faithful_of_trust h (by simpa using termFault_none_iff) (fun T m hm => ?_)
      (g.keeps_termFault · r) fun m m' hm hw => by simpa using knows_of_termFault hm hw
    obtain ⟨hf, hi⟩ := T.termFault hm (met_root List.mem_cons_self)
    exact ⟨hf.trans (g.termFault_eq_fault? r).symm, hi⟩
  · refine faithful_of_trust h (by simpa using envOk_none_iff) (fun T m hm => ?_)
      (g.keeps_envOk · r) fun m m' hm hw => by simpa using knows_of_envOk hm hw
    exact T.envOk hm (met_root List.mem_cons_self)
  · simp only [sequentOk_of_some hc]
    refine faithful_of_trust h ?_ (fun T m hm => ?_) (g.keeps_judgementOk · _ _ _)
      fun m m' hm hw => knows_of_judgementOk hm hw
    · rw [judgementOk_none_iff]
      simp [Judgement.roots, WellStated]
    · exact T.judgementOk hm fun p hp => met_root hp

/-- All that is met lies in any list that holds the roots, and with a value its parts. -/
theorem Met.mem {roots l : List (Role × Ref)} {ρ : Role} {r : Ref} (h : g.Met roots ρ r)
    (hroots : ∀ p ∈ roots, p ∈ l) (hparts : ∀ p ∈ l, ∀ q ∈ p.1.parts (g.get p.2), q ∈ l) :
    (ρ, r) ∈ l :=
  h.induction hroots hparts

/-- The pair of `λ x : P. x` and something that is no term. -/
def brokenPair : Graph where
  cells := #[.text "x", .text "P", .base 1, .var 0, .lambda 0 2 3, .null, .pair 4 5]
  below := by decide
  apart := by decide

/-- What is met in the pair. -/
def brokenPairMet : List (Role × Ref) :=
  [(.term, 6), (.term, 4), (.term, 5), (.type, 2), (.term, 3)]

/-- With the type `P` remembered, the walk finds the broken part of the pair still. -/
theorem faithful_brokenPair : brokenPair.Truthful [(.term, 6)] (({} : RefSet).insert 2) ∧
    brokenPair.Apart [(.term, 6)] ∧
    (brokenPair.termFault none 6).1 = some [.snd] ∧
    (brokenPair.termFault (some (({} : RefSet).insert 2)) 6).1 = some [.snd] := by
  have hmet : ∀ ρ r, brokenPair.Met [(.term, 6)] ρ r → (ρ, r) ∈ brokenPairMet :=
    fun ρ r h => h.mem (by decide) (by decide)
  have hone : ∀ p ∈ brokenPairMet, ∀ q ∈ brokenPairMet, p.2 = q.2 → p.1 = q.1 := by decide
  have htrue : brokenPair.Truthful [(.term, 6)] (({} : RefSet).insert 2) := by
    intro ρ r hm hr
    obtain rfl : r = 2 := by
      rcases RefSet.contains_insert_iff.mp hr with hr | hr
      · exact hr
      · exact absurd hr RefSet.contains_empty
    obtain rfl : ρ = .type := hone _ (hmet ρ 2 hm) (.type, 2) (by decide) rfl
    exact typeFault_none_iff.mp (by decide +kernel)
  have hapart : brokenPair.Apart [(.term, 6)] := fun ρ σ r hρ hσ =>
    hone _ (hmet ρ r hρ) _ (hmet σ r hσ) rfl
  have hplain : (brokenPair.termFault none 6).1 = some [.snd] := by decide +kernel
  exact ⟨htrue, hapart, hplain,
    (((walks_faithful brokenPair _).2.1 6 htrue).same hapart).trans hplain⟩

/-- The value `λ x : P. P`, with one `P` as the type of the parameter and as the body. -/
def sharedParameter : Graph where
  cells := #[.text "x", .text "P", .base 1, .lambda 0 2 2]
  below := by decide
  apart := by decide

/-- The body is no term, and the walk that remembers misses it: it has just learnt that `P` is well
formed, as a type. It takes up the whole value as well formed. -/
theorem fault_sharedParameter : sharedParameter.Truthful [(.term, 3)] {} ∧
    (sharedParameter.termFault none 3).1 = some [.body] ∧
    (sharedParameter.termFault (some {}) 3).1 = none ∧
    (sharedParameter.termFault (some {}) 3).2.knows 3 = true := by
  refine ⟨fun ρ r _ hr => absurd hr RefSet.contains_empty, ?_, ?_, ?_⟩ <;> decide +kernel

end Graph

end NaturalDeduction

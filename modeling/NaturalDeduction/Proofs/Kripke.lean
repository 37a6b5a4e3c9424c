import Mathlib.Order.Nat
import NaturalDeduction.Proofs.Soundness

/-!
# Kripke models

* `Kripke`                worlds in a preorder, and which atoms hold at a world; later worlds keep them;
* `Kripke.Forces`         the reading of types at a world: falsity, conjunction, disjunction, and
                          implication over all later worlds. A value that is no type is false;
* `Kripke.forces_later`   what is forced stays forced;
* `Kripke.Valid`          a sequent whose type is forced wherever its context is;
* `valid_of_derives`      the nine rules lead from valid sequents to valid sequents;
* `forces_of_accept`      accepted sequents are valid, and falsity is never accepted from nothing.
-/

namespace NaturalDeduction

universe u

/-- A Kripke model: at each world some atoms hold, and they hold at all later worlds. -/
structure Kripke (W : Type u) [Preorder W] where
  holds : W → Name → Prop
  later : ∀ {w v : W}, w ≤ v → ∀ {n : Name}, holds w n → holds v n

namespace Kripke
variable {W : Type u} [Preorder W] (M : Kripke W)

/-- The types that are forced at a world. -/
def Forces : W → Value → Prop
  | _, .bottom => False
  | w, .base n => M.holds w n
  | w, .arrow A B => ∀ v, w ≤ v → Forces v A → Forces v B
  | w, .product A B => Forces w A ∧ Forces w B
  | w, .sum A B => Forces w A ∨ Forces w B
  | _, _ => False

theorem forces_later {w v : W} {A : Value} (hw : w ≤ v) (h : M.Forces w A) : M.Forces v A := by
  induction w, A using Forces.induct generalizing v with
  | case1 w => exact h
  | case2 w n => exact M.later hw h
  | case3 w A B ihA ihB =>
    intro u hu hA
    exact h u (hw.trans hu) hA
  | case4 w A B ihA ihB => exact ⟨ihA hw h.1, ihB hw h.2⟩
  | case5 w A B ihA ihB => exact h.imp (ihA hw) (ihB hw)
  | case6 w A h₁ h₂ h₃ h₄ h₅ =>
    rw [Forces.eq_def] at h
    split at h <;> simp_all

/-- All types of a context are forced at a world. -/
def ForcesAll (w : W) (Γ : String → Option Value) : Prop := ∀ x A, Γ x = some A → M.Forces w A

variable {M}

theorem ForcesAll.later {w v : W} {Γ : String → Option Value} (h : M.ForcesAll w Γ) (hw : w ≤ v) :
    M.ForcesAll v Γ := fun x A hx => M.forces_later hw (h x A hx)

theorem ForcesAll.update {w : W} {Γ : String → Option Value} (h : M.ForcesAll w Γ) {A : Value}
    (hA : M.Forces w A) (x : String) : M.ForcesAll w (Function.update Γ x (some A)) := by
  intro y B hy
  by_cases hyx : y = x
  · rw [hyx, Function.update_self] at hy
    rw [← Option.some.inj hy]
    exact hA
  · rw [Function.update_of_ne hyx] at hy
    exact h y B hy

variable (M)

/-- The type of a sequent is forced wherever its context is. -/
def Valid (s : Statement) : Prop := ∀ w, M.ForcesAll w s.context → M.Forces w s.ty

/-- An application of a rule to valid premises is valid. -/
theorem valid_of_instance {R : Rule} {s : Statement} {ss : List Statement} (h : R.Instance s ss)
    (hs : ∀ t ∈ ss, M.Valid t) : M.Valid s := by
  intro w hΓ
  cases h with
  | assm h => exact hΓ _ _ h
  | @pairIntro Γ t u A B =>
    have hA := hs ⟨Γ, t, A⟩ (by simp) w hΓ
    have hB := hs ⟨Γ, u, B⟩ (by simp) w hΓ
    exact ⟨hA, hB⟩
  | @inlIntro Γ t A B => exact .inl (hs ⟨Γ, t, A⟩ (by simp) w hΓ)
  | @inrIntro Γ t A B => exact .inr (hs ⟨Γ, t, B⟩ (by simp) w hΓ)
  | @caseElim Γ t f h A B C =>
    have hAB : M.Forces w (.sum A B) := hs ⟨Γ, t, .sum A B⟩ (by simp) w hΓ
    have hA : M.Forces w (.arrow A C) := hs ⟨Γ, f, .arrow A C⟩ (by simp) w hΓ
    have hB : M.Forces w (.arrow B C) := hs ⟨Γ, h, .arrow B C⟩ (by simp) w hΓ
    rcases hAB with h | h
    · exact hA w le_rfl h
    · exact hB w le_rfl h
  | @fstElim Γ t A B =>
    have hAB : M.Forces w (.product A B) := hs ⟨Γ, t, .product A B⟩ (by simp) w hΓ
    exact hAB.1
  | @sndElim Γ t A B =>
    have hAB : M.Forces w (.product A B) := hs ⟨Γ, t, .product A B⟩ (by simp) w hΓ
    exact hAB.2
  | @lambdaIntro Γ n t A B =>
    -- the parameter may shadow a binding, so the context at `v` is the updated one
    intro v hv hA
    exact hs ⟨Function.update Γ n.word (some A), t, B⟩ (by simp) v ((hΓ.later hv).update hA n.word)
  | @bottomElim Γ t A =>
    have hF : M.Forces w .bottom := hs ⟨Γ, t, .bottom⟩ (by simp) w hΓ
    exact hF.elim

theorem valid_of_derives {s : Statement} (h : Derives s) : M.Valid s := by
  induction h with
  | apply hi _ ih => exact M.valid_of_instance hi ih

end Kripke

namespace Graph
variable {g : Graph}

theorem forcesAll_context {W : Type u} [Preorder W] {M : Kripke W} {w : W} {bs : List (Ref × Ref)}
    (h : ∀ e ∈ bs, M.Forces w (g.value e.2)) : M.ForcesAll w (g.context bs) := by
  intro x A hx
  obtain ⟨e, hf, rfl⟩ := Option.map_eq_some_iff.mp hx
  exact h e (List.mem_of_find?_eq_some hf)

/-- **Accepted sequents are valid.** At every world of every Kripke model that forces all types
bound in the environment, the type is forced; hence no derivation of falsity is accepted in the
empty environment. -/
theorem forces_of_accept (limits : Limits) :
    (∀ (tree : Ref) (target : Judgement), g.check limits tree target = .ok .accept →
      ∀ (W : Type u) [Preorder W] (M : Kripke W) (w : W),
        (∀ e ∈ g.bindingsOf target.env, M.Forces w (g.value e.2)) →
        M.Forces w (g.value target.ty)) ∧
    (∀ tree env term ty : Ref, g.get env = .env [] → g.get ty = .bottom →
      g.check limits tree ⟨env, term, ty⟩ ≠ .ok .accept) := by
  have hvalid : ∀ {tree : Ref} {target : Judgement}, g.check limits tree target = .ok .accept →
      ∀ {W : Type u} [Preorder W] (M : Kripke W) (w : W),
        (∀ e ∈ g.bindingsOf target.env, M.Forces w (g.value e.2)) →
        M.Forces w (g.value target.ty) := by
    intro tree target h W _ M w hΓ
    exact M.valid_of_derives (derives_of_accept h) w (forcesAll_context hΓ)
  refine ⟨fun tree target h W _ M w => hvalid h M w, fun tree env term ty he ha h => ?_⟩
  -- one world and no atoms: nothing is bound, and falsity is not forced
  let M : Kripke PUnit := ⟨fun _ _ => False, fun _ _ h => h⟩
  have hF : M.Forces ⟨⟩ (g.value ty) := hvalid h M ⟨⟩ (by simp [bindingsOf, he, Cell.entries])
  rw [value_of_get ha] at hF
  exact hF

/-- Stages `0, 1, 2, …`; the atoms hold from stage one on. -/
def stages : Kripke Nat where
  holds w _ := 1 ≤ w
  later hw _ h := Nat.le_trans h hw

/-- The type `P + x` has a part that is no type; at stage one it is forced by its left side. -/
theorem forces_sharedVariable :
    sharedVariable.check .default 14 ⟨3, 5, 6⟩ = .ok .accept ∧
      (∀ e ∈ sharedVariable.bindingsOf 3, stages.Forces 1 (sharedVariable.value e.2)) ∧
      stages.Forces 1 (sharedVariable.value 6) := by
  have h : sharedVariable.check .default 14 ⟨3, 5, 6⟩ = .ok .accept := by decide +kernel
  have hP : sharedVariable.value 2 = .base (.text "P") := by
    have hname : sharedVariable.value 1 = .name (.text "P") := value_of_get rfl
    have hbase : sharedVariable.value 2 = .node .base [sharedVariable.value 1] := value_of_get rfl
    rw [hbase, hname]
  have hΓ : ∀ e ∈ sharedVariable.bindingsOf 3,
      stages.Forces 1 (sharedVariable.value e.2) := by
    intro e he
    obtain rfl : e = (0, 2) := by
      have he' : e ∈ [(0, 2)] := he
      simpa using he'
    rw [hP]
    exact Nat.le_refl 1
  exact ⟨h, hΓ, (forces_of_accept .default).1 14 ⟨3, 5, 6⟩ h Nat stages 1 hΓ⟩

end Graph

end NaturalDeduction

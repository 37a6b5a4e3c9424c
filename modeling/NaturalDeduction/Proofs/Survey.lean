import NaturalDeduction.Proofs.Memo

/-!
# What a survey shows

* `Graph.IsNode`      a node of a derivation: its rule, the sequent it records, its premises;
* `Graph.Shallow`     no way down from a node passes through more than so many nodes;
* `Graph.Surveyed`    what the known heights stand for: a node of known height has the shape of a
                      node, its conclusion has the property `Q`, its premises have known heights,
                      and its own height is one more than the greatest of them;
* `survey_surveyed`   a survey that passes keeps this, and the node it started from has a height
                      within the limit.
-/

namespace NaturalDeduction

theorem bind_eq_ok {ε α β : Type} {x : Except ε α} {f : α → Except ε β} {b : β} :
    x >>= f = .ok b ↔ ∃ a, x = .ok a ∧ f a = .ok b := by
  cases x <;> simp [bind, Except.bind]

@[simp] theorem ok_bind {ε α β : Type} (a : α) (f : α → Except ε β) : .ok a >>= f = f a := rfl

/-- Steps that keep `I`, each of which leads from a state to one that stands in `E` to it and makes
`P` true of what it looked at, and `P` stays true along `E`. -/
theorem foldlM_steps {ε σ α : Type} {f : σ → α → Except ε σ} {I : σ → Prop} {E : σ → σ → Prop}
    {P : α → σ → Prop} (refl : ∀ s, E s s) (trans : ∀ s t u, E s t → E t u → E s u)
    (mono : ∀ a s t, E s t → P a s → P a t) {l : List α}
    (step : ∀ a ∈ l, ∀ s s', I s → f s a = .ok s' → I s' ∧ E s s' ∧ P a s') {s s' : σ} (hs : I s)
    (h : l.foldlM f s = .ok s') : I s' ∧ E s s' ∧ ∀ a ∈ l, P a s' := by
  induction l generalizing s with
  | nil =>
    obtain rfl : s = s' := by simpa [pure, Except.pure] using h
    exact ⟨hs, refl s, by simp⟩
  | cons a l ih =>
    rw [List.foldlM_cons] at h
    obtain ⟨t, ht, h'⟩ := bind_eq_ok.mp h
    obtain ⟨hi, he, hp⟩ := step a List.mem_cons_self s t hs ht
    obtain ⟨hi', he', hl⟩ := ih (fun b hb => step b (List.mem_cons_of_mem _ hb)) hi h'
    exact ⟨hi', trans s t s' he he', List.forall_mem_cons.mpr ⟨mono a t s' he' hp, hl⟩⟩

theorem Cell.items_of_sequence? {c : Cell} {ps : List Ref} (h : c.sequence? = some ps) :
    c.items = ps := by
  cases c <;> simp_all [sequence?, items]

theorem mem_of_mem_zipIdx {ps : List Ref} {q : Ref × Nat} (h : q ∈ ps.zipIdx) : q.1 ∈ ps :=
  (List.mem_zipIdx' h).2 ▸ List.getElem_mem _

theorem forall_of_zipIdx {ps : List Ref} {P : Ref → Prop} (h : ∀ q ∈ ps.zipIdx, P q.1) :
    ∀ p ∈ ps, P p := by
  intro p hp
  obtain ⟨i, hi, rfl⟩ := List.getElem_of_mem hp
  exact h (ps[i], i) (List.mk_mem_zipIdx_iff_getElem?.mpr (List.getElem?_eq_getElem hi))

namespace Graph
variable {g : Graph}

/-- The premises of the derivation at `x`, if they are a sequence of references. -/
def sequenceOf? (g : Graph) (x : Ref) : Option (List Ref) :=
  match g.get x with
  | .derivation _ _ p => if (g.get p).holdsBytes then none else (g.get p).sequence?
  | _ => none

/-- The value at `x` is a node with a rule, a recorded sequent and a sequence of premises. -/
structure IsNode (g : Graph) (x : Ref) (R : Rule) (j : Judgement) (ps : List Ref) : Prop where
  rule : g.ruleOf? x = some R
  conclusion : g.conclusion? x = some j
  premises : g.sequenceOf? x = some ps

theorem IsNode.premisesOf {x : Ref} {R : Rule} {j : Judgement} {ps : List Ref}
    (h : g.IsNode x R j ps) : g.premisesOf x = ps := by
  have hp := h.premises
  cases hx : g.get x with
  | derivation tag c p =>
    rw [sequenceOf?, hx] at hp
    simp only at hp
    split at hp
    · exact absurd hp (by simp)
    · rw [Graph.premisesOf, hx]
      exact Cell.items_of_sequence? hp
  | _ => simp [sequenceOf?, hx] at hp

theorem IsNode.eq_of_conclusion {x : Ref} {R : Rule} {i j : Judgement} {ps : List Ref}
    (h : g.IsNode x R j ps) (hi : g.conclusion? x = some i) : j = i :=
  Option.some.inj (h.conclusion.symm.trans hi)

/-- Every way down from `r` along premises passes through at most so many nodes. -/
inductive Shallow (g : Graph) : Nat → Ref → Prop
  | node {n : Nat} {r : Ref} (h : ∀ p ∈ g.premisesOf r, Shallow g n p) : Shallow g (n + 1) r

theorem Shallow.premise {n : Nat} {r p : Ref} (h : g.Shallow (n + 1) r)
    (hp : p ∈ g.premisesOf r) : g.Shallow n p := by
  obtain ⟨h⟩ := h
  exact h p hp

theorem Shallow.of_premises {n : Nat} {r r' : Ref} (h : g.Shallow n r)
    (hps : g.premisesOf r = g.premisesOf r') : g.Shallow n r' := by
  cases h with
  | node h =>
    rw [hps] at h
    exact .node h

/-! ## heights -/

/-- The property that the heights of a survey stand for. -/
def Surveyed (g : Graph) (Q : Role → Ref → Prop) (hs : Heights) : Prop :=
  ∀ (x : Ref) (h : Nat), hs[x]? = some h → ∃ R j ps, g.IsNode x R j ps ∧ (∀ p ∈ j.roots, Q p.1 p.2) ∧
    heightAbove hs ps = .ok h

theorem getElem?_insert_heights (hs : Heights) (r x : Ref) (h : Nat) :
    (hs.insert r h)[x]? = if r = x then some h else hs[x]? := by
  rw [Std.TreeMap.getElem?_insert]
  simp only [Std.LawfulEqCmp.compare_eq_iff_eq]

theorem map_eq_ok {ε α β : Type} {x : Except ε α} {f : α → β} {b : β} :
    x.map f = .ok b ↔ ∃ a, x = .ok a ∧ f a = b := by
  cases x <;> simp [Except.map]

theorem heightAbove_cons {hs : Heights} {p : Ref} {ps : List Ref} {h : Nat} :
    heightAbove hs (p :: ps) = .ok h ↔
      ∃ k l, hs[p]? = some k ∧ heightAbove hs ps = .ok l ∧ max (k + 1) l = h := by
  rw [heightAbove]
  cases hs[p]? with
  | none => simp
  | some k => simp [map_eq_ok]

/-- The premises of a node are lower than the node. -/
theorem lt_of_heightAbove {hs : Heights} {ps : List Ref} {h : Nat}
    (hh : heightAbove hs ps = .ok h) : ∀ p ∈ ps, ∃ k, hs[p]? = some k ∧ k < h := by
  induction ps generalizing h with
  | nil => simp
  | cons p ps ih =>
    obtain ⟨k, l, hp, hl, rfl⟩ := heightAbove_cons.mp hh
    refine List.forall_mem_cons.mpr ⟨⟨k, hp, by omega⟩, fun q hq => ?_⟩
    obtain ⟨i, hq, hi⟩ := ih hl q hq
    exact ⟨i, hq, by omega⟩

/-- Below every height that a node exceeds there is a premise that reaches it. -/
theorem exists_of_lt_heightAbove {hs : Heights} {ps : List Ref} {h n : Nat}
    (hh : heightAbove hs ps = .ok h) (hn : n < h) : ∃ p ∈ ps, ∃ k, hs[p]? = some k ∧ n ≤ k := by
  induction ps generalizing h with
  | nil =>
    obtain rfl : 0 = h := by simpa [heightAbove] using hh
    omega
  | cons p ps ih =>
    obtain ⟨k, l, hp, hl, rfl⟩ := heightAbove_cons.mp hh
    by_cases hk : n ≤ k
    · exact ⟨p, List.mem_cons_self, k, hp, hk⟩
    · obtain ⟨q, hq, hqk⟩ := ih hl (by omega)
      exact ⟨q, List.mem_cons_of_mem _ hq, hqk⟩

theorem exists_heightAbove {hs : Heights} {ps : List Ref} {b : Nat}
    (h : ∀ p ∈ ps, ∃ k, hs[p]? = some k ∧ k < b) : ∃ h ≤ b, heightAbove hs ps = .ok h := by
  induction ps with
  | nil => exact ⟨0, Nat.zero_le b, rfl⟩
  | cons p ps ih =>
    obtain ⟨⟨k, hp, hk⟩, hps⟩ := List.forall_mem_cons.mp h
    obtain ⟨l, hl, hh⟩ := ih hps
    exact ⟨max (k + 1) l, by omega, heightAbove_cons.mpr ⟨k, l, hp, hh, rfl⟩⟩

/-- One set of heights holds all that another one does. -/
def Extends (hs hs' : Heights) : Prop :=
  ∀ (x : Ref) (k : Nat), hs[x]? = some k → hs'[x]? = some k

theorem Extends.heightAbove {hs hs' : Heights} (e : Extends hs hs') {ps : List Ref} {h : Nat}
    (hh : heightAbove hs ps = .ok h) : heightAbove hs' ps = .ok h := by
  induction ps generalizing h with
  | nil => exact hh
  | cons p ps ih =>
    obtain ⟨k, l, hp, hl, rfl⟩ := heightAbove_cons.mp hh
    exact heightAbove_cons.mpr ⟨k, l, e p k hp, ih hl, rfl⟩

theorem extends_insert {hs : Heights} {r : Ref} {h : Nat} (hr : hs[r]? = none) :
    Extends hs (hs.insert r h) := by
  intro x k hx
  rw [getElem?_insert_heights]
  split
  · rename_i e
    rw [e, hx] at hr
    exact absurd hr (by simp)
  · exact hx

section
variable {Q : Role → Ref → Prop} {hs : Heights}

theorem Surveyed.insert (H : g.Surveyed Q hs) {r : Ref} (hr : hs[r]? = none) {R : Rule}
    {j : Judgement} {ps : List Ref} (hn : g.IsNode r R j ps) (hj : ∀ p ∈ j.roots, Q p.1 p.2)
    {h : Nat} (hh : heightAbove hs ps = .ok h) : g.Surveyed Q (hs.insert r h) := by
  have e := extends_insert (h := h) hr
  intro x k hx
  rw [getElem?_insert_heights] at hx
  split at hx
  · rename_i hxr
    obtain rfl := Option.some.inj hx
    exact ⟨R, j, ps, hxr ▸ hn, hj, e.heightAbove hh⟩
  · obtain ⟨R', j', ps', hn', hj', hh'⟩ := H x k hx
    exact ⟨R', j', ps', hn', hj', e.heightAbove hh'⟩

theorem Surveyed.premise (H : g.Surveyed Q hs) {x p : Ref} {h : Nat} (hx : hs[x]? = some h)
    (hp : p ∈ g.premisesOf x) : ∃ k, hs[p]? = some k ∧ k < h := by
  obtain ⟨R, j, ps, hn, -, hh⟩ := H x h hx
  exact lt_of_heightAbove hh p (hn.premisesOf ▸ hp)

/-- A surveyed node is as shallow as its height says. -/
theorem Surveyed.shallow (H : g.Surveyed Q hs) {n : Nat} :
    ∀ {x : Ref} {h : Nat}, hs[x]? = some h → h < n → g.Shallow n x := by
  induction n with
  | zero => exact fun _ h => absurd h (Nat.not_lt_zero _)
  | succ n ih =>
    intro x h hx hn
    refine .node fun p hp => ?_
    obtain ⟨k, hk, hlt⟩ := H.premise hx hp
    exact ih hk (by omega)

/-- The nodes below a surveyed node are surveyed, and all but the node itself are lower. -/
theorem Surveyed.below (H : g.Surveyed Q hs) {x y : Ref} {h : Nat} (hx : hs[x]? = some h)
    (hy : g.Below x y) : ∃ k, hs[y]? = some k ∧ (y = x ∨ k < h) := by
  induction hy with
  | refl => exact ⟨h, hx, .inl rfl⟩
  | @tail z y _ hzy ih =>
    obtain ⟨k, hz, hk⟩ := ih
    obtain ⟨l, hl, hlt⟩ := H.premise hz hzy
    refine ⟨l, hl, .inr ?_⟩
    rcases hk with rfl | hk
    · rw [hx] at hz
      have := Option.some.inj hz
      omega
    · omega

end

/-! ## the survey -/

/-- What a survey of a node that passes has done: the height was known and small enough, or the
node was new and its premises have been surveyed. -/
theorem survey_eq_ok {written : String} {levels : Nat} {path : List Nat} {above : RefSet} {r : Ref}
    {s s' : Survey} (h : g.survey written levels path above r s = .ok s') :
    above.contains r = false ∧
      ((∃ k, s.heights[r]? = some k ∧ k < levels ∧ s' = s) ∨
        ∃ n R j ps memo s₁ k, levels = n + 1 ∧ s.heights[r]? = none ∧ g.IsNode r R j ps ∧
          g.judgementOk s.memo j.env j.term j.ty = (true, memo) ∧
          ps.zipIdx.foldlM (fun s q => g.survey written n (q.2 :: path) (above.insert r) q.1 s)
            { s with memo } = .ok s₁ ∧
          heightAbove s₁.heights ps = .ok k ∧
          s' = { s₁ with heights := s₁.heights.insert r k }) := by
  unfold survey at h
  split at h
  case h_2 => exact absurd h (by simp)
  case h_1 tag c p hr =>
    split at h
    case isTrue => exact absurd h (by simp [misshapen])
    case isFalse ha =>
      refine ⟨eq_false_of_ne_true ha, ?_⟩
      split at h
      case h_1 k hk =>
        left
        split at h
        · split at h <;> exact absurd h (by simp [tooDeep])
        · rename_i hlt
          exact ⟨k, hk, by omega, (Except.ok.inj h).symm⟩
      case h_2 hk =>
        right
        split at h
        case h_1 => exact absurd h (by simp)
        case h_2 n =>
          split at h
          case h_2 => exact absurd h (by simp)
          case h_1 R hR =>
            split at h
            case h_2 => exact absurd h (by simp)
            case h_1 ps hps =>
              split at h
              case h_1 => exact absurd h (by simp)
              case h_2 memo hm =>
                split at h
                case isTrue => exact absurd h (by simp)
                case isFalse hb =>
                  obtain ⟨s₁, hs₁, h⟩ := bind_eq_ok.mp h
                  cases hj : g.judgement? c with
                  | none => simp [sequentOk_of_none hj] at hm
                  | some j =>
                    rw [sequentOk_of_some hj] at hm
                    split at h
                    case h_1 => exact absurd h (by simp)
                    case h_2 k hk' =>
                      refine ⟨n, R, j, ps, memo, s₁, k, rfl, hk, ⟨?_, ?_, ?_⟩, hm, hs₁, hk',
                        (Except.ok.inj h).symm⟩
                      · simp [ruleOf?, hr, hR]
                      · simp [conclusion?, hr, hj]
                      · simp [sequenceOf?, hr, hps, hb]

section
variable {U Q : Role → Ref → Prop} {I : Memo → Prop} {tree : Ref}

/-- What a survey knows: its memo can be trusted, and its heights stand for something. -/
structure Knows (g : Graph) (Q : Role → Ref → Prop) (I : Memo → Prop) (s : Survey) : Prop where
  memo : I s.memo
  heights : g.Surveyed Q s.heights

/-- What a survey may do to the heights: it adds heights, but never of a node that it is below. -/
structure Grows (above : RefSet) (hs hs' : Heights) : Prop where
  extend : Extends hs hs'
  above : ∀ a, above.contains a = true → hs[a]? = none → hs'[a]? = none

theorem Grows.refl (above : RefSet) (hs : Heights) : Grows above hs hs :=
  ⟨fun _ _ h => h, fun _ _ h => h⟩

theorem Grows.trans {above : RefSet} {hs hs₁ hs₂ : Heights} (e : Grows above hs hs₁)
    (e' : Grows above hs₁ hs₂) : Grows above hs hs₂ :=
  ⟨fun x k h => e'.extend x k (e.extend x k h), fun a ha h => e'.above a ha (e.above a ha h)⟩

/-- Premises that are surveyed one after the other keep what a single one keeps. -/
theorem foldlM_survey {n : Nat} {above : RefSet} {f : Survey → Ref × Nat → Except Stop Survey}
    {qs : List (Ref × Nat)}
    (step : ∀ q ∈ qs, ∀ s s', g.Knows Q I s → f s q = .ok s' → g.Knows Q I s' ∧
      Grows above s.heights s'.heights ∧ ∃ k, s'.heights[q.1]? = some k ∧ k < n)
    {s s' : Survey} (hs : g.Knows Q I s) (h : qs.foldlM f s = .ok s') :
    g.Knows Q I s' ∧ Grows above s.heights s'.heights ∧
      ∀ q ∈ qs, ∃ k, s'.heights[q.1]? = some k ∧ k < n :=
  foldlM_steps (E := fun s t => Grows above s.heights t.heights)
    (P := fun q s => ∃ k, s.heights[q.1]? = some k ∧ k < n) (fun _ => .refl _ _)
    (fun _ _ _ => Grows.trans) (fun q _ _ he ⟨k, hk, hlt⟩ => ⟨k, he.extend q.1 k hk, hlt⟩) step hs h

/-- **A survey that passes** keeps what it knows and leaves the node with a height below the
limit. -/
theorem survey_surveyed (T : g.Trust U Q I)
    (hU : ∀ x j, g.Below tree x → g.conclusion? x = some j → ∀ p ∈ j.roots, U p.1 p.2)
    {written : String} {levels : Nat} :
    ∀ {path : List Nat} {above : RefSet} {r : Ref} {s s' : Survey}, g.Below tree r →
      g.Knows Q I s → g.survey written levels path above r s = .ok s' →
      g.Knows Q I s' ∧ Grows above s.heights s'.heights ∧
        ∃ k, s'.heights[r]? = some k ∧ k < levels := by
  induction levels with
  | zero =>
    intro path above r s s' _ _ h
    obtain ⟨-, ⟨k, -, hk, -⟩ | ⟨n, R, j, ps, memo, s₁, k, hn, -⟩⟩ := survey_eq_ok h
    · omega
    · omega
  | succ n ih =>
    intro path above r s s' hr hs h
    obtain ⟨ha, ⟨k, hk, hlt, rfl⟩ | ⟨n', R, j, ps, memo, s₁, k, hn, hnew, hnode, hm, hf, hh, rfl⟩⟩ :=
      survey_eq_ok h
    · exact ⟨hs, .refl _ _, k, hk, hlt⟩
    · obtain rfl : n = n' := by omega
      obtain ⟨hj, hmemo⟩ := judgementOk_trusted T hs.memo (hU r j hr hnode.conclusion) hm
      -- below `r`, the nodes above include `r`, so its height stays unknown until the end
      obtain ⟨hk₁, hg₁, hps⟩ := foldlM_survey (n := n) (s := { s with memo })
        (fun q hq t t' ht hw => ih (hr.tail (hnode.premisesOf ▸ mem_of_mem_zipIdx hq)) ht hw)
        ⟨hmemo, hs.heights⟩ hf
      have hr₁ : s₁.heights[r]? = none :=
        hg₁.above r (RefSet.contains_insert_iff.mpr (.inl rfl)) hnew
      obtain ⟨l, hl, hl'⟩ := exists_heightAbove (forall_of_zipIdx hps)
      obtain rfl : k = l := Except.ok.inj (hh.symm.trans hl')
      refine ⟨⟨hk₁.memo, hk₁.heights.insert hr₁ hnode hj hh⟩, ⟨?_, ?_⟩, k, ?_, by omega⟩
      · intro x i hx
        exact extends_insert hr₁ x i (hg₁.extend x i hx)
      · intro a haa hna
        have hra : r ≠ a := fun e => by rw [e, haa] at ha; exact absurd ha (by simp)
        show (s₁.heights.insert r k)[a]? = none
        rw [getElem?_insert_heights, if_neg hra]
        exact hg₁.above a (RefSet.contains_insert_iff.mpr (.inr haa)) hna
      · show (s₁.heights.insert r k)[r]? = some k
        rw [getElem?_insert_heights, if_pos rfl]

end

end Graph

end NaturalDeduction

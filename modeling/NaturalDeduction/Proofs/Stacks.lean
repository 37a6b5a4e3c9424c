import NaturalDeduction.Proofs.Survey

/-!
# Loops over a stack

A walk over a value is written as a recursion. Here it is a loop that takes entries off a stack: an
entry ends the loop, or it changes the state and puts entries on the stack.

* `Drains next final`   the loop, from a stack and a state to its outcome;
* `WorksOff`            some entries are worked off, whatever lies below them, as a step of a recursion
                        has it;
* `WorksOff.append`, `WorksOff.foldlM`   entries that lie on each other are steps that follow each
                        other;
* `typeWalk_drains`, `termWalk_drains`   the walks over types and terms are loops.
-/

namespace NaturalDeduction

section
variable {ε σ α β γ E : Type}

/-- The loop from a stack and a state comes to this outcome: `next` is what an entry does, and `final`
what is read off the state when the stack is empty. -/
inductive Drains (next : E → σ → Except ε (List E × σ)) (final : σ → β) :
    List E → σ → Except ε β → Prop
  | done (s : σ) : Drains next final [] s (.ok (final s))
  | push {e : E} {es stack : List E} {s s' : σ} {x : Except ε β} (h : next e s = .ok (es, s'))
      (hd : Drains next final (es ++ stack) s' x) : Drains next final (e :: stack) s x
  | stop {e : E} {stack : List E} {s : σ} {f : ε} (h : next e s = .error f) :
      Drains next final (e :: stack) s (.error f)

variable {next : E → σ → Except ε (List E × σ)} {final : σ → β}

/-- A loop has one outcome. -/
theorem Drains.unique {stack : List E} {s : σ} {x y : Except ε β} (hx : Drains next final stack s x)
    (hy : Drains next final stack s y) : x = y := by
  induction hx with
  | done s =>
    cases hy
    rfl
  | push h _ ih =>
    cases hy with
    | push h' hd' =>
      obtain ⟨rfl, rfl⟩ := Prod.mk.inj (Except.ok.inj (h.symm.trans h'))
      exact ih hd'
    | stop h' => cases h.symm.trans h'
  | stop h =>
    cases hy with
    | push h' => cases h.symm.trans h'
    | stop h' => rw [Except.error.inj (h.symm.trans h')]

/-- From the state `s`, the entries are worked off as `x` has it: the loop stops where `x` does, or it
comes down to what lay below them in a state that fits the result of `x`. -/
def WorksOff (next : E → σ → Except ε (List E × σ)) (final : σ → β) (es : List E) (s : σ)
    (P : α → σ → Prop) (x : Except ε α) : Prop :=
  ∀ (stack : List E) (k : α → Except ε β),
    (∀ a s', x = .ok a → P a s' → Drains next final stack s' (k a)) →
      Drains next final (es ++ stack) s (x >>= k)

variable {P : α → σ → Prop} {Q : γ → σ → Prop}

theorem worksOff_nil {a : α} {s : σ} (h : P a s) : WorksOff next final [] s P (.ok a) :=
  fun _ _ hk => hk a s rfl h

theorem worksOff_stop {e : E} {es : List E} {s : σ} {f : ε} (h : next e s = .error f) :
    WorksOff next final (e :: es) s P (.error f) := fun _ _ _ => .stop h

theorem WorksOff.push {e : E} {es : List E} {s s' : σ} {x : Except ε α}
    (hx : WorksOff next final es s' P x) (h : next e s = .ok (es, s')) :
    WorksOff next final [e] s P x := fun stack k hk => .push h (hx stack k hk)

theorem WorksOff.imp {P' : α → σ → Prop} {es : List E} {s : σ} {x : Except ε α}
    (hx : WorksOff next final es s P x) (h : ∀ a s', P a s' → P' a s') :
    WorksOff next final es s P' x :=
  fun stack k hk => hx stack k fun a s' ha hP => hk a s' ha (h a s' hP)

/-- An entry that puts nothing on the stack. -/
theorem worksOff_one {e : E} {s s' : σ} {a : α} (h : next e s = .ok ([], s')) (hP : P a s') :
    WorksOff next final [e] s P (.ok a) := (worksOff_nil hP).push h

/-- Entries that lie on others are worked off first. -/
theorem WorksOff.append {es es' : List E} {s : σ} {x : Except ε α} {f : α → Except ε γ}
    (hx : WorksOff next final es s P x)
    (hf : ∀ a s', P a s' → WorksOff next final es' s' Q (f a)) :
    WorksOff next final (es ++ es') s Q (x >>= f) := by
  intro stack k hk
  have hbind : (x >>= f) >>= k = x >>= fun a => f a >>= k := by cases x <;> rfl
  rw [hbind, List.append_assoc]
  refine hx (es' ++ stack) _ fun a s' ha hP => hf a s' hP stack k fun c s'' hc hQ => ?_
  refine hk c s'' ?_ hQ
  rw [ha]
  exact hc

/-- One entry for every element of a list, in its order. -/
theorem WorksOff.foldlM {l : List γ} {entry : γ → E} {f : α → γ → Except ε α} {a : α} {s : σ}
    (hP : P a s)
    (hf : ∀ q ∈ l, ∀ a s, P a s → WorksOff next final [entry q] s P (f a q)) :
    WorksOff next final (l.map entry) s P (l.foldlM f a) := by
  induction l generalizing a s with
  | nil => exact worksOff_nil hP
  | cons q l ih =>
    obtain ⟨hq, hl⟩ := List.forall_mem_cons.mp hf
    exact (hq a s hP).append fun a' s' hP' => ih hP' hl

theorem WorksOff.drains {P : β → σ → Prop} {es : List E} {s : σ} {x : Except ε β}
    (hx : WorksOff next final es s P x) (hP : ∀ a s', P a s' → final s' = a) :
    Drains next final es s x := by
  have hok : x >>= Except.ok = x := by cases x <;> rfl
  rw [← hok, ← List.append_nil es]
  exact hx [] Except.ok fun a s' _ h => hP a s' h ▸ .done s'

end

/-! ## errors seen from a higher level -/

section
variable {ε ε' ε'' α β : Type}

theorem mapError_mapError {f : ε → ε'} {f' : ε' → ε''} {x : Except ε α} :
    (x.mapError f).mapError f' = x.mapError fun e => f' (f e) := by
  cases x <;> rfl

theorem mapError_foldlM {h : ε → ε'} {f : α → β → Except ε α} {l : List β} {a : α} :
    (l.foldlM f a).mapError h = l.foldlM (fun a b => (f a b).mapError h) a := by
  induction l generalizing a with
  | nil => rfl
  | cons b l ih =>
    rw [List.foldlM_cons, List.foldlM_cons]
    cases f a b with
    | error e => rfl
    | ok a' => exact ih

end

/-! ## walks -/

section
variable {ε σ : Type}

/-- What a loop does with a part of a value, which comes with the fields that lead to it, the last one
first: `step` says which of its parts come next, or which fault lies where in it, and `atPath` says where
that is in the whole. -/
def walkNext (step : Ref → σ → Except ε (List (Field × Ref) × σ)) (atPath : Path → ε → ε)
    (e : Ref × Path) (s : σ) : Except ε (List (Ref × Path) × σ) :=
  match step e.1 s with
  | .ok (fs, s) => .ok (fs.map fun f => (f.2, f.1 :: e.2), s)
  | .error f => .error (atPath e.2.reverse f)

variable {step : Ref → σ → Except ε (List (Field × Ref) × σ)} {atPath : Path → ε → ε}
  {walk : Ref → σ → Except ε σ} (hnil : ∀ f, atPath [] f = f)
  (happend : ∀ p q f, atPath (p ++ q) f = atPath p (atPath q f))
  (hlt : ∀ {r s fs s'}, step r s = .ok (fs, s') → ∀ f ∈ fs, f.2 < r)
  (hwalk : ∀ r s, walk r s = step r s >>= fun x =>
    x.1.foldlM (fun s f => (walk f.2 s).mapError (atPath [f.1])) x.2)
include happend hlt hwalk

/-- A recursion that takes the same steps is worked off by the loop. The induction is on the value: its
parts have smaller references. -/
theorem walk_worksOff (r : Ref) (trail : Path) (s : σ) :
    WorksOff (walkNext step atPath) id [(r, trail)] s Eq
      ((walk r s).mapError (atPath trail.reverse)) := by
  induction r using Nat.strongRecOn generalizing trail s with
  | ind r ih =>
  rw [hwalk]
  cases hstep : step r s with
  | error f => exact worksOff_stop (by rw [walkNext, hstep])
  | ok x =>
    have hnext : walkNext step atPath (r, trail) s =
        .ok (x.1.map fun f => (f.2, f.1 :: trail), x.2) := by rw [walkNext, hstep]
    refine WorksOff.push ?_ hnext
    rw [ok_bind, mapError_foldlM]
    refine WorksOff.foldlM rfl fun f hf s s' hs => ?_
    subst hs
    have hpart := ih f.2 (hlt hstep f hf) (f.1 :: trail) s
    simpa only [mapError_mapError, ← happend, List.reverse_cons] using hpart

include hnil in
theorem walk_drains (r : Ref) (s : σ) : Drains (walkNext step atPath) id [(r, [])] s (walk r s) := by
  have h := (walk_worksOff happend hlt hwalk r [] s).drains fun _ _ h => h.symm
  have hid : (walk r s).mapError (atPath []) = walk r s := by
    cases walk r s with
    | ok => rfl
    | error f => exact congrArg Except.error (hnil f)
  rwa [List.reverse_nil, hid] at h

end

namespace Graph
variable {g : Graph}

/-- The parts of a type that come after the type at `r`. -/
def typeStep (g : Graph) (m : Memo) (r : Ref) (seen : RefSet) :
    Except Path (List (Field × Ref) × RefSet) :=
  if seen.contains r || m.knows r then .ok ([], seen)
  else
    match g.get r with
    | .bottom => .ok ([], seen.insert r)
    | .base n => if g.isName n then .ok ([], seen.insert r) else .error []
    | .arrow a b => .ok ([(.dom, a), (.cod, b)], seen.insert r)
    | .product a b => .ok ([(.left, a), (.right, b)], seen.insert r)
    | .sum a b => .ok ([(.left, a), (.right, b)], seen.insert r)
    | _ => .error []

theorem lt_of_typeStep {m : Memo} {r : Ref} {seen seen' : RefSet} {fs : List (Field × Ref)}
    (h : g.typeStep m r seen = .ok (fs, seen')) : ∀ f ∈ fs, f.2 < r := by
  have hlt := g.forall_fields_lt r
  unfold typeStep at h
  split at h
  · cases h
    exact nofun
  · split at h
    case h_1 =>
      cases h
      exact nofun
    case h_2 =>
      split at h <;> cases h
      exact nofun
    case h_3 hr | h_4 hr | h_5 hr =>
      cases h
      simpa [hr, Cell.fields] using hlt
    case h_6 => cases h

theorem typeWalk_eq (m : Memo) (r : Ref) (seen : RefSet) :
    g.typeWalk m r seen = g.typeStep m r seen >>= fun x =>
      x.1.foldlM (fun seen f => (g.typeWalk m f.2 seen).mapError ([f.1] ++ ·)) x.2 := by
  rw [typeWalk, typeStep]
  split
  case isTrue => rfl
  case isFalse =>
    split
    case h_1 h =>
      simp only [h]
      rfl
    case h_2 n h =>
      simp only [h]
      split <;> rfl
    case h_3 a b h | h_4 a b h | h_5 a b h =>
      simp only [h, ok_bind, List.foldlM_cons, List.foldlM_nil, bind_pure]
      cases g.typeWalk m a (seen.insert r) <;> rfl
    case h_6 =>
      split
      case h_6 => rfl
      all_goals simp_all

/-- **The walk over a type is a loop over a stack.** -/
theorem typeWalk_drains (m : Memo) (r : Ref) (seen : RefSet) :
    Drains (walkNext (g.typeStep m) (· ++ ·)) id [(r, [])] seen (g.typeWalk m r seen) :=
  walk_drains (fun _ => rfl) List.append_assoc lt_of_typeStep (typeWalk_eq m) r seen

/-- The outcome of the loop is the fault of a type. -/
theorem typeFault_of_drains {m : Memo} {r : Ref} {x : Except Path RefSet} :
    Drains (walkNext (g.typeStep m) (· ++ ·)) id [(r, [])] {} x →
      g.typeFault m r =
        match x with
        | .ok seen => (none, m.learn seen)
        | .error p => (some p, m) := by
  intro h
  obtain rfl := h.unique (typeWalk_drains m r {})
  rfl

/-! ## terms -/

/-- A misfit in the part at the end of a path. -/
def Misfit.at (p : Path) (e : Misfit) : Misfit := { e with path := p ++ e.path }

/-- The parts of a term that come after the term at `r`. The type of a parameter is walked at once. -/
def termStep (g : Graph) (r : Ref) (w : Walk) : Except Misfit (List (Field × Ref) × Walk) :=
  if w.seen.contains r || w.memo.knows r then .ok ([], w)
  else
    match g.get r with
    | .var n => if g.isName n then .ok ([], w.visit r) else .error ⟨[], w.memo⟩
    | .pair a b => .ok ([(.fst, a), (.snd, b)], w.visit r)
    | .inl a => .ok ([(.body, a)], w.visit r)
    | .inr a => .ok ([(.body, a)], w.visit r)
    | .case a b c => .ok ([(.scrutinee, a), (.onLeft, b), (.onRight, c)], w.visit r)
    | .fst a => .ok ([(.pair, a)], w.visit r)
    | .snd a => .ok ([(.pair, a)], w.visit r)
    | .lambda x a b =>
      if g.isName x then
        match g.typeFault w.memo a with
        | (some p, m) => .error ⟨.paramTy :: p, m⟩
        | (none, m) => .ok ([(.body, b)], ⟨w.seen.insert r, m⟩)
      else .error ⟨[.param], w.memo⟩
    | .abort a => .ok ([(.body, a)], w.visit r)
    | _ => .error ⟨[], w.memo⟩

theorem lt_of_termStep {r : Ref} {w w' : Walk} {fs : List (Field × Ref)}
    (h : g.termStep r w = .ok (fs, w')) : ∀ f ∈ fs, f.2 < r := by
  have hlt := g.forall_fields_lt r
  unfold termStep at h
  split at h
  · cases h
    exact nofun
  · split at h
    case h_1 =>
      split at h <;> cases h
      exact nofun
    case h_8 hr =>
      split at h
      case isFalse => cases h
      case isTrue =>
        split at h <;> cases h
        simp_all [Cell.fields]
    case h_10 => cases h
    case h_2 hr | h_3 hr | h_4 hr | h_5 hr | h_6 hr | h_7 hr | h_9 hr =>
      cases h
      simpa [hr, Cell.fields] using hlt

theorem termWalk_eq (r : Ref) (w : Walk) :
    g.termWalk r w = g.termStep r w >>= fun x =>
      x.1.foldlM (fun w f => (g.termWalk f.2 w).mapError (Misfit.at [f.1])) x.2 := by
  rw [termWalk, termStep]
  split
  case isTrue => rfl
  case isFalse =>
    split
    case h_1 n h =>
      simp only [h]
      split <;> rfl
    case h_2 a b h =>
      simp only [h, ok_bind, List.foldlM_cons, List.foldlM_nil, bind_pure]
      cases g.termWalk a (w.visit r) <;> rfl
    case h_3 a h | h_4 a h | h_6 a h | h_7 a h | h_9 a h =>
      simp only [h, ok_bind, List.foldlM_cons, List.foldlM_nil, bind_pure]
      rfl
    case h_5 a b c h =>
      simp only [h, ok_bind, List.foldlM_cons, List.foldlM_nil, bind_pure]
      cases g.termWalk a (w.visit r) with
      | error e => rfl
      | ok v =>
        dsimp only
        show _ = (g.termWalk b v).mapError (Misfit.at [.onLeft]) >>= _
        cases g.termWalk b v <;> rfl
    case h_8 x a b h =>
      simp only [h]
      split
      case isFalse => rfl
      case isTrue =>
        rcases g.typeFault w.memo a with ⟨_ | p, m⟩
        · simp only [ok_bind, List.foldlM_cons, List.foldlM_nil, bind_pure]
          rfl
        · rfl
    case h_10 =>
      split
      case h_10 => rfl
      all_goals simp_all

/-- **The walk over a term is a loop over a stack.** -/
theorem termWalk_drains (r : Ref) (w : Walk) :
    Drains (walkNext g.termStep Misfit.at) id [(r, [])] w (g.termWalk r w) :=
  walk_drains (fun _ => rfl) (fun p q f => by simp [Misfit.at]) lt_of_termStep termWalk_eq r w

theorem termFault_of_drains {m : Memo} {r : Ref} {x : Except Misfit Walk} :
    Drains (walkNext g.termStep Misfit.at) id [(r, [])] ⟨{}, m⟩ x →
      g.termFault m r =
        match x with
        | .ok w => (none, w.memo.learn w.seen)
        | .error e => (some e.path, e.memo) := by
  intro h
  obtain rfl := h.unique (termWalk_drains r ⟨{}, m⟩)
  rfl

end Graph

end NaturalDeduction

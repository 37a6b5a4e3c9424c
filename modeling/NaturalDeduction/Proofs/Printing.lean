import NaturalDeduction.Proofs.RuleTable

/-!
# What can be printed

* `Graph.leaves`          the text of a value as the list of its pieces, in order;
* `Graph.Writable`        a value whose pieces exist, all the way down;
* `emit_eq_foldlM`        printing such a value is printing its leaves one after the other, whatever the
                          limit is;
* `sortByName_eq`         names that are texts can be ordered;
* `exists_showValue`, `exists_showEnv`, `exists_showSequent`   the values that a check compares have a
                          text.
-/

namespace NaturalDeduction

section
variable {ε α β σ : Type}

theorem foldMembers_eq_foldlM {l : List α} {f : (a : α) → a ∈ l → σ → Except ε σ}
    {k : σ → α → Except ε σ} (h : ∀ a ha s, f a ha s = k s a) (s : σ) :
    foldMembers l f s = l.foldlM k s := by
  induction l generalizing s with
  | nil => rfl
  | cons a l ih =>
    rw [foldMembers, h, List.foldlM_cons]
    cases k s a with
    | error e => rfl
    | ok t => exact ih (fun b hb => h b (List.mem_cons_of_mem a hb)) t

theorem foldlM_eq_foldlM_flatMap {l : List α} {f : σ → α → Except ε σ} {k : α → List β}
    {put : σ → β → Except ε σ} (h : ∀ a ∈ l, ∀ s, f s a = (k a).foldlM put s) (s : σ) :
    l.foldlM f s = (l.flatMap k).foldlM put s := by
  induction l generalizing s with
  | nil => rfl
  | cons a l ih =>
    rw [List.foldlM_cons, h a List.mem_cons_self, List.flatMap_cons, List.foldlM_append]
    cases (k a).foldlM put s with
    | error e => rfl
    | ok t => exact ih (fun b hb => h b (List.mem_cons_of_mem a hb)) t

theorem exists_mapM_ok {f : α → Except ε β} {l : List α} (h : ∀ a ∈ l, ∃ b, f a = .ok b) :
    ∃ bs, l.mapM f = .ok bs := by
  induction l with
  | nil => exact ⟨[], rfl⟩
  | cons a l ih =>
    obtain ⟨b, hb⟩ := h a List.mem_cons_self
    obtain ⟨bs, hbs⟩ := ih fun c hc => h c (List.mem_cons_of_mem a hc)
    refine ⟨b :: bs, ?_⟩
    rw [List.mapM_cons, hb, ok_bind, hbs]
    rfl

end

/-! ## pieces -/

theorem Output.foldlM_put_none (ls : List String) (o : Output) :
    ∃ n, ls.foldlM (Output.put none) o = .ok ⟨o.text ++ String.join ls, n⟩ := by
  induction ls generalizing o with
  | nil => exact ⟨o.size, by simp [String.join, pure, Except.pure]⟩
  | cons s ls ih =>
    obtain ⟨n, hn⟩ := ih ⟨o.text ++ s, o.size + s.length⟩
    refine ⟨n, ?_⟩
    rw [List.foldlM_cons]
    show ls.foldlM (Output.put none) ⟨o.text ++ s, o.size + s.length⟩ = _
    rw [hn, String.join_cons, String.append_assoc]

theorem Output.foldlM_put_ne_failure {limit : Option Int} {ls : List String} {o : Output}
    {f : Failure} : ls.foldlM (Output.put limit) o ≠ .error (.failure f) := by
  induction ls generalizing o with
  | nil => exact fun h => nomatch h
  | cons s ls ih =>
    rw [List.foldlM_cons]
    cases hp : o.put limit s with
    | ok o' => exact ih
    | error e =>
      intro h
      obtain rfl : e = .failure f := Except.error.inj h
      unfold Output.put at hp
      cases limit with
      | none => exact absurd hp (by simp)
      | some n => simp only at hp; split at hp <;> exact absurd hp (by simp)

namespace Graph
variable {g : Graph} {str : Ref → Except Failure String} {limit : Option Int}

/-- The pieces of the text of a value, in order. -/
def leaves (g : Graph) (str : Ref → Except Failure String) (r : Ref) : List String :=
  match h : g.pieces str r with
  | .error _ => []
  | .ok ps => ps.attach.flatMap fun ⟨p, hp⟩ =>
    match p with
    | .lit s => [s]
    | .part s =>
      have : s < r := lt_of_part_mem_pieces h hp
      g.leaves str s
termination_by r

/-- The leaves of a piece. -/
def pieceLeaves (g : Graph) (str : Ref → Except Failure String) : Piece → List String
  | .lit s => [s]
  | .part r => g.leaves str r

theorem leaves_of_pieces {r : Ref} {ps : List Piece} (h : g.pieces str r = .ok ps) :
    g.leaves str r = ps.flatMap (g.pieceLeaves str) := by
  rw [leaves]
  split
  case h_1 h' => rw [h] at h'; cases h'
  case h_2 qs h' =>
    obtain rfl : ps = qs := Except.ok.inj (h.symm.trans h')
    rw [List.flatMap_subtype (g := g.pieceLeaves str)]
    · rw [List.unattach_attach]
    · rintro (s | s) _ <;> rfl

/-- A value whose text exists: no part of it lacks its pieces. -/
inductive Writable (g : Graph) (str : Ref → Except Failure String) : Ref → Prop
  | intro {r : Ref} {ps : List Piece} (h : g.pieces str r = .ok ps)
      (hs : ∀ s, .part s ∈ ps → Writable g str s) : Writable g str r

theorem put_eq_foldlM (o : Output) (s : String) :
    o.put limit s = [s].foldlM (Output.put limit) o := by
  rw [List.foldlM_cons]
  cases o.put limit s <;> rfl

/-- Printing pieces is printing their leaves one after the other, if that is so for their parts. -/
theorem emitPieces_eq_foldlM {ps : List Piece}
    (h : ∀ s, .part s ∈ ps → ∀ o, g.emit str limit s o = (g.leaves str s).foldlM (Output.put limit) o)
    (o : Output) :
    g.emitPieces str limit ps o = (ps.flatMap (g.pieceLeaves str)).foldlM (Output.put limit) o := by
  refine foldlM_eq_foldlM_flatMap (fun p hp o => ?_) o
  cases p with
  | lit s => exact put_eq_foldlM o s
  | part s => exact h s hp o

/-- Printing a value is printing its pieces. -/
theorem emit_of_pieces {r : Ref} {ps : List Piece} (h : g.pieces str r = .ok ps) (o : Output) :
    g.emit str limit r o = g.emitPieces str limit ps o := by
  rw [emit]
  split
  case h_1 h' => rw [h] at h'; cases h'
  case h_2 qs h' =>
    obtain rfl : ps = qs := Except.ok.inj (h.symm.trans h')
    refine foldMembers_eq_foldlM (fun p hp o => ?_) o
    cases p <;> rfl

/-- Printing a value is printing its leaves one after the other. -/
theorem emit_eq_foldlM {r : Ref} (h : g.Writable str r) (o : Output) :
    g.emit str limit r o = (g.leaves str r).foldlM (Output.put limit) o := by
  induction h generalizing o with
  | @intro r ps h _ ih => rw [leaves_of_pieces h, ← emitPieces_eq_foldlM ih, emit_of_pieces h]

theorem exists_finish {ls : List String} :
    ∃ s, finish (ls.foldlM (Output.put limit) .empty) = .ok s := by
  cases h : ls.foldlM (Output.put limit) .empty with
  | ok o => exact ⟨o.text, rfl⟩
  | error e =>
    cases e with
    | cut s => exact ⟨s, rfl⟩
    | failure f => exact absurd h Output.foldlM_put_ne_failure

theorem finish_foldlM_put_none (ls : List String) :
    finish (ls.foldlM (Output.put none) .empty) = .ok (String.join ls) := by
  obtain ⟨n, hn⟩ := Output.foldlM_put_none ls .empty
  rw [hn]
  show Except.ok ("" ++ String.join ls) = _
  rw [String.empty_append]

theorem showWith_eq_finish {r : Ref} (h : g.Writable str r) :
    g.showWith str limit r = finish ((g.leaves str r).foldlM (Output.put limit) .empty) := by
  rw [showWith, emit_eq_foldlM h]

/-- Without a limit, all leaves are printed. -/
theorem showWith_none {r : Ref} (h : g.Writable str r) :
    g.showWith str none r = .ok (String.join (g.leaves str r)) := by
  rw [showWith_eq_finish h, finish_foldlM_put_none]

/-! ## names -/

theorem str_of_text? {x : Ref} {w : String} (h : g.text? x = some w) : g.str x = .ok w := by
  rw [str, strWithin]
  obtain hw | ⟨R, hR, rfl⟩ := cell_of_text h
  · rw [hw]
  · rw [hR]

theorem atom?_of_text? {x : Ref} {w : String} (h : g.text? x = some w) :
    (g.get x).atom? = some (.text w) := by
  obtain hw | ⟨R, hR, rfl⟩ := cell_of_text h
  · rw [hw]
    rfl
  · rw [hR]
    rfl

theorem compareNames_of_texts {a b : Ref} {x y : String} {n : Nat} (ha : g.text? a = some x)
    (hb : g.text? b = some y) : g.compareNames (n + 1) a b = some (compare x y) := by
  rw [compareNames, atom?_of_text? ha, atom?_of_text? hb]

theorem allPairs_of_forall {α : Type} {p : α → α → Bool} {l : List α}
    (h : ∀ a ∈ l, ∀ b ∈ l, p a b = true) : allPairs p l = true := by
  induction l with
  | nil => rfl
  | cons a l ih =>
    rw [allPairs, Bool.and_eq_true, List.all_eq_true]
    refine ⟨fun b hb => h a List.mem_cons_self b (List.mem_cons_of_mem a hb), ih fun b hb c hc => ?_⟩
    exact h b (List.mem_cons_of_mem a hb) c (List.mem_cons_of_mem a hc)

/-- Names that are texts can be ordered. -/
theorem sortByName_eq {es : List (Ref × Ref)} (h : ∀ e ∈ es, ∃ w, g.text? e.1 = some w) :
    g.sortByName es =
      .ok (es.mergeSort fun a b => g.compareNames (g.size + 1) a.1 b.1 != some .gt) := by
  have hpairs : allPairs (fun a b => (g.compareNames (g.size + 1) a.1 b.1).isSome) es = true := by
    refine allPairs_of_forall fun a ha b hb => ?_
    obtain ⟨x, hx⟩ := h a ha
    obtain ⟨y, hy⟩ := h b hb
    rw [compareNames_of_texts hx hy]
    rfl
  unfold sortByName
  simp only [hpairs, if_true]

theorem sortByName_of_texts {es : List (Ref × Ref)} (h : ∀ e ∈ es, ∃ w, g.text? e.1 = some w) :
    ∃ es', g.sortByName es = .ok es' ∧ es'.Perm es :=
  ⟨_, sortByName_eq h, List.mergeSort_perm es _⟩

/-! ## the values that a check compares -/

/-- The parts that are printed are parts of the value. -/
theorem mem_parts_of_piece {r s : Ref} {ps : List Piece} (h : g.pieces str r = .ok ps)
    (hs : .part s ∈ ps) : ∃ ρ, (ρ, s) ∈ (g.get r).parts := by
  unfold pieces at h
  split at h
  case h_15 x a b hc =>
    split at h
    · cases h
    · obtain rfl : _ = ps := Except.ok.inj h
      simp [hc, Cell.parts] at hs ⊢
      grind
  all_goals
    rename_i hc
    obtain rfl : _ = ps := Except.ok.inj h
    simp [hc, Cell.parts] at hs ⊢
  all_goals grind

theorem exists_pieces {r : Ref} (h : g.Loose r) : ∃ ps, g.pieces g.str r = .ok ps := by
  unfold pieces
  split
  case h_15 x a b hc =>
    obtain ⟨n, -, hx⟩ := exists_name (h.label (x := x) (by simp [hc, Cell.labels]))
    rw [str_of_text? hx]
    exact ⟨_, rfl⟩
  all_goals exact ⟨_, rfl⟩

theorem Loose.writable {r : Ref} (h : g.Loose r) : g.Writable g.str r := by
  induction r using Nat.strongRecOn with
  | ind r ih =>
    obtain ⟨ps, hps⟩ := exists_pieces h
    refine .intro hps fun s hs => ?_
    obtain ⟨ρ, hp⟩ := mem_parts_of_piece hps hs
    exact ih s (lt_of_part_mem_pieces hps hs) (h.part hp)

theorem exists_showValue (limit : Option Int) {r : Ref} (h : g.Loose r) :
    ∃ s, g.showValue limit r = .ok s := by
  rw [showValue, showWith_eq_finish h.writable]
  exact exists_finish

theorem exists_showBindings (limit : Option Int) {bs : List (Ref × Ref)} (h : g.Bindings bs) :
    ∃ s, g.showBindings limit bs = .ok s := by
  have hnames : ∀ e ∈ bs, ∃ w, g.text? e.1 = some w := by
    intro e he
    obtain ⟨n, -, hn⟩ := exists_name (h.names e he)
    exact ⟨n.word, hn⟩
  obtain ⟨es, hes, hperm⟩ := sortByName_of_texts hnames
  obtain ⟨parts, hparts⟩ := exists_mapM_ok (l := es) (f := fun e => do
    let name ← g.str e.1
    let ty ← g.showWith g.str limit e.2
    return name ++ " : " ++ ty) fun e he => by
      have he' : e ∈ bs := hperm.mem_iff.mp he
      obtain ⟨n, -, hn⟩ := exists_name (h.names e he')
      obtain ⟨s, hs⟩ := exists_showValue limit (h.values e he')
      rw [showValue] at hs
      rw [str_of_text? hn, hs]
      exact ⟨_, rfl⟩
  rw [showBindings, showBindingsWith, hes, ok_bind, hparts]
  exact ⟨_, rfl⟩

theorem exists_showEnv (limit : Option Int) {e : Ref} (h : g.Loose e)
    (hk : (g.get e).kind = .env) : ∃ s, g.showEnv limit e = .ok s := by
  obtain ⟨bs, hbs⟩ := Cell.shape_of_kind hk
  rw [showEnv, showEnvWith, hbs]
  exact exists_showBindings limit (h.bindings hbs)

theorem exists_showSequent (limit : Option Int) {c : Ref} {j : Judgement}
    (hc : g.judgement? c = some j) (h : g.Apt j) : ∃ s, g.showSequent limit c = .ok s := by
  unfold judgement? at hc
  split at hc
  case h_2 => cases hc
  case h_1 e t a hget =>
    obtain rfl := Option.some.inj hc
    obtain ⟨s₁, h₁⟩ := exists_showEnv limit h.env h.kind
    obtain ⟨s₂, h₂⟩ := exists_showValue limit h.term
    obtain ⟨s₃, h₃⟩ := exists_showValue limit h.ty
    rw [showEnv] at h₁
    rw [showValue] at h₂ h₃
    rw [showSequent, showSequentWith, hget]
    simp only [h₁, h₂, h₃, ok_bind]
    exact ⟨_, rfl⟩

/-- Pieces whose parts can be compared have a text. -/
theorem showPieces_eq_finish (limit : Option Int) {ps : List Piece}
    (h : ∀ s, .part s ∈ ps → g.Loose s) : g.showPieces limit ps =
      finish ((ps.flatMap (g.pieceLeaves g.str)).foldlM (Output.put limit) .empty) := by
  rw [showPieces, emitPieces_eq_foldlM fun s hs o => emit_eq_foldlM (h s hs).writable o]

theorem exists_showPieces (limit : Option Int) {ps : List Piece}
    (h : ∀ s, .part s ∈ ps → g.Loose s) : ∃ s, g.showPieces limit ps = .ok s := by
  rw [showPieces_eq_finish limit h]
  exact exists_finish

end Graph

end NaturalDeduction

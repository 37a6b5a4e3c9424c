import NaturalDeduction.Proofs.Value
import Mathlib.Data.Multiset.DershowitzManna

/-!
# Sameness as an equivalence

Types, terms, environments and sequents that are built from the constructors, with texts as names, are the
same exactly if they are one tree, whatever they share.

* `Graph.Built`              the values built from the constructors;
* `Graph.compareAll`         a comparison with a work list: it takes up pairs of values, and leaves out those
                             that it has taken up before, although it has not yet seen them through;
* `Graph.Pending`            what such a comparison has taken up and not finished is still on its list;
* `agree_of_pending_nil`     so that nothing is left open when the list is empty;
* `same_decides_equality`    sameness, equality and the work list agree with equality of trees.
-/

namespace NaturalDeduction

namespace Graph
variable {g : Graph}

/-- A type, a term, an environment or a sequent that is built from the constructors, with texts as
names. -/
inductive Built (g : Graph) : Ref → Prop
  | value {ρ : Role} {r : Ref} (role : (g.get r).role? = some ρ)
      (names : ∀ x ∈ (g.get r).labels, ∃ s, g.get x = .text s)
      (parts : ∀ p ∈ (g.get r).parts, Built g p.2) : Built g r
  | sequent {r e t a : Ref} (cell : g.get r = .sequent e t a) (env : Built g e) (term : Built g t)
      (ty : Built g a) : Built g r

theorem Built.of_get {r : Ref} {c : Cell} {ρ : Role} (h : g.get r = c) (role : c.role? = some ρ)
    (names : ∀ x ∈ c.labels, ∃ s, g.get x = .text s) (parts : ∀ p ∈ c.parts, g.Built p.2) :
    g.Built r := by
  subst h
  exact .value role names parts

/-- A text, or built from the constructors. -/
def Ground (g : Graph) (r : Ref) : Prop := (∃ s, g.get r = .text s) ∨ g.Built r

theorem text?_of_get {r : Ref} {s : String} (h : g.get r = .text s) : g.text? r = some s := by
  rw [text?, h]
  rfl

theorem Built.shape {r : Ref} (h : g.Built r) :
    g.get r = .bottom ∨ (g.get r).kind = .env ∨ (g.get r).fields ≠ [] := by
  cases h with
  | value hr => exact Cell.shape_of_role hr
  | sequent hr => exact .inr (.inr (by simp [hr, Cell.fields]))

theorem transparent_ground (g : Graph) : g.Transparent g.Ground where
  shape r h := by
    obtain ⟨s, hs⟩ | h := h
    · exact .inl ⟨s, text?_of_get hs⟩
    · exact .inr h.shape
  field r h p hp := by
    obtain ⟨s, hs⟩ | h := h
    · rw [hs] at hp
      cases hp
    · cases h with
      | value hr hn hq =>
        by_cases he : (g.get r).kind = .env
        · obtain ⟨bs, hbs⟩ := Cell.shape_of_kind he
          rw [hbs] at hp
          cases hp
        · obtain hl | ⟨σ, hl⟩ := Cell.mem_labels_or_parts hr he hp
          · exact .inl (hn p.2 hl)
          · exact .inr (hq (σ, p.2) hl)
      | sequent hr he ht ha =>
        rw [hr] at hp
        simp only [Cell.fields, List.mem_cons, List.not_mem_nil, or_false] at hp
        obtain rfl | rfl | rfl := hp
        exacts [.inr he, .inr ht, .inr ha]
  binding r bs h hr e he := by
    obtain ⟨s, hs⟩ | h := h
    · cases hs.symm.trans hr
    · cases h with
      | value _ hn hq =>
        rw [hr] at hn hq
        obtain ⟨s, hs⟩ := hn e.1 (List.mem_map.mpr ⟨e, he, rfl⟩)
        exact ⟨⟨s, text?_of_get hs⟩, .inr (hq (.type, e.2) (List.mem_map.mpr ⟨e, he, rfl⟩))⟩
      | sequent hs => cases hs.symm.trans hr

/-! ## equality of values -/

theorem agree_iff {eq : Ref → Ref → Bool} {xs ys : List Ref} (h : xs.length = ys.length)
    (heq : ∀ p ∈ xs.zip ys, eq p.1 p.2 = true ↔ g.value p.1 = g.value p.2) :
    agree eq xs ys = true ↔ ∀ p ∈ xs.zip ys, g.value p.1 = g.value p.2 := by
  rw [agree, h, beq_self_eq_true, Bool.true_and, List.all_eq_true]
  exact forall₂_congr heq

/-- Entries with texts as keys agree if they make the same finite map. -/
theorem agreeEntries_iff {eq : Ref → Ref → Bool} {xs ys : List (Ref × Ref)} (hx : g.Keyed xs)
    (hy : g.Keyed ys)
    (hkey : ∀ e ∈ xs, ∀ x, g.text? e.1 = some x → ∀ r, eq e.1 r = (g.text? r == some x))
    (heq : ∀ e ∈ xs, ∀ f ∈ ys, eq e.2 f.2 = true ↔ g.value e.2 = g.value f.2) :
    agreeEntries eq xs ys = true ↔ g.context xs = g.context ys := by
  rw [context_eq_iff hx hy, agreeEntries, Bool.and_eq_true, beq_iff_eq, List.all_eq_true]
  refine and_congr_right fun _ => forall₂_congr fun e he => ?_
  obtain ⟨x, hx⟩ := hx.texts e he
  simp only [hkey e he x hx, hx, Option.some.injEq, forall_eq', context]
  cases hf : ys.find? fun f => g.text? f.1 == some x with
  | none => simp
  | some f =>
    simp only [Option.any_some, Option.map_some, Option.some.injEq]
    rw [heq e he f (List.mem_of_find?_eq_some hf)]
    exact eq_comm

end Graph

/-- The cell holds no plain datum and no elements, and bindings only if it is an environment. -/
structure Cell.Composite (c : Cell) : Prop where
  atom : c.atom? = none
  items : c.items = []
  entries : c.kind ≠ .env → c.entries = []

theorem Cell.composite_of_role {c : Cell} {ρ : Role} (h : c.role? = some ρ) : c.Composite := by
  cases c <;> simp only [role?, reduceCtorEq] at h <;>
    exact ⟨rfl, rfl, fun h => by simp_all [kind, Cell.entries]⟩

namespace Graph
variable {g : Graph}

theorem Built.composite {r : Ref} (h : g.Built r) : (g.get r).Composite := by
  cases h with
  | value hr => exact Cell.composite_of_role hr
  | sequent hr =>
    rw [hr]
    exact ⟨rfl, rfl, fun _ => rfl⟩

theorem Built.kind_ne_text {r : Ref} (h : g.Built r) : (g.get r).kind ≠ .text := by
  intro hk
  obtain ⟨x, hx⟩ := Cell.exists_text_of_kind (.inl hk)
  cases h.composite.atom.symm.trans (Cell.atom?_eq_text_iff.mpr hx)

theorem Built.equalWithin_succ {n : Nat} {a b : Ref} (ha : g.Built a) (hb : g.Built b) :
    g.equalWithin (n + 1) a b = true ↔ a = b ∨ (g.get a).kind = (g.get b).kind ∧
      agree (g.equalWithin n) ((g.get a).fields.map Prod.snd) ((g.get b).fields.map Prod.snd) = true ∧
      agreeEntries (g.equalWithin n) (g.get a).entries (g.get b).entries = true := by
  rw [equalWithin, ha.composite.atom, hb.composite.atom, ha.composite.items, hb.composite.items]
  simp [agree, and_assoc]

section
variable {n : Nat} {a b : Ref}

/-- One level of the comparison of environments. -/
theorem equalWithin_env {xs ys : List (Ref × Ref)} (hn : a < n + 1)
    (ih : ∀ {s t}, s < n → g.Ground s → g.Ground t → (g.equalWithin n s t = true ↔ g.value s = g.value t))
    (ha : g.Ground a) (hb : g.Ground b) (hga : g.get a = .env xs) (hgb : g.get b = .env ys) :
    agreeEntries (g.equalWithin n) xs ys = true ↔ g.value a = g.value b := by
  have hC := g.transparent_ground
  have hlt : ∀ e ∈ xs, e.1 < n ∧ e.2 < n := by
    have hbelow := g.get_below a
    rw [hga] at hbelow
    intro e he
    obtain ⟨h₁, h₂⟩ := Cell.lt_of_mem_entries hbelow he
    exact ⟨Nat.lt_of_lt_of_le h₁ (Nat.le_of_lt_succ hn), Nat.lt_of_lt_of_le h₂ (Nat.le_of_lt_succ hn)⟩
  rw [value_of_get hga, value_of_get hgb, valueOf, valueOf, Value.env.injEq]
  refine agreeEntries_iff (hC.keyed ha hga) (hC.keyed hb hgb) (fun e he x hx r => ?_)
    fun e he f hf => ih (hlt e he).2 (hC.binding a xs ha hga e he).2 (hC.binding b ys hb hgb f hf).2
  obtain ⟨m, rfl⟩ := Nat.exists_eq_succ_of_ne_zero (Nat.ne_zero_of_lt (hlt e he).1)
  exact equalWithin_text hx

theorem Built.equalWithin_succ_iff (hn : a < n + 1)
    (ih : ∀ {s t}, s < n → g.Ground s → g.Ground t → (g.equalWithin n s t = true ↔ g.value s = g.value t))
    (ha : g.Built a) (hb : g.Built b) :
    g.equalWithin (n + 1) a b = true ↔ g.value a = g.value b := by
  rw [ha.equalWithin_succ hb]
  by_cases hab : a = b
  · exact iff_of_true (.inl hab) (hab ▸ rfl)
  by_cases hk : (g.get a).kind = (g.get b).kind
  · simp only [hab, hk, true_and, false_or]
    by_cases he : (g.get a).kind = .env
    · obtain ⟨xs, hga⟩ := Cell.shape_of_kind he
      obtain ⟨ys, hgb⟩ := Cell.shape_of_kind (hk ▸ he)
      rw [hga, hgb, ← equalWithin_env hn ih (.inr ha) (.inr hb) hga hgb]
      exact and_iff_right rfl
    · rw [ha.composite.entries he, hb.composite.entries (hk ▸ he)]
      refine (and_iff_left rfl).trans ?_
      by_cases hf : (g.get a).fields = []
      · obtain hga | h | h := ha.shape
        · have hkb : (g.get b).kind = .bottom := by rw [← hk, hga]; rfl
          have hgb : g.get b = .bottom := Cell.shape_of_kind hkb
          rw [hga, hgb]
          exact iff_of_true rfl (by rw [value_of_get hga, value_of_get hgb])
        · exact absurd h he
        · exact absurd hf h
      · rw [← value_eq_iff_fields hf hk]
        refine agree_iff (length_fields_eq hk) fun p hp => ?_
        obtain ⟨q, hq, hqp⟩ := List.mem_map.mp (List.of_mem_zip hp).1
        have hlt : p.1 < n := hqp ▸ Nat.lt_of_lt_of_le (g.forall_fields_lt a q hq) (Nat.le_of_lt_succ hn)
        obtain ⟨hp₁, hp₂⟩ := g.transparent_ground.fields_zip (.inr ha) (.inr hb) hp
        exact ih hlt hp₁ hp₂
  · refine iff_of_false (fun h => ?_) fun h => hk (by rw [← kind_value, ← kind_value, h])
    exact h.elim hab fun h => hk h.1

end

/-- Equality looks deep enough into what is built from the constructors. -/
theorem equalWithin_iff {n : Nat} {a b : Ref} (hn : a < n) (ha : g.Ground a) (hb : g.Ground b) :
    g.equalWithin n a b = true ↔ g.value a = g.value b := by
  -- the parts of a value come before it, so that each step down leaves levels enough
  induction n generalizing a b with
  | zero => exact absurd hn (Nat.not_lt_zero a)
  | succ n ih =>
    obtain ⟨s, hs⟩ | ha := ha
    · rw [equalWithin_text (text?_of_get hs), beq_iff_eq, value_of_get hs]
      obtain ⟨s', hs'⟩ | hb := hb
      · rw [text?_of_get hs', value_of_get hs', Option.some.injEq, valueOf, valueOf, Value.name.injEq,
          Name.text.injEq]
        exact eq_comm
      · refine iff_of_false (fun h => ?_) fun h => ?_
        · cases hb.composite.atom.symm.trans (Cell.atom?_eq_text_iff.mpr h)
        · exact hb.kind_ne_text (by rw [← kind_value, ← h]; rfl)
    · obtain ⟨s, hs⟩ | hb := hb
      · refine iff_of_false (fun h => ?_) fun h => ?_
        · rw [equalWithin, ha.composite.atom, hs] at h
          obtain rfl : a = b := by simpa [Cell.atom?] using h
          exact ha.kind_ne_text (by rw [hs]; rfl)
        · exact ha.kind_ne_text (by rw [← kind_value, h, kind_value, hs]; rfl)
      · exact ha.equalWithin_succ_iff hn ih hb

theorem Built.lt_size {r : Ref} (h : g.Built r) : r < g.size := by
  by_contra hr
  have hnull : g.get r = .null := dif_neg hr
  have := h.composite.atom
  rw [hnull] at this
  cases this

theorem Built.equal_iff {a b : Ref} (ha : g.Built a) (hb : g.Built b) :
    g.equal a b = true ↔ g.value a = g.value b :=
  equalWithin_iff (Nat.lt_succ_of_lt ha.lt_size) (.inr ha) (.inr hb)

/-! ## a work list -/

/-- A work list comes down when a pair gives way to pairs of smaller values. -/
theorem stack_lt {a b : Ref} {rest : List (Ref × Ref)} (ps : List (Ref × Ref))
    (h : ∀ p ∈ ps, p.1 < a) :
    Multiset.IsDershowitzMannaLT (((ps ++ rest).map Prod.fst : List Ref) : Multiset Ref)
      ((((a, b) :: rest).map Prod.fst : List Ref) : Multiset Ref) := by
  refine ⟨(rest.map Prod.fst : List Ref), (ps.map Prod.fst : List Ref), {a}, by simp, ?_, ?_, ?_⟩
  · rw [List.map_append, ← Multiset.coe_add, add_comm]
  · rw [List.map_cons, ← Multiset.cons_coe, ← Multiset.singleton_add, add_comm]
  · intro y hy
    obtain ⟨p, hp, rfl⟩ := List.mem_map.mp (Multiset.mem_coe.mp hy)
    exact ⟨a, Multiset.mem_singleton_self a, h p hp⟩

/-- Compares the pairs of a work list, the last part of a value first. A pair that was taken up before
is not looked at again, whether or not its parts have been compared. -/
def compareAll (g : Graph) (stack : List (Ref × Ref)) (seen : PairSet) : Bool :=
  match stack with
  | [] => true
  | (a, b) :: rest =>
    if a == b then g.compareAll rest seen
    else if (g.get a).kind != (g.get b).kind then false
    else if seen.contains (a, b) then g.compareAll rest seen
    else
      match h : g.partPairs a b with
      | none => false
      | some ps =>
        have : ∀ p ∈ ps.reverse, p.1 < a := fun p hp => lt_of_mem_partPairs h (List.mem_reverse.mp hp)
        g.compareAll (ps.reverse ++ rest) (seen.insert (a, b))
termination_by (stack.map Prod.fst : Multiset Ref)
decreasing_by
  · exact stack_lt [] nofun
  · exact stack_lt [] nofun
  · exact stack_lt _ this

/-- Every pair that was taken up is of one kind, and its pairs of parts are identical, were taken up
themselves, or are still to be compared. -/
def Pending (g : Graph) (seen : PairSet) (stack : List (Ref × Ref)) : Prop :=
  ∀ p, seen.contains p = true → (g.Ground p.1 ∧ g.Ground p.2) ∧
    (g.get p.1).kind = (g.get p.2).kind ∧
    ∃ ps, g.partPairs p.1 p.2 = some ps ∧
      ∀ q ∈ ps, q.1 = q.2 ∨ seen.contains q = true ∨ q ∈ stack

/-- With nothing left to compare, all that was taken up is equal: each pair hangs on pairs of smaller
values only. -/
theorem agree_of_pending_nil {seen : PairSet} (h : g.Pending seen []) : g.Agree seen := by
  rintro ⟨a, b⟩ hp
  induction a using Nat.strongRecOn generalizing b with
  | ind a ih =>
    obtain ⟨⟨ha, hb⟩, hk, ps, hps, hq⟩ := h (a, b) hp
    have hspec := g.transparent_ground.partPairs_decides ha hb hk
    rw [hps] at hspec
    refine hspec.2.mp fun q hmem => ?_
    obtain hid | hseen | hnil := hq q hmem
    · rw [hid]
    · exact ih q.1 (lt_of_mem_partPairs hps hmem) q.2 hseen
    · cases hnil

section
variable {seen : PairSet} {p : Ref × Ref} {rest : List (Ref × Ref)}

/-- A pair of identical values, or one that was taken up before, may be left out. -/
theorem Pending.skip (h : g.Pending seen (p :: rest)) (hp : p.1 = p.2 ∨ seen.contains p = true) :
    g.Pending seen rest := by
  intro q hq
  obtain ⟨hg, hk, ps, hps, hparts⟩ := h q hq
  refine ⟨hg, hk, ps, hps, fun r hr => ?_⟩
  obtain hid | hseen | hr := hparts r hr
  · exact .inl hid
  · exact .inr (.inl hseen)
  · obtain rfl | hr := List.mem_cons.mp hr
    · exact hp.imp_right .inl
    · exact .inr (.inr hr)

/-- A pair is taken up, and its pairs of parts are put on the list. -/
theorem Pending.push {ps : List (Ref × Ref)} (h : g.Pending seen (p :: rest))
    (hg : g.Ground p.1 ∧ g.Ground p.2) (hk : (g.get p.1).kind = (g.get p.2).kind)
    (hps : g.partPairs p.1 p.2 = some ps) : g.Pending (seen.insert p) (ps.reverse ++ rest) := by
  intro q hq
  obtain rfl | hq := contains_insert.mp hq
  · refine ⟨hg, hk, ps, hps, fun r hr => .inr (.inr ?_)⟩
    exact List.mem_append_left _ (List.mem_reverse.mpr hr)
  · obtain ⟨hg, hk, qs, hqs, hparts⟩ := h q hq
    refine ⟨hg, hk, qs, hqs, fun r hr => ?_⟩
    obtain hid | hseen | hr := hparts r hr
    · exact .inl hid
    · exact .inr (.inl (contains_insert.mpr (.inr hseen)))
    · obtain rfl | hr := List.mem_cons.mp hr
      · exact .inr (.inl (contains_insert.mpr (.inl rfl)))
      · exact .inr (.inr (List.mem_append_right _ hr))

end

/-- A comparison that comes to the end of its list leaves nothing open. -/
theorem exists_pending_of_compareAll {stack : List (Ref × Ref)} {seen : PairSet}
    (hg : ∀ p ∈ stack, g.Ground p.1 ∧ g.Ground p.2) (hseen : g.Pending seen stack)
    (h : g.compareAll stack seen = true) :
    ∃ seen' : PairSet, g.Pending seen' [] ∧ (∀ p, seen.contains p = true → seen'.contains p = true) ∧
      ∀ p ∈ stack, p.1 = p.2 ∨ seen'.contains p = true := by
  fun_induction compareAll g stack seen with
  | case1 seen => exact ⟨seen, hseen, fun _ hp => hp, nofun⟩
  | case2 seen a b rest hab ih =>
    have hid : a = b := beq_iff_eq.mp hab
    obtain ⟨hgab, hgrest⟩ := List.forall_mem_cons.mp hg
    obtain ⟨seen', h₁, h₂, h₃⟩ := ih hgrest (hseen.skip (.inl hid)) h
    exact ⟨seen', h₁, h₂, List.forall_mem_cons.mpr ⟨.inl hid, h₃⟩⟩
  | case3 => cases h
  | case4 seen a b rest _ _ hmem ih =>
    obtain ⟨hgab, hgrest⟩ := List.forall_mem_cons.mp hg
    obtain ⟨seen', h₁, h₂, h₃⟩ := ih hgrest (hseen.skip (.inr hmem)) h
    exact ⟨seen', h₁, h₂, List.forall_mem_cons.mpr ⟨.inr (h₂ _ hmem), h₃⟩⟩
  | case5 => cases h
  | case6 seen a b rest _ hk _ ps hps _ ih =>
    have hk : (g.get a).kind = (g.get b).kind := by simpa using hk
    obtain ⟨hgab, hgrest⟩ := List.forall_mem_cons.mp hg
    have hspec := g.transparent_ground.partPairs_decides hgab.1 hgab.2 hk
    rw [hps] at hspec
    have hg' := List.forall_mem_append.mpr ⟨fun p hp => hspec.1 p (List.mem_reverse.mp hp), hgrest⟩
    obtain ⟨seen', h₁, h₂, h₃⟩ := ih hg' (hseen.push hgab hk hps) h
    refine ⟨seen', h₁, fun p hp => h₂ p (contains_insert.mpr (.inr hp)),
      List.forall_mem_cons.mpr ⟨.inr (h₂ _ (contains_insert.mpr (.inl rfl))), fun p hp => ?_⟩⟩
    exact h₃ p (List.mem_append_right _ hp)

/-- A comparison that stops early has come upon values that differ. -/
theorem exists_ne_of_compareAll {stack : List (Ref × Ref)} {seen : PairSet}
    (hg : ∀ p ∈ stack, g.Ground p.1 ∧ g.Ground p.2) (h : g.compareAll stack seen = false) :
    ∃ p ∈ stack, g.value p.1 ≠ g.value p.2 := by
  fun_induction compareAll g stack seen with
  | case1 => cases h
  | case2 seen a b rest _ ih =>
    obtain ⟨p, hp, hne⟩ := ih (List.forall_mem_cons.mp hg).2 h
    exact ⟨p, List.mem_cons_of_mem _ hp, hne⟩
  | case3 seen a b rest _ hk =>
    have hk : (g.get a).kind ≠ (g.get b).kind := by simpa using hk
    exact ⟨(a, b), List.mem_cons_self, fun e => hk (by rw [← kind_value, ← kind_value, e])⟩
  | case4 seen a b rest _ _ _ ih =>
    obtain ⟨p, hp, hne⟩ := ih (List.forall_mem_cons.mp hg).2 h
    exact ⟨p, List.mem_cons_of_mem _ hp, hne⟩
  | case5 seen a b rest _ hk _ hps =>
    have hk : (g.get a).kind = (g.get b).kind := by simpa using hk
    obtain ⟨hgab, -⟩ := List.forall_mem_cons.mp hg
    have hspec := g.transparent_ground.partPairs_decides hgab.1 hgab.2 hk
    rw [hps] at hspec
    exact ⟨(a, b), List.mem_cons_self, hspec⟩
  | case6 seen a b rest _ hk _ ps hps _ ih =>
    have hk : (g.get a).kind = (g.get b).kind := by simpa using hk
    obtain ⟨hgab, hgrest⟩ := List.forall_mem_cons.mp hg
    have hspec := g.transparent_ground.partPairs_decides hgab.1 hgab.2 hk
    rw [hps] at hspec
    have hg' := List.forall_mem_append.mpr ⟨fun p hp => hspec.1 p (List.mem_reverse.mp hp), hgrest⟩
    obtain ⟨p, hp, hne⟩ := ih hg' h
    obtain hp | hp := List.mem_append.mp hp
    · exact ⟨(a, b), List.mem_cons_self, fun e => hne (hspec.2.mpr e p (List.mem_reverse.mp hp))⟩
    · exact ⟨p, List.mem_cons_of_mem _ hp, hne⟩

theorem compareAll_iff {a b : Ref} (ha : g.Ground a) (hb : g.Ground b) :
    g.compareAll [(a, b)] {} = true ↔ g.value a = g.value b := by
  have hg : ∀ p ∈ [(a, b)], g.Ground p.1 ∧ g.Ground p.2 := by
    intro p hp
    obtain rfl := List.mem_singleton.mp hp
    exact ⟨ha, hb⟩
  constructor
  · intro h
    obtain ⟨seen, hseen, -, hp⟩ := exists_pending_of_compareAll hg (fun p hp => by simp at hp) h
    obtain hid | hmem := hp (a, b) List.mem_cons_self
    · exact congrArg g.value hid
    · exact agree_of_pending_nil hseen (a, b) hmem
  · intro e
    by_contra h
    obtain ⟨p, hp, hne⟩ := exists_ne_of_compareAll hg (Bool.eq_false_iff.mpr h)
    obtain rfl := List.mem_singleton.mp hp
    exact hne e

/-! ## the three agree -/

/-- **Sameness decides equality of what is built from the constructors**, whatever is shared: it holds of
two values if they are one tree, in which the order of an environment does not count. Equality by
constructors and the comparison with a work list give the same answer, so that sameness is an
equivalence. -/
theorem same_decides_equality (g : Graph) :
    (∀ a b, g.Built a → g.Built b → (g.same a b = true ↔ g.value a = g.value b) ∧
      g.equal a b = g.same a b ∧ g.compareAll [(a, b)] {} = g.same a b) ∧
    Equivalence fun a b : { r // g.Built r } => g.same a b = true := by
  have hsame : ∀ {a b}, g.Built a → g.Built b → (g.same a b = true ↔ g.value a = g.value b) :=
    fun ha hb => g.transparent_ground.same_iff (.inr ha) (.inr hb)
  refine ⟨fun a b ha hb => ⟨hsame ha hb, ?_, ?_⟩, ?_, ?_, ?_⟩
  · rw [Bool.eq_iff_iff, ha.equal_iff hb, hsame ha hb]
  · rw [Bool.eq_iff_iff, compareAll_iff (.inr ha) (.inr hb), hsame ha hb]
  · intro a
    exact (hsame a.2 a.2).mpr rfl
  · intro a b hab
    exact (hsame b.2 a.2).mpr ((hsame a.2 b.2).mp hab).symm
  · intro a b c hab hbc
    exact (hsame a.2 c.2).mpr (((hsame a.2 b.2).mp hab).trans ((hsame b.2 c.2).mp hbc))

/-- At 7 the sequent `{x : (P -> P), y : P} ⊢ x : (P -> P)` with one cell for all its `P`, at 14 the same
sequent with more cells and its bindings turned round, and at 15 one with another type. -/
def twoCopies : Graph where
  cells := #[.text "x", .text "y", .text "P", .base 2, .arrow 3 3, .env [(0, 4), (1, 3)], .var 0,
    .sequent 5 6 4, .text "P", .base 8, .base 2, .arrow 9 10, .text "y", .env [(12, 10), (0, 11)],
    .sequent 13 6 11, .sequent 13 6 10]
  below := by decide
  apart := by decide

theorem same_twoCopies : (twoCopies.Built 7 ∧ twoCopies.Built 14 ∧ twoCopies.Built 15) ∧
    (twoCopies.value 7 = twoCopies.value 14 ∧ twoCopies.same 7 14 = true ∧
      twoCopies.equal 7 14 = true ∧ twoCopies.compareAll [(7, 14)] {} = true) ∧
    (twoCopies.same 7 15 = false ∧ twoCopies.value 7 ≠ twoCopies.value 15) := by
  have base : ∀ {r n}, twoCopies.get r = .base n → twoCopies.get n = .text "P" →
      twoCopies.Built r := fun h hn => .of_get h rfl (List.forall_mem_singleton.mpr ⟨_, hn⟩) nofun
  have arrow : ∀ {r a b}, twoCopies.get r = .arrow a b → twoCopies.Built a → twoCopies.Built b →
      twoCopies.Built r := fun h ha hb =>
    .of_get h rfl nofun (List.forall_mem_cons.mpr ⟨ha, List.forall_mem_singleton.mpr hb⟩)
  have env : ∀ {r x a y b}, twoCopies.get r = .env [(x, a), (y, b)] →
      (∃ s, twoCopies.get x = .text s) → (∃ s, twoCopies.get y = .text s) → twoCopies.Built a →
      twoCopies.Built b → twoCopies.Built r := fun h hx hy ha hb =>
    .of_get h rfl (List.forall_mem_cons.mpr ⟨hx, List.forall_mem_singleton.mpr hy⟩)
      (List.forall_mem_cons.mpr ⟨ha, List.forall_mem_singleton.mpr hb⟩)
  have hx : twoCopies.Built 6 := .of_get rfl rfl (List.forall_mem_singleton.mpr ⟨"x", rfl⟩) nofun
  have hP : twoCopies.Built 3 := base rfl rfl
  have hP' : twoCopies.Built 10 := base rfl rfl
  have hA : twoCopies.Built 4 := arrow rfl hP hP
  have hA' : twoCopies.Built 11 := arrow rfl (base (r := 9) rfl rfl) hP'
  have hΓ : twoCopies.Built 5 := env rfl ⟨"x", rfl⟩ ⟨"y", rfl⟩ hA hP
  have hΓ' : twoCopies.Built 13 := env rfl ⟨"y", rfl⟩ ⟨"x", rfl⟩ hP' hA'
  have h₇ : twoCopies.Built 7 := .sequent rfl hΓ hx hA
  have h₁₄ : twoCopies.Built 14 := .sequent rfl hΓ' hx hA'
  have h₁₅ : twoCopies.Built 15 := .sequent rfl hΓ' hx hP'
  have hsame : twoCopies.same 7 14 = true := by decide +kernel
  have hdiff : twoCopies.same 7 15 = false := by decide +kernel
  obtain ⟨hiff, hequal, hall⟩ := (same_decides_equality twoCopies).1 7 14 h₇ h₁₄
  refine ⟨⟨h₇, h₁₄, h₁₅⟩, ⟨hiff.mp hsame, hsame, hequal.trans hsame, hall.trans hsame⟩, hdiff,
    fun e => ?_⟩
  rw [((same_decides_equality twoCopies).1 7 15 h₇ h₁₅).1.mpr e] at hdiff
  cases hdiff

end Graph

end NaturalDeduction

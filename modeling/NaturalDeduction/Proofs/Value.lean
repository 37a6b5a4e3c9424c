import Mathlib.Data.List.Perm.Subperm
import Mathlib.Logic.Function.Basic
import NaturalDeduction.Proofs.Memo

/-!
# Values without sharing

What a reference stands for, once it is forgotten which parts are shared and in which order an
environment was made: a tree in which environments are finite maps from words.

* `Value`, `Graph.value`    the trees, and the tree at a reference;
* `Graph.Loose`             well formed up to roles: every cell fits some role, and so do its parts;
* `same_iff`                on such values, sameness is equality of the trees;
* `sameBindings_iff`        the same for bindings that are not in the graph.
-/

namespace NaturalDeduction

/-- A name: a text, or a rule in the place of its tag. -/
inductive Name where
  | text (s : String)
  | rule (R : Rule)
  deriving DecidableEq, Repr

/-- The word under which an environment keeps a name. -/
def Name.word : Name → String
  | text s => s
  | rule R => R.tag

/-- A value as a tree. -/
inductive Value where
  | name (n : Name)
  | node (k : Kind) (parts : List Value)
  /-- a finite map -/
  | env (bound : String → Option Value)

namespace Value

@[match_pattern] abbrev bottom : Value := node .bottom []
@[match_pattern] abbrev base (n : Name) : Value := node .base [name n]
@[match_pattern] abbrev arrow (a b : Value) : Value := node .arrow [a, b]
@[match_pattern] abbrev product (a b : Value) : Value := node .product [a, b]
@[match_pattern] abbrev sum (a b : Value) : Value := node .sum [a, b]
@[match_pattern] abbrev var (n : Name) : Value := node .var [name n]
@[match_pattern] abbrev pair (t u : Value) : Value := node .pair [t, u]
@[match_pattern] abbrev inl (t : Value) : Value := node .inl [t]
@[match_pattern] abbrev inr (t : Value) : Value := node .inr [t]
@[match_pattern] abbrev case (t u v : Value) : Value := node .case [t, u, v]
@[match_pattern] abbrev fst (t : Value) : Value := node .fst [t]
@[match_pattern] abbrev snd (t : Value) : Value := node .snd [t]
@[match_pattern] abbrev lambda (n : Name) (a t : Value) : Value := node .lambda [name n, a, t]
@[match_pattern] abbrev abort (t : Value) : Value := node .abort [t]

/-- The kind of the cells that stand for the value. -/
def kind : Value → Kind
  | name (.text _) => .text
  | name (.rule _) => .rule
  | node k _ => k
  | env _ => .env

end Value

/-- How the cells of a kind look, for the kinds of types, terms and environments. -/
def Kind.Shape : Kind → Cell → Prop
  | bottom, c => c = .bottom
  | base, c => ∃ n, c = .base n
  | arrow, c => ∃ a b, c = .arrow a b
  | product, c => ∃ a b, c = .product a b
  | sum, c => ∃ a b, c = .sum a b
  | var, c => ∃ x, c = .var x
  | pair, c => ∃ t u, c = .pair t u
  | inl, c => ∃ t, c = .inl t
  | inr, c => ∃ t, c = .inr t
  | case, c => ∃ t u v, c = .case t u v
  | fst, c => ∃ t, c = .fst t
  | snd, c => ∃ t, c = .snd t
  | lambda, c => ∃ x a t, c = .lambda x a t
  | abort, c => ∃ t, c = .abort t
  | env, c => ∃ bs, c = .env bs
  | _, _ => True

theorem Cell.shape_of_kind {c : Cell} {k : Kind} (h : c.kind = k) : k.Shape c := by
  subst h
  cases c <;> simp [kind, Kind.Shape]

theorem Cell.kind_of_role?_env {c : Cell} (h : c.role? = some .env) : c.kind = .env := by
  cases c <;> simp_all [kind, role?]

namespace Graph
variable {g : Graph}

/-- The tree at a reference. -/
def value (g : Graph) (r : Ref) : Value :=
  match h : g.get r with
  | .text s => .name (.text s)
  | .rule R => .name (.rule R)
  | .env bs => .env fun x =>
    match hf : bs.find? fun e => g.text? e.1 == some x with
    | none => none
    | some e =>
      have : e.2 < r := (Cell.lt_of_mem_entries (h ▸ g.get_below r)
        (List.mem_of_find?_eq_some hf)).2
      some (g.value e.2)
  | c => .node c.kind (c.fields.attach.map fun (p : { p // p ∈ c.fields }) =>
      have : p.1.2 < r := g.forall_fields_lt r p.1 (h ▸ p.2)
      g.value p.1.2)
termination_by r

/-- The finite map that bindings make: the first one counts. -/
def context (g : Graph) (bs : List (Ref × Ref)) (x : String) : Option Value :=
  (bs.find? fun e => g.text? e.1 == some x).map fun e => g.value e.2

/-- The tree of a cell whose parts stand in the graph. -/
def valueOf (g : Graph) : Cell → Value
  | .text s => .name (.text s)
  | .rule R => .name (.rule R)
  | .env bs => .env (g.context bs)
  | c => .node c.kind (c.fields.map fun p => g.value p.2)

theorem value_eq_valueOf (r : Ref) : g.value r = g.valueOf (g.get r) := by
  rw [value]
  split
  case h_1 h => rw [h]; rfl
  case h_2 h => rw [h]; rfl
  case h_3 bs h =>
    have hv : g.valueOf (g.get r) = .env (g.context bs) := by rw [h]; rfl
    rw [hv]
    congr 1
    funext x
    unfold context
    split <;> simp [*]
  case h_4 =>
    show Value.node _ ((g.get r).fields.attach.map fun p => g.value p.1.2) = _
    rw [List.attach_map_val (f := fun p : Field × Ref => g.value p.2)]
    cases hc : g.get r <;> simp_all [valueOf]

theorem value_of_get {r : Ref} {c : Cell} (h : g.get r = c) : g.value r = g.valueOf c := by
  rw [value_eq_valueOf, h]

theorem kind_value (r : Ref) : (g.value r).kind = (g.get r).kind := by
  rw [value_eq_valueOf]
  cases g.get r <;> rfl

/-! ## names -/

theorem cell_of_text {r : Ref} {x : String} (h : g.text? r = some x) :
    g.get r = .text x ∨ ∃ R, g.get r = .rule R ∧ R.tag = x := by
  unfold text? Cell.text? at h
  split at h
  case h_1 s hs => exact .inl (Option.some.inj h ▸ hs)
  case h_2 R hR => exact .inr ⟨R, hR, Option.some.inj h⟩
  case h_3 => cases h

theorem exists_text {r : Ref} (h : g.isName r = true) : ∃ x, g.text? r = some x := by
  obtain ⟨x, hx, -⟩ := Option.any_eq_true _ _ |>.mp h
  exact ⟨x, hx⟩

theorem exists_name_of_text {r : Ref} {x : String} (h : g.text? r = some x) :
    ∃ n : Name, g.value r = .name n ∧ g.text? r = some n.word := by
  obtain hr | ⟨R, hr, -⟩ := cell_of_text h
  · exact ⟨.text x, value_of_get hr, h⟩
  · exact ⟨.rule R, value_of_get hr, by rw [text?, hr]; rfl⟩

theorem exists_name {r : Ref} (h : g.isName r = true) :
    ∃ n : Name, g.value r = .name n ∧ g.text? r = some n.word := by
  obtain ⟨x, hx⟩ := exists_text h
  exact exists_name_of_text hx

end Graph

theorem Cell.atom?_eq_text_iff {c : Cell} {x : String} :
    c.atom? = some (.text x) ↔ c.text? = some x := by
  cases c <;> simp [atom?, text?]

namespace Graph
variable {g : Graph}

/-- A text is equal to nothing but texts, and to these if they are one. -/
theorem equalWithin_text {n : Nat} {k r : Ref} {x : String} (hx : g.text? k = some x) :
    g.equalWithin (n + 1) k r = (g.text? r == some x) := by
  have hk : (g.get k).atom? = some (.text x) := Cell.atom?_eq_text_iff.mpr hx
  rw [equalWithin, hk, Bool.eq_iff_iff, beq_iff_eq, text?, ← Cell.atom?_eq_text_iff]
  by_cases h : k = r
  · subst h
    simp [hk]
  · cases hr : (g.get r).atom? with
    | none => simp [h]
    | some a =>
      simp only [beq_eq_false_iff_ne.mpr h, Bool.false_or, beq_iff_eq, Option.some.injEq]
      exact eq_comm

theorem equal_text {k r : Ref} {x : String} (hx : g.text? k = some x) :
    g.equal k r = (g.text? r == some x) := equalWithin_text hx

theorem hashable_of_isName {x : Ref} (h : g.isName x = true) : g.hashable x = true := by
  obtain ⟨s, hs⟩ := exists_text h
  rw [hashable]
  obtain hr | ⟨R, hr, -⟩ := cell_of_text hs
  · simp [hr, Cell.kind, Cell.refs, Cell.fields, Cell.items, Cell.entries]
  · simp [hr, Cell.kind, Cell.refs, Cell.fields, Cell.items, Cell.entries]

/-! ## values that are well formed up to roles -/

/-- A cell of some role with proper names whose parts are loosely well formed, in whatever role. -/
inductive Loose (g : Graph) : Ref → Prop
  | intro {ρ : Role} {r : Ref} (fits : g.fits ρ (g.get r) = true)
      (parts : ∀ p ∈ (g.get r).parts, Loose g p.2) : Loose g r

theorem WellFormed.loose {ρ : Role} {r : Ref} (h : g.WellFormed ρ r) : g.Loose r := by
  induction h with
  | intro hf _ ih =>
    exact .intro hf fun p hp => ih p (Role.mem_parts.mpr ⟨(fits_iff.mp hf).1, hp⟩)

theorem Loose.part {r : Ref} (h : g.Loose r) {p : Role × Ref} (hp : p ∈ (g.get r).parts) :
    g.Loose p.2 := by
  obtain ⟨-, hq⟩ := h
  exact hq p hp

theorem Loose.label {r x : Ref} (h : g.Loose r) (hx : x ∈ (g.get r).labels) :
    g.isName x = true := by
  obtain ⟨hf, -⟩ := h
  exact (fits_iff.mp hf).2 x hx

theorem Loose.parts_of_get {r : Ref} {c : Cell} (h : g.Loose r) (hr : g.get r = c) :
    ∀ p ∈ c.parts, g.Loose p.2 := hr ▸ fun _ => h.part

/-- Loosely well formed, and an environment where one is looked for. -/
def LooseIn (g : Graph) (ρ : Role) (r : Ref) : Prop :=
  g.Loose r ∧ (ρ = .env → (g.get r).kind = .env)

/-- A memo of loosely well-formed values can be trusted that far, whatever roles they occur in. -/
theorem trust_loose (g : Graph) :
    g.Trust (fun _ _ => True) g.LooseIn (fun m => ∀ r, m.knows r = true → g.Loose r) where
  part _ _ := trivial
  build hf hp := by
    have hr := (fits_iff.mp hf).1
    refine ⟨.intro hf fun p hp' => (hp p (Role.mem_parts.mpr ⟨hr, hp'⟩)).1, ?_⟩
    rintro rfl
    exact Cell.kind_of_role?_env hr
  known hm hk _ he := ⟨hm _ hk, he⟩
  grow hm _ hg r hr := (hg r hr).elim (hm r) fun ⟨_, _, h⟩ => h.1

/-- Bindings of different names to loosely well-formed values. -/
structure Bindings (g : Graph) (bs : List (Ref × Ref)) : Prop where
  names : ∀ e ∈ bs, g.isName e.1 = true
  once : (bs.filterMap fun e => g.text? e.1).Nodup
  values : ∀ e ∈ bs, g.Loose e.2

theorem Loose.bindings {r : Ref} {bs : List (Ref × Ref)} (h : g.Loose r)
    (hr : g.get r = .env bs) : g.Bindings bs := by
  obtain ⟨hf, hp⟩ := h
  rw [hr] at hf hp
  have hn := (fits_iff.mp hf).2
  have ho := g.nodup_words r
  rw [hr] at ho
  exact ⟨fun e he => hn e.1 (List.mem_map.mpr ⟨e, he, rfl⟩), ho,
    fun e he => hp (.type, e.2) (List.mem_map.mpr ⟨e, he, rfl⟩)⟩

/-- Texts bound to something, each once. -/
structure Keyed (g : Graph) (bs : List (Ref × Ref)) : Prop where
  texts : ∀ e ∈ bs, ∃ x, g.text? e.1 = some x
  once : (bs.filterMap fun e => g.text? e.1).Nodup

theorem Bindings.keyed {bs : List (Ref × Ref)} (h : g.Bindings bs) : g.Keyed bs :=
  ⟨fun e he => exists_text (h.names e he), h.once⟩

/-- A name, or loosely well formed. -/
def Comparable (g : Graph) (r : Ref) : Prop := g.isName r = true ∨ g.Loose r

end Graph

/-- In a cell of a role, an environment apart, every field is a name or a part. -/
theorem Cell.mem_labels_or_parts {c : Cell} {ρ : Role} (hc : c.role? = some ρ)
    (he : c.kind ≠ .env) {p : Field × Ref} (hp : p ∈ c.fields) :
    p.2 ∈ c.labels ∨ ∃ σ, (σ, p.2) ∈ c.parts := by
  cases c <;>
    simp only [role?, reduceCtorEq] at hc <;>
    simp only [fields, List.mem_cons, List.not_mem_nil, or_false] at hp <;>
    simp only [labels, parts, List.mem_cons, List.not_mem_nil, or_false, Prod.mk.injEq] <;>
    grind [kind]

/-- The number of fields of the cells of a kind. -/
def Kind.width : Kind → Nat
  | base | var | inl | inr | fst | snd | abort => 1
  | arrow | product | sum | pair => 2
  | case | lambda | sequent | derivation => 3
  | _ => 0

theorem Cell.length_fields (c : Cell) : c.fields.length = c.kind.width := by cases c <;> rfl

/-- A cell of a role is the type of falsity or an environment, or it has fields. -/
theorem Cell.shape_of_role {c : Cell} {ρ : Role} (h : c.role? = some ρ) :
    c = .bottom ∨ c.kind = .env ∨ c.fields ≠ [] := by
  cases c <;> simp_all [kind, role?, fields]

namespace Graph
variable {g : Graph}

theorem Loose.fields {r : Ref} (h : g.Loose r) (he : (g.get r).kind ≠ .env) {p : Field × Ref}
    (hp : p ∈ (g.get r).fields) : g.Comparable p.2 := by
  obtain ⟨hf, hq⟩ := h
  obtain ⟨hr, hn⟩ := fits_iff.mp hf
  rcases Cell.mem_labels_or_parts hr he hp with h | ⟨σ, h⟩
  · exact .inl (hn _ h)
  · exact .inr (hq _ h)

/-! ## bindings as finite maps -/

theorem mem_words {bs : List (Ref × Ref)} {x : String} :
    x ∈ bs.filterMap (fun e => g.text? e.1) ↔ ∃ e ∈ bs, g.text? e.1 = some x := by
  rw [List.mem_filterMap]

theorem context_eq_none {bs : List (Ref × Ref)} {x : String} :
    g.context bs x = none ↔ x ∉ bs.filterMap fun e => g.text? e.1 := by
  rw [mem_words]
  simp [context, List.find?_eq_none]

/-- A name is bound to the value beside it. -/
theorem context_of_mem {bs : List (Ref × Ref)} (ho : (bs.filterMap fun e => g.text? e.1).Nodup)
    {e : Ref × Ref} (he : e ∈ bs) {x : String} (hx : g.text? e.1 = some x) :
    g.context bs x = some (g.value e.2) := by
  induction bs with
  | nil => exact absurd he (by simp)
  | cons d bs ih =>
    unfold context
    rw [List.find?_cons]
    rcases List.mem_cons.mp he with rfl | he
    · simp [hx]
    · by_cases hd : g.text? d.1 = some x
      · -- the word would occur twice
        rw [List.filterMap_cons, hd] at ho
        exact absurd (mem_words.mpr ⟨e, he, hx⟩) (List.nodup_cons.mp ho).1
      · have ho' : (bs.filterMap fun e => g.text? e.1).Nodup := by
          rw [List.filterMap_cons] at ho
          split at ho
          · exact ho
          · exact (List.nodup_cons.mp ho).2
        have hd' : (g.text? d.1 == some x) = false := by simpa using hd
        rw [hd']
        exact ih ho' he

theorem length_words {bs : List (Ref × Ref)} (hn : ∀ e ∈ bs, ∃ x, g.text? e.1 = some x) :
    (bs.filterMap fun e => g.text? e.1).length = bs.length := by
  induction bs with
  | nil => rfl
  | cons e bs ih =>
    obtain ⟨⟨x, hx⟩, hbs⟩ := List.forall_mem_cons.mp hn
    rw [List.filterMap_cons, hx, List.length_cons, List.length_cons, ih hbs]

/-- Every binding of `xs` is one of `ys`. -/
def Sub (g : Graph) (xs ys : List (Ref × Ref)) : Prop :=
  ∀ e ∈ xs, ∀ x, g.text? e.1 = some x → g.context ys x = some (g.value e.2)

/-- Bindings make the same finite map if they are equally many and one lot is among the other. -/
theorem context_eq_iff {xs ys : List (Ref × Ref)} (hx : g.Keyed xs) (hy : g.Keyed ys) :
    g.context xs = g.context ys ↔ xs.length = ys.length ∧ g.Sub xs ys := by
  have hlen : ∀ {bs}, g.Keyed bs → _ := fun h => length_words h.texts
  constructor
  · intro h
    have hperm : (xs.filterMap fun e => g.text? e.1).Perm (ys.filterMap fun e => g.text? e.1) := by
      rw [List.perm_ext_iff_of_nodup hx.once hy.once]
      intro x
      rw [← not_iff_not, ← context_eq_none, ← context_eq_none, h]
    refine ⟨?_, fun e he x hex => ?_⟩
    · rw [← hlen hx, ← hlen hy, hperm.length_eq]
    · rw [← h, context_of_mem hx.once he hex]
  · rintro ⟨hl, hs⟩
    have hsub : (xs.filterMap fun e => g.text? e.1) ⊆ ys.filterMap fun e => g.text? e.1 := by
      intro x hxw
      obtain ⟨e, he, hex⟩ := mem_words.mp hxw
      by_contra hn
      rw [← context_eq_none, hs e he x hex] at hn
      exact absurd hn (by simp)
    have hperm := (hx.once.subperm hsub).perm_of_length_le
      (Nat.le_of_eq (by rw [hlen hx, hlen hy, hl]))
    funext x
    by_cases hxw : x ∈ xs.filterMap fun e => g.text? e.1
    · obtain ⟨e, he, hex⟩ := mem_words.mp hxw
      rw [context_of_mem hx.once he hex, hs e he x hex]
    · rw [context_eq_none.mpr hxw, context_eq_none.mpr fun h => hxw (hperm.mem_iff.mpr h)]

theorem find?_text {ys : List (Ref × Ref)} {k : Ref} {x : String} (hx : g.text? k = some x) :
    g.find? ys k = (ys.find? fun e => g.text? e.1 == some x).map Prod.snd := by
  simp only [find?, equal_text hx]

/-- Pairing the values of equal names: there is a pair for every binding, or else one of the names
is not bound. -/
theorem pairValues_spec {C : Ref → Prop} {xs ys : List (Ref × Ref)}
    (hx : ∀ e ∈ xs, (∃ x, g.text? e.1 = some x) ∧ C e.2) (hy : ∀ e ∈ ys, C e.2) :
    match g.pairValues ys xs with
    | some ps => (∀ p ∈ ps, C p.1 ∧ C p.2) ∧
        ((∀ p ∈ ps, g.value p.1 = g.value p.2) ↔ g.Sub xs ys)
    | none => ¬ g.Sub xs ys := by
  induction xs with
  | nil => exact ⟨by simp, by simp [Sub]⟩
  | cons e xs ih =>
    obtain ⟨⟨⟨w, hw⟩, hl⟩, hxs⟩ := List.forall_mem_cons.mp hx
    have ih := ih hxs
    have hsub : g.Sub (e :: xs) ys ↔ g.context ys w = some (g.value e.2) ∧ g.Sub xs ys := by
      unfold Sub
      rw [List.forall_mem_cons]
      refine and_congr_left fun _ => ⟨fun h => h _ hw, fun h x hx => ?_⟩
      rw [hw] at hx
      exact Option.some.inj hx ▸ h
    rw [pairValues, find?_text hw, hsub]
    unfold context
    cases hf : ys.find? fun e => g.text? e.1 == some w with
    | none => simp
    | some f =>
      simp only [Option.map_some, Option.some.injEq]
      cases hp : g.pairValues ys xs with
      | none =>
        rw [hp] at ih
        exact fun h => ih h.2
      | some ps =>
        rw [hp] at ih
        refine ⟨List.forall_mem_cons.mpr ⟨⟨hl, hy f (List.mem_of_find?_eq_some hf)⟩, ih.1⟩, ?_⟩
        rw [List.forall_mem_cons, ih.2, eq_comm (a := g.value e.2)]

/-! ## sameness -/

/-- The pairs stand for equal values. -/
def Agree (g : Graph) (known : PairSet) : Prop :=
  ∀ p, known.contains p = true → g.value p.1 = g.value p.2

/-- A comparison of `a` and `b` has come to the right end. -/
def Decides (g : Graph) (a b : Ref) : Option PairSet → Prop
  | some known => g.value a = g.value b ∧ g.Agree known
  | none => g.value a ≠ g.value b

theorem agree_empty (g : Graph) : g.Agree {} := fun _ hp => absurd hp (by simp)

theorem contains_insert {seen : PairSet} {p q : Ref × Ref} :
    (seen.insert p).contains q = true ↔ p = q ∨ seen.contains q = true := by
  rw [Std.TreeSet.contains_insert, Bool.or_eq_true, beq_iff_eq, Std.LawfulEqCmp.compare_eq_iff_eq]

theorem Agree.insert {known : PairSet} (h : g.Agree known) {a b : Ref}
    (hab : g.value a = g.value b) : g.Agree (known.insert (a, b)) := by
  intro p hp
  rcases contains_insert.mp hp with rfl | hp
  · exact hab
  · exact h p hp

/-- Comparing pairs one after the other, each of them rightly. -/
theorem foldWhile_decides {ps : List (Ref × Ref)} {f : (p : Ref × Ref) → p ∈ ps → PairSet → Option PairSet}
    (step : ∀ p hp known, g.Agree known → g.Decides p.1 p.2 (f p hp known)) {known : PairSet}
    (hk : g.Agree known) :
    match foldWhile ps f known with
    | some known => (∀ p ∈ ps, g.value p.1 = g.value p.2) ∧ g.Agree known
    | none => ∃ p ∈ ps, g.value p.1 ≠ g.value p.2 := by
  induction ps generalizing known with
  | nil => exact ⟨by simp, hk⟩
  | cons p ps ih =>
    have hp := step p List.mem_cons_self known hk
    rw [foldWhile]
    cases hf : f p List.mem_cons_self known with
    | none =>
      rw [hf] at hp
      exact ⟨p, List.mem_cons_self, hp⟩
    | some known' =>
      rw [hf] at hp
      have ih := ih (fun q hq => step q (List.mem_cons_of_mem p hq)) hp.2
      simp only
      split
      · rename_i h
        rw [h] at ih
        exact ⟨List.forall_mem_cons.mpr ⟨hp.1, ih.1⟩, ih.2⟩
      · rename_i h
        rw [h] at ih
        obtain ⟨q, hq, hne⟩ := ih
        exact ⟨q, List.mem_cons_of_mem _ hq, hne⟩

theorem map_eq_map_iff_zip {α β : Type} {f : α → β} {xs ys : List α} (h : xs.length = ys.length) :
    xs.map f = ys.map f ↔ ∀ p ∈ xs.zip ys, f p.1 = f p.2 := by
  induction xs generalizing ys with
  | nil => cases ys <;> simp_all
  | cons x xs ih =>
    cases ys with
    | nil => simp at h
    | cons y ys =>
      rw [List.zip_cons_cons, List.forall_mem_cons, List.map_cons, List.map_cons, List.cons.injEq,
        ih (by simpa using h)]

theorem kind_of_text {r : Ref} {x : String} (h : g.text? r = some x) :
    (g.get r).kind = .text ∨ (g.get r).kind = .rule := by
  obtain hr | ⟨R, hr, -⟩ := cell_of_text h
  · exact .inl (by rw [hr]; rfl)
  · exact .inr (by rw [hr]; rfl)

end Graph

theorem Cell.exists_text_of_kind {c : Cell} (h : c.kind = .text ∨ c.kind = .rule) :
    ∃ x, c.text? = some x := by
  cases c <;> simp_all [kind, text?]

namespace Graph
variable {g : Graph}

theorem Loose.role {r : Ref} (h : g.Loose r) : ∃ ρ, (g.get r).role? = some ρ := by
  obtain ⟨hf, -⟩ := h
  exact ⟨_, (fits_iff.mp hf).1⟩

/-- Texts of one kind are equal values if they are equal. -/
theorem text_eq_iff {a b : Ref} {x y : String} (ha : g.text? a = some x) (hb : g.text? b = some y)
    (hk : (g.get a).kind = (g.get b).kind) : g.equal a b = true ↔ g.value a = g.value b := by
  obtain ⟨n, hn, hx⟩ := exists_name_of_text ha
  obtain ⟨m, hm, hy⟩ := exists_name_of_text hb
  rw [equal_text hx, hn, hm, hy, beq_iff_eq, Option.some.injEq, Value.name.injEq]
  have hkind : (Value.name n).kind = (Value.name m).kind := by
    rw [← hn, ← hm, kind_value, kind_value, hk]
  constructor
  · intro h
    cases n <;> cases m
    case text.text => exact congrArg Name.text h.symm
    case rule.rule R S =>
      have h' : Rule.ofTag? S.tag = Rule.ofTag? R.tag := congrArg Rule.ofTag? h
      rw [Rule.ofTag?_tag, Rule.ofTag?_tag] at h'
      exact congrArg Name.rule (Option.some.inj h').symm
    all_goals exact absurd hkind (by simp [Value.kind])
  · rintro rfl
    rfl

theorem valueOf_node {c : Cell} (h : c.fields ≠ []) :
    g.valueOf c = .node c.kind (c.fields.map fun p => g.value p.2) := by
  cases c <;> simp_all [valueOf, Cell.fields]

theorem length_fields_eq {a b : Ref} (hk : (g.get a).kind = (g.get b).kind) :
    ((g.get a).fields.map Prod.snd).length = ((g.get b).fields.map Prod.snd).length := by
  rw [List.length_map, List.length_map, Cell.length_fields, Cell.length_fields, hk]

/-- Values of one kind with fields are equal if the fields are. -/
theorem value_eq_iff_fields {a b : Ref} (hf : (g.get a).fields ≠ [])
    (hk : (g.get a).kind = (g.get b).kind) :
    (∀ p ∈ ((g.get a).fields.map Prod.snd).zip ((g.get b).fields.map Prod.snd),
      g.value p.1 = g.value p.2) ↔ g.value a = g.value b := by
  have hlen := length_fields_eq hk
  have hf' : (g.get b).fields ≠ [] := by
    intro h
    rw [h, List.map_nil, List.length_nil, List.length_map, List.length_eq_zero_iff] at hlen
    exact hf hlen
  rw [← map_eq_map_iff_zip hlen, value_eq_valueOf a, value_eq_valueOf b, valueOf_node hf,
    valueOf_node hf', Value.node.injEq, List.map_map, List.map_map]
  exact ⟨fun h => ⟨hk, h⟩, fun h => h.2⟩

/-- A class of values that a comparison can see through: each is a text, the type of falsity, an
environment that binds texts, or has fields, and everything in it is of the class again. -/
structure Transparent (g : Graph) (C : Ref → Prop) : Prop where
  shape : ∀ r, C r → (∃ x, g.text? r = some x) ∨ g.get r = .bottom ∨ (g.get r).kind = .env ∨
    (g.get r).fields ≠ []
  field : ∀ r, C r → ∀ p ∈ (g.get r).fields, C p.2
  binding : ∀ r bs, C r → g.get r = .env bs → ∀ e ∈ bs, (∃ x, g.text? e.1 = some x) ∧ C e.2

theorem transparent_comparable (g : Graph) : g.Transparent g.Comparable where
  shape r h := by
    obtain h | h := h
    · exact .inl (exists_text h)
    · obtain ⟨ρ, hρ⟩ := h.role
      exact .inr (Cell.shape_of_role hρ)
  field r h p hp := by
    obtain h | h := h
    · obtain ⟨x, hx⟩ := exists_text h
      obtain hr | ⟨R, hr, -⟩ := cell_of_text hx <;> rw [hr] at hp <;> cases hp
    · refine h.fields (fun he => ?_) hp
      obtain ⟨bs, hbs⟩ := Cell.shape_of_kind he
      rw [hbs] at hp
      cases hp
  binding r bs h hr e he := by
    obtain h | h := h
    · obtain ⟨x, hx⟩ := exists_text h
      rw [text?, hr] at hx
      cases hx
    · have hbs := h.bindings hr
      exact ⟨hbs.keyed.texts e he, .inr (hbs.values e he)⟩

section
variable {C : Ref → Prop} (hC : g.Transparent C)
include hC

theorem Transparent.fields_zip {a b : Ref} (ha : C a) (hb : C b) {p : Ref × Ref}
    (hp : p ∈ ((g.get a).fields.map Prod.snd).zip ((g.get b).fields.map Prod.snd)) :
    C p.1 ∧ C p.2 := by
  obtain ⟨hp₁, hp₂⟩ := List.of_mem_zip hp
  obtain ⟨q₁, hq₁, h₁⟩ := List.mem_map.mp hp₁
  obtain ⟨q₂, hq₂, h₂⟩ := List.mem_map.mp hp₂
  exact ⟨h₁ ▸ hC.field a ha q₁ hq₁, h₂ ▸ hC.field b hb q₂ hq₂⟩

/-- Values without fields, environments apart, are texts or the type of falsity. -/
theorem Transparent.equal_iff_of_fields_nil {a b : Ref} (ha : C a)
    (hk : (g.get a).kind = (g.get b).kind) (he : (g.get a).kind ≠ .env)
    (hf : (g.get a).fields = []) : g.equal a b = true ↔ g.value a = g.value b := by
  obtain ⟨x, hx⟩ | hca | h | h := hC.shape a ha
  · obtain ⟨y, hy⟩ := Cell.exists_text_of_kind (hk ▸ kind_of_text hx)
    exact text_eq_iff hx hy hk
  · have hkb : (g.get b).kind = .bottom := by rw [← hk, hca]; rfl
    have hcb : g.get b = .bottom := Cell.shape_of_kind hkb
    rw [value_of_get hca, value_of_get hcb, equal, equalWithin, hca, hcb]
    simp [Cell.atom?, Cell.fields, Cell.items, Cell.entries, agree, agreeEntries]
  · exact absurd h he
  · exact absurd hf h

end

/-- What two values of one kind must agree on to be equal. -/
def PairsDecide (g : Graph) (C : Ref → Prop) (a b : Ref) : Option (List (Ref × Ref)) → Prop
  | some ps => (∀ p ∈ ps, C p.1 ∧ C p.2) ∧
      ((∀ p ∈ ps, g.value p.1 = g.value p.2) ↔ g.value a = g.value b)
  | none => g.value a ≠ g.value b

section
variable {C : Ref → Prop} (hC : g.Transparent C)
include hC

theorem Transparent.keyed {r : Ref} {bs : List (Ref × Ref)} (h : C r) (hr : g.get r = .env bs) :
    g.Keyed bs := by
  have ho := g.nodup_words r
  rw [hr] at ho
  exact ⟨fun e he => (hC.binding r bs h hr e he).1, ho⟩

theorem Transparent.pairEntries_decides {a b : Ref} {xs ys : List (Ref × Ref)} (ha : C a) (hb : C b)
    (hga : g.get a = .env xs) (hgb : g.get b = .env ys) :
    g.PairsDecide C a b (g.pairEntries xs ys) := by
  have hv : g.value a = g.value b ↔ xs.length = ys.length ∧ g.Sub xs ys := by
    rw [value_of_get hga, value_of_get hgb, ← context_eq_iff (hC.keyed ha hga) (hC.keyed hb hgb)]
    exact Value.env.injEq _ _ ▸ Iff.rfl
  have hspec := pairValues_spec (hC.binding a xs ha hga) fun e he => (hC.binding b ys hb hgb e he).2
  unfold pairEntries
  split
  case isTrue hl =>
    have hl' : xs.length = ys.length := by simpa using hl
    cases hp : g.pairValues ys xs with
    | none =>
      rw [hp] at hspec
      exact fun h => hspec (hv.mp h).2
    | some ps =>
      rw [hp] at hspec
      refine ⟨hspec.1, ?_⟩
      rw [hspec.2, hv]
      exact ⟨fun h => ⟨hl', h⟩, fun h => h.2⟩
  case isFalse hl => exact fun h => hl (by simpa using (hv.mp h).1)

theorem Transparent.partPairs_decides {a b : Ref} (ha : C a) (hb : C b)
    (hk : (g.get a).kind = (g.get b).kind) : g.PairsDecide C a b (g.partPairs a b) := by
  unfold partPairs
  split
  case h_1 xs ys hx hy => exact hC.pairEntries_decides ha hb hx hy
  case h_2 xs ys hx hy =>
    have h := hC.shape a ha
    simp [text?, hx, Cell.text?, Cell.kind, Cell.fields] at h
  case h_3 henv _ =>
    have hna : (g.get a).kind ≠ .env := by
      intro hka
      obtain ⟨xs, hx⟩ := Cell.shape_of_kind hka
      obtain ⟨ys, hy⟩ := Cell.shape_of_kind (hk ▸ hka)
      exact henv xs ys hx hy
    split
    case isTrue hf =>
      have heq := hC.equal_iff_of_fields_nil ha hk hna (by simpa using hf)
      split
      · rename_i h
        exact ⟨by simp, by simpa using heq.mp h⟩
      · rename_i h
        exact fun e => h (heq.mpr e)
    case isFalse hf =>
      have hf' : (g.get a).fields ≠ [] := by simpa using hf
      exact ⟨fun p hp => hC.fields_zip ha hb hp, value_eq_iff_fields hf' hk⟩

/-- A comparison of values that can be seen through comes to the right end. -/
theorem Transparent.sameFrom_decides {a : Ref} : ∀ {b : Ref} {known : PairSet}, C a → C b →
    g.Agree known → g.Decides a b (g.sameFrom a b known) := by
  induction a using Nat.strongRecOn with
  | ind a ih =>
    intro b known ha hb hknown
    rw [sameFrom]
    split
    case isTrue h =>
      rw [eq_of_beq h]
      exact ⟨rfl, hknown⟩
    case isFalse =>
      split
      case isTrue h =>
        have hk : (g.get a).kind ≠ (g.get b).kind := by simpa using h
        exact fun e => hk (by rw [← kind_value, ← kind_value, e])
      case isFalse h =>
        have hk : (g.get a).kind = (g.get b).kind := by simpa using h
        split
        case isTrue h => exact ⟨hknown (a, b) h, hknown⟩
        case isFalse =>
          have hspec := hC.partPairs_decides ha hb hk
          split
          case h_1 hp =>
            rw [hp] at hspec
            exact hspec
          case h_2 ps hp =>
            rw [hp] at hspec
            have hfold := foldWhile_decides (f := fun p _ known => g.sameFrom p.1 p.2 known)
              (fun p hm known hkn => ih p.1 (lt_of_mem_partPairs hp hm) (hspec.1 p hm).1
                (hspec.1 p hm).2 hkn) hknown
            split at hfold
            case h_1 known' hf =>
              rw [hf]
              have hab := hspec.2.mp hfold.1
              exact ⟨hab, hfold.2.insert hab⟩
            case h_2 hf =>
              rw [hf]
              obtain ⟨p, hm, hne⟩ := hfold
              exact fun e => hne (hspec.2.mpr e p hm)

/-- **Sameness is equality of values**, whatever is shared within or between them. -/
theorem Transparent.same_iff {a b : Ref} (ha : C a) (hb : C b) :
    g.same a b = true ↔ g.value a = g.value b := by
  have h := hC.sameFrom_decides ha hb g.agree_empty
  unfold same
  cases hs : g.sameFrom a b {} with
  | none =>
    rw [hs] at h
    exact ⟨fun e => absurd e (by simp), fun e => absurd e h⟩
  | some known =>
    rw [hs] at h
    exact ⟨fun _ => h.1, fun _ => rfl⟩

end

theorem same_iff {a b : Ref} (ha : g.Loose a) (hb : g.Loose b) :
    g.same a b = true ↔ g.value a = g.value b :=
  g.transparent_comparable.same_iff (.inr ha) (.inr hb)

theorem sameBindings_iff {xs ys : List (Ref × Ref)} (hx : g.Bindings xs) (hy : g.Bindings ys) :
    g.sameBindings xs ys = true ↔ g.context xs = g.context ys := by
  have hspec := pairValues_spec (fun e he => ⟨hx.keyed.texts e he, hx.values e he⟩) hy.values
  rw [context_eq_iff hx.keyed hy.keyed, sameBindings, pairEntries]
  by_cases hl : xs.length = ys.length
  · simp only [hl, beq_self_eq_true, if_true, true_and]
    cases hp : g.pairValues ys xs with
    | none =>
      rw [hp] at hspec
      exact ⟨fun h => absurd h (by simp), fun h => absurd h hspec⟩
    | some ps =>
      rw [hp] at hspec
      rw [← hspec.2, List.all_eq_true]
      exact forall₂_congr fun p hm => same_iff (hspec.1 p hm).1 (hspec.1 p hm).2
  · simp [hl]

/-- Binding a name in bindings changes the finite map at its word. -/
theorem context_put {k v : Ref} {x : String} (hx : g.text? k = some x) {bs : List (Ref × Ref)} :
    g.context (g.put k v bs) = Function.update (g.context bs) x (some (g.value v)) := by
  funext y
  induction bs with
  | nil =>
    by_cases hy : y = x
    · subst hy
      simp [put, context, hx]
    · simp [put, context, hx, Function.update_of_ne hy, Ne.symm hy]
  | cons e bs ih =>
    rw [put, equal_text hx]
    by_cases hex : g.text? e.1 = some x
    · by_cases hy : y = x
      · subst hy
        simp [context, hex]
      · simp [context, hex, Function.update_of_ne hy, Ne.symm hy]
    · by_cases hey : g.text? e.1 = some y
      · have hy : y ≠ x := fun h => hex (h ▸ hey)
        simp [context, hey, hy]
      · simp only [context, Function.update] at ih ⊢
        simpa [hex, hey] using ih

theorem mem_put {k v : Ref} {bs : List (Ref × Ref)} {e : Ref × Ref} (h : e ∈ g.put k v bs) :
    e ∈ bs ∨ e.2 = v ∧ (e.1 = k ∨ ∃ d ∈ bs, e.1 = d.1) := by
  induction bs with
  | nil =>
    obtain rfl : e = (k, v) := by simpa [Graph.put] using h
    exact .inr ⟨rfl, .inl rfl⟩
  | cons d bs ih =>
    rw [Graph.put] at h
    split at h
    · rcases List.mem_cons.mp h with rfl | h
      · exact .inr ⟨rfl, .inr ⟨d, List.mem_cons_self, rfl⟩⟩
      · exact .inl (List.mem_cons_of_mem _ h)
    · rcases List.mem_cons.mp h with rfl | h
      · exact .inl List.mem_cons_self
      · rcases ih h with h | ⟨hv, rfl | ⟨d', hd', hk⟩⟩
        · exact .inl (List.mem_cons_of_mem _ h)
        · exact .inr ⟨hv, .inl rfl⟩
        · exact .inr ⟨hv, .inr ⟨d', List.mem_cons_of_mem _ hd', hk⟩⟩

theorem nodup_words_put {k v : Ref} {x : String} (hx : g.text? k = some x)
    {bs : List (Ref × Ref)} (hn : ∀ e ∈ bs, g.isName e.1 = true)
    (ho : (bs.filterMap fun e => g.text? e.1).Nodup) :
    ((g.put k v bs).filterMap fun e => g.text? e.1).Nodup := by
  induction bs with
  | nil => simp [Graph.put, hx]
  | cons e bs ih =>
    obtain ⟨he, hbs⟩ := List.forall_mem_cons.mp hn
    obtain ⟨m, -, hm⟩ := exists_name he
    rw [List.filterMap_cons, hm] at ho
    obtain ⟨hnew, ho'⟩ := List.nodup_cons.mp ho
    rw [Graph.put, equal_text hx]
    split
    · rw [List.filterMap_cons, hm]
      exact ho
    · rename_i hne
      rw [List.filterMap_cons, hm]
      refine List.nodup_cons.mpr ⟨fun hmem => ?_, ih hbs ho'⟩
      -- the word of `e` is not among the old ones, and it is not the new one
      obtain ⟨d, hd, hdm⟩ := mem_words.mp hmem
      rcases mem_put hd with hd | ⟨-, hd | ⟨d', hd', hd⟩⟩
      · exact hnew (mem_words.mpr ⟨d, hd, hdm⟩)
      · rw [hd, hx] at hdm
        exact hne (by rw [hm, hdm]; exact beq_self_eq_true _)
      · exact hnew (mem_words.mpr ⟨d', hd', hd ▸ hdm⟩)

theorem Bindings.put {bs : List (Ref × Ref)} (h : g.Bindings bs) {k v : Ref}
    (hk : g.isName k = true) (hv : g.Loose v) : g.Bindings (g.put k v bs) := by
  obtain ⟨n, -, hx⟩ := exists_name hk
  refine ⟨fun e he => ?_, nodup_words_put hx h.names h.once, fun e he => ?_⟩
  · rcases mem_put he with he | ⟨-, he | ⟨d, hd, he⟩⟩
    · exact h.names e he
    · exact he ▸ hk
    · exact he ▸ h.names d hd
  · rcases mem_put he with he | ⟨he, -⟩
    · exact h.values e he
    · exact he ▸ hv

end Graph

end NaturalDeduction

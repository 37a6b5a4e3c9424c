import NaturalDeduction.Proofs.RuleTable

/-!
# Well-formed trees

The grammar as a property of the trees that values stand for, so that it can be carried over from
one graph to another.

* `Value.IsType`, `Value.IsTerm`   the trees of types and of terms;
* `wellFormed_iff`         a type or a term is well formed exactly if its tree is one;
* `Listing`, `Graph.listing`   the bindings of an environment as trees, in their order;
* `wellFormed_env_iff`     an environment is well formed exactly if every binding in its listing is;
* `Listing.perm_of_context_eq`   a finite map determines the listing up to order.
-/

namespace NaturalDeduction

namespace Value

/-- The trees of well-formed types. -/
inductive IsType : Value → Prop
  | bottom : IsType .bottom
  | base {n : Name} (h : n.word ≠ "") : IsType (.base n)
  | arrow {A B : Value} (hA : IsType A) (hB : IsType B) : IsType (.arrow A B)
  | product {A B : Value} (hA : IsType A) (hB : IsType B) : IsType (.product A B)
  | sum {A B : Value} (hA : IsType A) (hB : IsType B) : IsType (.sum A B)

/-- The trees of well-formed terms. -/
inductive IsTerm : Value → Prop
  | var {n : Name} (h : n.word ≠ "") : IsTerm (.var n)
  | pair {t u : Value} (ht : IsTerm t) (hu : IsTerm u) : IsTerm (.pair t u)
  | inl {t : Value} (ht : IsTerm t) : IsTerm (.inl t)
  | inr {t : Value} (ht : IsTerm t) : IsTerm (.inr t)
  | case {t u v : Value} (ht : IsTerm t) (hu : IsTerm u) (hv : IsTerm v) : IsTerm (.case t u v)
  | fst {t : Value} (ht : IsTerm t) : IsTerm (.fst t)
  | snd {t : Value} (ht : IsTerm t) : IsTerm (.snd t)
  | lambda {n : Name} {A t : Value} (h : n.word ≠ "") (hA : A.IsType) (ht : IsTerm t) :
      IsTerm (.lambda n A t)
  | abort {t : Value} (ht : IsTerm t) : IsTerm (.abort t)

end Value

/-- The trees that a value in a role stands for. -/
def Role.Holds : Role → Value → Prop
  | type, v => v.IsType
  | term, v => v.IsTerm
  | env, v => v.kind = .env

namespace Graph
variable {g : Graph}

/-! ## types and terms -/

theorem kind_of_value {r : Ref} {k : Kind} {vs : List Value} (h : g.value r = .node k vs) :
    (g.get r).kind = k := by
  rw [← kind_value, h]
  rfl

theorem text?_of_value {r : Ref} {n : Name} (h : g.value r = .name n) :
    g.text? r = some n.word := by
  rw [value_eq_valueOf] at h
  rw [text?]
  cases hc : g.get r <;> simp [hc, valueOf] at h <;> subst h <;> rfl

theorem isName_iff {r : Ref} :
    g.isName r = true ↔ ∃ n : Name, g.value r = .name n ∧ n.word ≠ "" := by
  constructor
  · intro h
    obtain ⟨n, hn, hx⟩ := exists_name h
    refine ⟨n, hn, ?_⟩
    simpa [isName, hx] using h
  · rintro ⟨n, hn, hw⟩
    simpa [isName, text?_of_value hn] using hw

theorem WellFormed.of_get {ρ : Role} {r : Ref} {c : Cell} (h : g.get r = c) (hc : g.fits ρ c = true)
    (hp : ∀ p ∈ ρ.parts c, g.WellFormed p.1 p.2) : g.WellFormed ρ r := by
  subst h
  exact .intro hc hp

/-- What a well-formed value stands for. -/
theorem WellFormed.holds {ρ : Role} {r : Ref} (h : g.WellFormed ρ r) : ρ.Holds (g.value r) := by
  induction h with
  | @intro ρ r hf hwf ih =>
    obtain ⟨hrole, hlabels⟩ := fits_iff.mp hf
    have names : ∀ n ∈ (g.get r).labels, ∃ m : Name, g.value n = .name m ∧ m.word ≠ "" :=
      fun n hn => isName_iff.mp (hlabels n hn)
    have parts : ∀ p ∈ (g.get r).parts, p.1.Holds (g.value p.2) :=
      fun p hp => ih p (Role.mem_parts.mpr ⟨hrole, hp⟩)
    rw [value_eq_valueOf]
    cases hc : g.get r <;>
      simp only [hc, Cell.role?, Cell.labels, Cell.parts, Option.some.injEq, reduceCtorEq,
        List.mem_cons, List.not_mem_nil, or_false, forall_eq_or_imp, forall_eq]
        at hrole names parts <;>
      subst hrole
    case bottom => exact .bottom
    case base n =>
      obtain ⟨m, hm, hw⟩ := names
      show Value.IsType (.node .base [g.value n])
      rw [hm]
      exact .base hw
    case arrow => exact .arrow parts.1 parts.2
    case product => exact .product parts.1 parts.2
    case sum => exact .sum parts.1 parts.2
    case var n =>
      obtain ⟨m, hm, hw⟩ := names
      show Value.IsTerm (.node .var [g.value n])
      rw [hm]
      exact .var hw
    case pair => exact .pair parts.1 parts.2
    case inl => exact .inl parts
    case inr => exact .inr parts
    case case => exact .case parts.1 parts.2.1 parts.2.2
    case fst => exact .fst parts
    case snd => exact .snd parts
    case lambda n a t =>
      obtain ⟨m, hm, hw⟩ := names
      show Value.IsTerm (.node .lambda [g.value n, g.value a, g.value t])
      rw [hm]
      exact .lambda hw parts.1 parts.2
    case abort => exact .abort parts
    case env => rfl

/-- A value whose tree is a type is a well-formed type, however its cells are shared. -/
theorem wellFormed_of_isType {A : Value} (hA : A.IsType) {r : Ref} (h : g.value r = A) :
    g.WellFormed .type r := by
  induction hA generalizing r with
  | bottom =>
    have hg : g.get r = .bottom := Cell.shape_of_kind (kind_of_value h)
    exact .of_get hg rfl (by simp [Role.parts, Cell.parts, Cell.role?])
  | @base m hw =>
    obtain ⟨n, hg⟩ := Cell.shape_of_kind (kind_of_value h)
    rw [value_of_get hg] at h
    have hn : g.value n = .name m := by simpa [valueOf, Cell.kind, Cell.fields] using h
    have hname := isName_iff.mpr ⟨_, hn, hw⟩
    exact .of_get hg (by simp [Graph.fits, Cell.role?, Cell.labels, hname])
      (by simp [Role.parts, Cell.parts, Cell.role?])
  | arrow _ _ ihA ihB | product _ _ ihA ihB | sum _ _ ihA ihB =>
    obtain ⟨a, b, hg⟩ := Cell.shape_of_kind (kind_of_value h)
    rw [value_of_get hg] at h
    obtain ⟨ha, hb⟩ : g.value a = _ ∧ g.value b = _ := by
      simpa [valueOf, Cell.kind, Cell.fields] using h
    have ha := ihA ha
    have hb := ihB hb
    exact .of_get hg rfl (by simp [Role.parts, Cell.parts, Cell.role?, ha, hb])

theorem wellFormed_of_isTerm {v : Value} (hv : v.IsTerm) {r : Ref} (h : g.value r = v) :
    g.WellFormed .term r := by
  induction hv generalizing r with
  | @var m hw =>
    obtain ⟨n, hg⟩ := Cell.shape_of_kind (kind_of_value h)
    rw [value_of_get hg] at h
    have hn : g.value n = .name m := by simpa [valueOf, Cell.kind, Cell.fields] using h
    have hname := isName_iff.mpr ⟨_, hn, hw⟩
    exact .of_get hg (by simp [Graph.fits, Cell.role?, Cell.labels, hname])
      (by simp [Role.parts, Cell.parts, Cell.role?])
  | pair _ _ iht ihu =>
    obtain ⟨a, b, hg⟩ := Cell.shape_of_kind (kind_of_value h)
    rw [value_of_get hg] at h
    obtain ⟨ha, hb⟩ : g.value a = _ ∧ g.value b = _ := by
      simpa [valueOf, Cell.kind, Cell.fields] using h
    have ha := iht ha
    have hb := ihu hb
    exact .of_get hg rfl (by simp [Role.parts, Cell.parts, Cell.role?, ha, hb])
  | case _ _ _ iht ihu ihv =>
    obtain ⟨a, b, c, hg⟩ := Cell.shape_of_kind (kind_of_value h)
    rw [value_of_get hg] at h
    obtain ⟨ha, hb, hc⟩ : g.value a = _ ∧ g.value b = _ ∧ g.value c = _ := by
      simpa [valueOf, Cell.kind, Cell.fields] using h
    have ha := iht ha
    have hb := ihu hb
    have hc := ihv hc
    exact .of_get hg rfl (by simp [Role.parts, Cell.parts, Cell.role?, ha, hb, hc])
  | lambda hw hA _ iht =>
    obtain ⟨n, a, b, hg⟩ := Cell.shape_of_kind (kind_of_value h)
    rw [value_of_get hg] at h
    obtain ⟨hn, ha, hb⟩ : g.value n = _ ∧ g.value a = _ ∧ g.value b = _ := by
      simpa [valueOf, Cell.kind, Cell.fields] using h
    have hname := isName_iff.mpr ⟨_, hn, hw⟩
    have ha := wellFormed_of_isType hA ha
    have hb := iht hb
    exact .of_get hg (by simp [Graph.fits, Cell.role?, Cell.labels, hname])
      (by simp [Role.parts, Cell.parts, Cell.role?, ha, hb])
  | @inl t _ iht | @inr t _ iht | @fst t _ iht | @snd t _ iht | @abort t _ iht =>
    obtain ⟨a, hg⟩ := Cell.shape_of_kind (kind_of_value h)
    rw [value_of_get hg] at h
    have ha : g.value a = t := by simpa [valueOf, Cell.kind, Cell.fields] using h
    have ha := iht ha
    exact .of_get hg rfl (by simp [Role.parts, Cell.parts, Cell.role?, ha])

theorem wellFormed_iff {ρ : Role} (hρ : ρ ≠ .env) {r : Ref} :
    g.WellFormed ρ r ↔ ρ.Holds (g.value r) := by
  refine ⟨fun h => h.holds, fun h => ?_⟩
  cases ρ with
  | type => exact wellFormed_of_isType h rfl
  | term => exact wellFormed_of_isTerm h rfl
  | env => exact absurd rfl hρ

end Graph

/-! ## environments -/

/-- The bindings of an environment in their order: the text of the name, if it is one, and the
tree that it is bound to. -/
abbrev Listing := List (Option String × Value)

namespace Listing

/-- The words that are bound. -/
def words (l : Listing) : List String := l.filterMap Prod.fst

/-- The finite map that a listing makes: the first binding counts. -/
def context (l : Listing) (x : String) : Option Value :=
  (l.find? fun e => e.1 == some x).map Prod.snd

/-- Every name is a name and is bound to a type. -/
def WellFormed (l : Listing) : Prop :=
  ∀ e ∈ l, (∃ x, e.1 = some x ∧ x ≠ "") ∧ e.2.IsType

theorem context_eq_some {l : Listing} (h : l.words.Nodup) {x : String} {A : Value} :
    l.context x = some A ↔ (some x, A) ∈ l := by
  induction l with
  | nil => simp [context]
  | cons e l ih =>
    obtain ⟨k, B⟩ := e
    by_cases hk : k = some x
    · subst hk
      obtain ⟨hnew, -⟩ : x ∉ words l ∧ _ := List.nodup_cons.mp h
      have hold : (some x, A) ∉ l := fun hm => hnew (List.mem_filterMap.mpr ⟨_, hm, rfl⟩)
      simp [context, hold, eq_comm]
    · have ho : words l |>.Nodup := by
        unfold words at h
        rw [List.filterMap_cons] at h
        split at h
        · exact h
        · exact (List.nodup_cons.mp h).2
      have ih := ih ho
      unfold context at ih ⊢
      rw [List.find?_cons_of_neg (by simpa using hk), ih, List.mem_cons, Prod.mk.injEq]
      exact ⟨.inr, fun h => h.resolve_left fun h => hk h.1.symm⟩

theorem context_eq_none {l : Listing} {x : String} : l.context x = none ↔ x ∉ l.words := by
  simp only [context, words, Option.map_eq_none_iff, List.find?_eq_none, List.mem_filterMap,
    beq_iff_eq, not_exists, not_and]

theorem context_of_perm {l l' : Listing} (hp : l.Perm l') (h : l.words.Nodup) :
    l.context = l'.context := by
  have h' : l'.words.Nodup := (hp.filterMap _).nodup_iff.mp h
  funext x
  refine Option.ext fun A => ?_
  rw [context_eq_some h, context_eq_some h', hp.mem_iff]

theorem nodup_of_words {l : Listing} (h : l.words.Nodup) (hw : l.WellFormed) : l.Nodup := by
  induction l with
  | nil => exact List.nodup_nil
  | cons e l ih =>
    obtain ⟨⟨⟨x, hx, -⟩, -⟩, hl⟩ := List.forall_mem_cons.mp hw
    unfold words at h
    rw [List.filterMap_cons, hx] at h
    obtain ⟨hnew, h⟩ := List.nodup_cons.mp h
    exact List.nodup_cons.mpr ⟨fun hm => hnew (List.mem_filterMap.mpr ⟨e, hm, hx⟩), ih h hl⟩

/-- Well-formed listings that make the same finite map differ in their order only. -/
theorem perm_of_context_eq {l l' : Listing} (h : l.words.Nodup) (h' : l'.words.Nodup)
    (hw : l.WellFormed) (hw' : l'.WellFormed) (hc : l.context = l'.context) : l.Perm l' := by
  have bound : ∀ {l l' : Listing}, l.words.Nodup → l'.words.Nodup → l.WellFormed →
      l.context = l'.context → ∀ e ∈ l, e ∈ l' := by
    rintro l l' h h' hw hc ⟨k, A⟩ he
    obtain ⟨⟨x, rfl, -⟩, -⟩ := hw _ he
    rwa [← context_eq_some h', ← hc, context_eq_some h]
  refine (List.perm_ext_iff_of_nodup (nodup_of_words h hw) (nodup_of_words h' hw')).mpr fun e => ?_
  exact ⟨bound h h' hw hc e, bound h' h hw' hc.symm e⟩

theorem wellFormed_of_perm {l l' : Listing} (hp : l.Perm l') (h : l.WellFormed) : l'.WellFormed :=
  fun e he => h e (hp.mem_iff.mpr he)

end Listing

namespace Graph
variable {g : Graph}

/-- Bindings as trees. -/
def listing (g : Graph) (bs : List (Ref × Ref)) : Listing :=
  bs.map fun e => (g.text? e.1, g.value e.2)

theorem context_eq_listing (bs : List (Ref × Ref)) : g.context bs = (g.listing bs).context := by
  funext x
  rw [context, Listing.context, listing, List.find?_map, Option.map_map]
  rfl

theorem words_listing (bs : List (Ref × Ref)) :
    (g.listing bs).words = bs.filterMap fun e => g.text? e.1 := by
  rw [Listing.words, listing, List.filterMap_map]
  rfl

theorem nodup_words_listing (e : Ref) : (g.listing (g.bindingsOf e)).words.Nodup := by
  rw [words_listing]
  exact g.nodup_words e

theorem wellFormed_listing_iff {bs : List (Ref × Ref)} :
    (g.listing bs).WellFormed ↔ ∀ e ∈ bs, g.isName e.1 = true ∧ g.WellFormed .type e.2 := by
  unfold Listing.WellFormed listing
  rw [List.forall_mem_map]
  refine forall₂_congr fun e _ => and_congr ?_ ?_
  · cases h : g.text? e.1 <;> simp [isName, h]
  · exact (wellFormed_iff (ρ := .type) (by decide)).symm

theorem wellFormed_env_iff {e : Ref} :
    g.WellFormed .env e ↔ (g.get e).kind = .env ∧ (g.listing (g.bindingsOf e)).WellFormed := by
  rw [wellFormed_listing_iff]
  constructor
  · intro h
    have hk : (g.get e).kind = .env := Cell.kind_of_role?_env (fits_iff.mp h.fits).1
    obtain ⟨bs, hbs⟩ := Cell.shape_of_kind hk
    refine ⟨hk, fun b hb => ⟨(h.loose.bindings hbs).names b ?_, ?_⟩⟩
    · simpa [bindingsOf, hbs, Cell.entries] using hb
    · refine h.part (p := (.type, b.2)) (Role.mem_parts.mpr ⟨by rw [hbs]; rfl, ?_⟩)
      rw [hbs]
      exact List.mem_map.mpr ⟨b, by simpa [bindingsOf, hbs, Cell.entries] using hb, rfl⟩
  · rintro ⟨hk, h⟩
    obtain ⟨bs, hbs⟩ := Cell.shape_of_kind hk
    rw [bindingsOf, hbs] at h
    refine .of_get hbs (fits_iff.mpr ⟨rfl, fun n hn => ?_⟩) fun p hp => ?_
    · obtain ⟨b, hb, rfl⟩ := List.mem_map.mp hn
      exact (h b hb).1
    · obtain ⟨b, hb, rfl⟩ := List.mem_map.mp (Role.mem_parts.mp hp).2
      exact (h b hb).2

end Graph

end NaturalDeduction

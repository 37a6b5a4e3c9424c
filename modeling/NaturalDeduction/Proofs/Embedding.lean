import NaturalDeduction.Graph.Embed
import NaturalDeduction.Proofs.PlainRules
import NaturalDeduction.Proofs.Trees
import NaturalDeduction.Proofs.Typing

/-!
# What is added to a graph

A derivation is added to a graph cell by cell; what the cells stand for is the derivation.

* `Graph.PartOf`     the cells of one graph stand in another, at the same places;
* `Graph.Builds f v`   the step `f` adds a value with the tree `v` to any graph;
* `builds_addTy`, `builds_addTerm`   adding types and terms;
* `Graph.IsSequent`, `Graph.IsDerivation`   what is at a reference, as it is written;
* `addSequent_spec`, `addDerivation_spec`   adding sequents and derivations;
* `IsSequent.spec`   a sequent without empty names is well formed and stands for what it says;
* `IsDerivation.fits_iff`   the nodes are in the rule table exactly if the derivation is correct;
* `IsDerivation.shallow_iff`   they are as deep as the derivation is high.
-/

namespace NaturalDeduction

theorem forall₂_imp_of_mem {α β : Type} {R S : α → β → Prop} {l : List α} {l' : List β}
    (h : List.Forall₂ R l l') (hs : ∀ b ∈ l', ∀ a, R a b → S a b) : List.Forall₂ S l l' := by
  induction h with
  | nil => exact .nil
  | @cons a b l l' hab _ ih =>
    refine .cons (hs b List.mem_cons_self a hab) (ih fun c hc => hs c (List.mem_cons_of_mem b hc))

theorem Ty.Named.isType {A : Ty} (hA : A.Named) : A.value.IsType := by
  induction A with
  | bottom => exact .bottom
  | base x => exact .base hA
  | arrow A B ihA ihB => exact .arrow (ihA hA.1) (ihB hA.2)
  | product A B ihA ihB => exact .product (ihA hA.1) (ihB hA.2)
  | sum A B ihA ihB => exact .sum (ihA hA.1) (ihB hA.2)

theorem Term.Named.isTerm {t : Term} (ht : t.Named) : t.value.IsTerm := by
  induction t with
  | var x => exact .var ht
  | pair t u iht ihu => exact .pair (iht ht.1) (ihu ht.2)
  | inl t iht => exact .inl (iht ht)
  | inr t iht => exact .inr (iht ht)
  | case t u v iht ihu ihv => exact .case (iht ht.1) (ihu ht.2.1) (ihv ht.2.2)
  | fst t iht => exact .fst (iht ht)
  | snd t iht => exact .snd (iht ht)
  | lambda x A t iht => exact .lambda ht.1 (Ty.Named.isType ht.2.1) (iht ht.2.2)
  | abort t iht => exact .abort (iht ht)

namespace Graph
variable {g g' : Graph}

/-- The cells of a graph stand in another one, at the same places. -/
structure PartOf (g g' : Graph) : Prop where
  size_le : g.size ≤ g'.size
  get_eq : ∀ r < g.size, g'.get r = g.get r

theorem PartOf.refl (g : Graph) : g.PartOf g := ⟨Nat.le_refl _, fun _ _ => rfl⟩

theorem PartOf.trans {g₁ g₂ g₃ : Graph} (h : g₁.PartOf g₂) (h' : g₂.PartOf g₃) : g₁.PartOf g₃ := by
  refine ⟨Nat.le_trans h.size_le h'.size_le, fun r hr => ?_⟩
  rw [h'.get_eq r (Nat.lt_of_lt_of_le hr h.size_le), h.get_eq r hr]

theorem lt_size_of_get {r : Ref} {c : Cell} (h : g.get r = c) (hc : c ≠ .null) : r < g.size :=
  (Array.getElem?_eq_some_iff.mp (getElem?_of_get h hc)).1

theorem PartOf.get (h : g.PartOf g') {r : Ref} {c : Cell} (hr : g.get r = c) (hc : c ≠ .null) :
    g'.get r = c := by
  rw [h.get_eq r (lt_size_of_get hr hc), hr]

/-! ## trees -/

theorem context_congr {bs : List (Ref × Ref)}
    (h : ∀ e ∈ bs, g'.text? e.1 = g.text? e.1 ∧ g'.value e.2 = g.value e.2) :
    g'.context bs = g.context bs := by
  funext x
  unfold context
  induction bs with
  | nil => rfl
  | cons e bs ih =>
    obtain ⟨ht, hv⟩ := h e List.mem_cons_self
    rw [List.find?_cons, List.find?_cons, ht]
    split
    · rw [Option.map_some, Option.map_some, hv]
    · exact ih fun e' he' => h e' (List.mem_cons_of_mem e he')

theorem valueOf_congr {c : Cell} (hf : ∀ p ∈ c.fields, g'.value p.2 = g.value p.2)
    (he : ∀ e ∈ c.entries, g'.text? e.1 = g.text? e.1 ∧ g'.value e.2 = g.value e.2) :
    g'.valueOf c = g.valueOf c := by
  cases c with
  | text | rule => rfl
  | env bs => exact congrArg Value.env (context_congr he)
  | _ => exact congrArg (Value.node _) (List.map_congr_left hf)

/-- What a cell stands for does not change when others are added. -/
theorem PartOf.value (h : g.PartOf g') {r : Ref} (hr : r < g.size) : g'.value r = g.value r := by
  induction r using Nat.strongRecOn with
  | ind r ih =>
    have hlt : ∀ s < r, g'.value s = g.value s := fun s hs => ih s hs (Nat.lt_trans hs hr)
    have htext : ∀ s < r, g'.text? s = g.text? s := by
      intro s hs
      rw [text?, text?, h.get_eq s (Nat.lt_trans hs hr)]
    rw [value_eq_valueOf, value_eq_valueOf, h.get_eq r hr]
    refine valueOf_congr (fun p hp => hlt p.2 (g.forall_fields_lt r p hp)) fun e he => ?_
    obtain ⟨h₁, h₂⟩ := Cell.lt_of_mem_entries (g.get_below r) he
    exact ⟨htext e.1 h₁, hlt e.2 h₂⟩

/-! ## single cells -/

theorem get_of_lt {r : Ref} (hr : r < g.cells.size) : g.get r = g.cells[r] := dif_pos hr

theorem add_spec {c : Cell} (h : g.Admits c) :
    g.PartOf (g.add c).1 ∧ (g.add c).2 < (g.add c).1.size ∧ (g.add c).1.get (g.add c).2 = c := by
  have hsize : (g.push c h).cells.size = g.cells.size + 1 := Array.size_push _
  rw [add, dif_pos h]
  refine ⟨⟨?_, fun r hr => ?_⟩, ?_, ?_⟩
  · show g.cells.size ≤ (g.push c h).cells.size
    omega
  · have hr : r < g.cells.size := hr
    have hr' : r < (g.push c h).cells.size := by omega
    rw [get_of_lt hr, get_of_lt hr']
    exact Array.getElem_push_lt hr
  · show g.cells.size < (g.push c h).cells.size
    omega
  · have hn : g.cells.size < (g.push c h).cells.size := by omega
    show (g.push c h).get g.cells.size = c
    rw [get_of_lt hn]
    exact Array.getElem_push_eq

theorem admits_of_refs {c : Cell} (he : c.entries = []) (hc : ∀ s ∈ c.refs, s < g.size) :
    g.Admits c := by
  refine ⟨.inr hc, ?_⟩
  rw [Cell.words, he]
  exact List.nodup_nil

/-- A cell over cells that are there stands for what it would stand for among them. -/
theorem add_node {c : Cell} (he : c.entries = []) (hc : ∀ s ∈ c.refs, s < g.size) :
    g.PartOf (g.add c).1 ∧ (g.add c).2 < (g.add c).1.size ∧
      (g.add c).1.value (g.add c).2 = g.valueOf c := by
  obtain ⟨hp, hlt, hg⟩ := add_spec (admits_of_refs he hc)
  refine ⟨hp, hlt, ?_⟩
  rw [value_of_get hg]
  refine valueOf_congr (fun p hpf => hp.value (hc p.2 ?_)) (by simp [he])
  simp only [Cell.refs, List.mem_append, List.mem_map]
  exact .inl (.inl ⟨p, hpf, rfl⟩)

/-- The step adds a value with the tree `v` to any graph. -/
def Builds (f : Graph → Graph × Ref) (v : Value) : Prop :=
  ∀ g : Graph, g.PartOf (f g).1 ∧ (f g).2 < (f g).1.size ∧ (f g).1.value (f g).2 = v

theorem builds_leaf {c : Cell} (he : c.entries = []) (hc : c.refs = []) {v : Value}
    (hv : ∀ g : Graph, g.valueOf c = v) : Builds (fun g => g.add c) v := by
  intro g
  obtain ⟨hp, hlt, hval⟩ := add_node (g := g) he (by simp [hc])
  exact ⟨hp, hlt, hval.trans (hv g)⟩

theorem builds_text (x : String) : Builds (fun g => g.add (.text x)) (.name (.text x)) :=
  builds_leaf rfl rfl fun _ => rfl

section
variable {f₁ f₂ f₃ : Graph → Graph × Ref} {v₁ v₂ v₃ : Value} {k : Kind}

theorem Builds.one (h₁ : Builds f₁ v₁) {mk : Ref → Cell}
    (hmk : ∀ a, (mk a).entries = [] ∧ (mk a).refs = [a] ∧
      ∀ g : Graph, g.valueOf (mk a) = .node k [g.value a]) :
    Builds (fun g => (f₁ g).1.add (mk (f₁ g).2)) (.node k [v₁]) := by
  intro g
  obtain ⟨hp₁, hlt₁, hv₁⟩ := h₁ g
  obtain ⟨hentries, hrefs, hvalue⟩ := hmk (f₁ g).2
  obtain ⟨hp, hlt, hv⟩ := add_node (g := (f₁ g).1) hentries (by simp [hrefs, hlt₁])
  refine ⟨hp₁.trans hp, hlt, ?_⟩
  rw [hv, hvalue, hv₁]

theorem Builds.two (h₁ : Builds f₁ v₁) (h₂ : Builds f₂ v₂) {mk : Ref → Ref → Cell}
    (hmk : ∀ a b, (mk a b).entries = [] ∧ (mk a b).refs = [a, b] ∧
      ∀ g : Graph, g.valueOf (mk a b) = .node k [g.value a, g.value b]) :
    Builds (fun g => (f₂ (f₁ g).1).1.add (mk (f₁ g).2 (f₂ (f₁ g).1).2)) (.node k [v₁, v₂]) := by
  intro g
  obtain ⟨hp₁, hlt₁, hv₁⟩ := h₁ g
  obtain ⟨hp₂, hlt₂, hv₂⟩ := h₂ (f₁ g).1
  obtain ⟨hentries, hrefs, hvalue⟩ := hmk (f₁ g).2 (f₂ (f₁ g).1).2
  have hlt₁' := Nat.lt_of_lt_of_le hlt₁ hp₂.size_le
  obtain ⟨hp, hlt, hv⟩ := add_node (g := (f₂ (f₁ g).1).1) hentries (by simp [hrefs, hlt₁', hlt₂])
  refine ⟨hp₁.trans (hp₂.trans hp), hlt, ?_⟩
  rw [hv, hvalue, hp₂.value hlt₁, hv₁, hv₂]

theorem Builds.three (h₁ : Builds f₁ v₁) (h₂ : Builds f₂ v₂) (h₃ : Builds f₃ v₃)
    {mk : Ref → Ref → Ref → Cell}
    (hmk : ∀ a b c, (mk a b c).entries = [] ∧ (mk a b c).refs = [a, b, c] ∧
      ∀ g : Graph, g.valueOf (mk a b c) = .node k [g.value a, g.value b, g.value c]) :
    Builds (fun g => (f₃ (f₂ (f₁ g).1).1).1.add
      (mk (f₁ g).2 (f₂ (f₁ g).1).2 (f₃ (f₂ (f₁ g).1).1).2)) (.node k [v₁, v₂, v₃]) := by
  intro g
  obtain ⟨hp₁, hlt₁, hv₁⟩ := h₁ g
  obtain ⟨hp₂, hlt₂, hv₂⟩ := h₂ (f₁ g).1
  obtain ⟨hp₃, hlt₃, hv₃⟩ := h₃ (f₂ (f₁ g).1).1
  obtain ⟨hentries, hrefs, hvalue⟩ := hmk (f₁ g).2 (f₂ (f₁ g).1).2 (f₃ (f₂ (f₁ g).1).1).2
  have hlt₁' := Nat.lt_of_lt_of_le hlt₁ (hp₂.trans hp₃).size_le
  have hlt₂' := Nat.lt_of_lt_of_le hlt₂ hp₃.size_le
  obtain ⟨hp, hlt, hv⟩ := add_node (g := (f₃ (f₂ (f₁ g).1).1).1) hentries
    (by simp [hrefs, hlt₁', hlt₂', hlt₃])
  refine ⟨hp₁.trans (hp₂.trans (hp₃.trans hp)), hlt, ?_⟩
  rw [hv, hvalue, (hp₂.trans hp₃).value hlt₁, hp₃.value hlt₂, hv₁, hv₂, hv₃]

end

/-! ## types and terms -/

theorem builds_addTy (A : Ty) : Builds (addTy A) A.value := by
  induction A with
  | bottom => exact builds_leaf rfl rfl fun _ => rfl
  | base x => exact (builds_text x).one fun _ => ⟨rfl, rfl, fun _ => rfl⟩
  | arrow A B ihA ihB | product A B ihA ihB | sum A B ihA ihB =>
    exact ihA.two ihB fun _ _ => ⟨rfl, rfl, fun _ => rfl⟩

theorem builds_addTerm (t : Term) : Builds (addTerm t) t.value := by
  induction t with
  | var x => exact (builds_text x).one fun _ => ⟨rfl, rfl, fun _ => rfl⟩
  | pair t u iht ihu => exact iht.two ihu fun _ _ => ⟨rfl, rfl, fun _ => rfl⟩
  | case t u v iht ihu ihv => exact iht.three ihu ihv fun _ _ _ => ⟨rfl, rfl, fun _ => rfl⟩
  | lambda x A t iht =>
    exact (builds_text x).three (builds_addTy A) iht fun _ _ _ => ⟨rfl, rfl, fun _ => rfl⟩
  | inl t iht | inr t iht | fst t iht | snd t iht | abort t iht =>
    exact iht.one fun _ => ⟨rfl, rfl, fun _ => rfl⟩

/-! ## contexts and sequents -/

/-- The entry is this name with this type. -/
def IsBinding (g : Graph) (e : Ref × Ref) (b : String × Ty) : Prop :=
  g.get e.1 = .text b.1 ∧ e.2 < g.size ∧ g.value e.2 = b.2.value

/-- The value at a reference is an environment with the bindings of this context. -/
def IsContext (g : Graph) (e : Ref) (Γ : Context) : Prop :=
  ∃ bs, g.get e = .env bs ∧ List.Forall₂ g.IsBinding bs Γ.bindings

/-- The value at a reference is this sequent. -/
def IsSequent (g : Graph) (c : Ref) (q : Sequent) : Prop :=
  ∃ e t a, g.get c = .sequent e t a ∧ g.IsContext e q.ctx ∧ g.value t = q.term.value ∧
    g.value a = q.ty.value

section
variable (h : g.PartOf g')
include h

theorem PartOf.isBinding {e : Ref × Ref} {b : String × Ty} (hb : g.IsBinding e b) :
    g'.IsBinding e b := by
  obtain ⟨hname, hlt, hty⟩ := hb
  refine ⟨h.get hname nofun, Nat.lt_of_lt_of_le hlt h.size_le, ?_⟩
  rw [h.value hlt, hty]

theorem PartOf.isContext {e : Ref} {Γ : Context} (he : g.IsContext e Γ) : g'.IsContext e Γ := by
  obtain ⟨bs, hget, hbs⟩ := he
  exact ⟨bs, h.get hget nofun, hbs.imp fun _ _ => h.isBinding⟩

theorem PartOf.isSequent {c : Ref} {q : Sequent} (hc : g.IsSequent c q) : g'.IsSequent c q := by
  obtain ⟨e, t, a, hget, he, ht, ha⟩ := hc
  have hlt := lt_size_of_get hget nofun
  have hfields := g.forall_fields_lt c
  simp only [hget, Cell.fields, List.forall_mem_cons] at hfields
  refine ⟨e, t, a, h.get hget nofun, h.isContext he, ?_, ?_⟩
  · rw [h.value (Nat.lt_trans hfields.2.1 hlt), ht]
  · rw [h.value (Nat.lt_trans hfields.2.2.1 hlt), ha]

end

theorem words_of_bindings {es : List (Ref × Ref)} {bs : List (String × Ty)}
    (h : List.Forall₂ g.IsBinding es bs) :
    es.filterMap (fun e => g.text? e.1) = bs.map Prod.fst := by
  induction h with
  | nil => rfl
  | @cons e b es bs hb _ ih =>
    have ht : g.text? e.1 = some b.1 := by
      rw [text?, hb.1]
      rfl
    rw [List.filterMap_cons, ht, ih]
    rfl

theorem addBindings_spec (bs : List (String × Ty)) (g : Graph) :
    g.PartOf (addBindings bs g).1 ∧
      List.Forall₂ (addBindings bs g).1.IsBinding (addBindings bs g).2 bs := by
  induction bs generalizing g with
  | nil => exact ⟨.refl g, .nil⟩
  | cons b bs ih =>
    obtain ⟨x, A⟩ := b
    obtain ⟨hp₁, -, hget⟩ := add_spec (admits_of_refs (g := g) (c := .text x) rfl nofun)
    obtain ⟨hp₂, hlt, hv⟩ := builds_addTy A (g.add (.text x)).1
    obtain ⟨hp₃, hbs⟩ := ih (addTy A (g.add (.text x)).1).1
    refine ⟨hp₁.trans (hp₂.trans hp₃), .cons (hp₃.isBinding ⟨hp₂.get hget nofun, hlt, hv⟩) hbs⟩

theorem addContext_spec (Γ : Context) (g : Graph) :
    g.PartOf (addContext Γ g).1 ∧ (addContext Γ g).1.IsContext (addContext Γ g).2 Γ := by
  obtain ⟨hp, hbs⟩ := addBindings_spec Γ.bindings g
  have hadmits : (addBindings Γ.bindings g).1.Admits (.env (addBindings Γ.bindings g).2) := by
    refine ⟨.inr fun s hs => ?_, ?_⟩
    · obtain ⟨e, he, hs⟩ := List.mem_flatMap.mp hs
      obtain ⟨b, -, hb⟩ := exists_mem_of_forall₂ hbs e he
      rcases List.mem_pair.mp hs with rfl | rfl
      · exact lt_size_of_get hb.1 nofun
      · exact hb.2.1
    · simp only [Cell.words, Cell.entries, ← text?_eq_textAt]
      rw [words_of_bindings hbs]
      exact Γ.nodup
  obtain ⟨hp', -, hget⟩ := add_spec hadmits
  exact ⟨hp.trans hp', _, hget, hbs.imp fun _ _ => hp'.isBinding⟩

theorem addSequent_spec (q : Sequent) (g : Graph) :
    g.PartOf (addSequent q g).1 ∧ (addSequent q g).1.IsSequent (addSequent q g).2 q := by
  obtain ⟨hp₁, he⟩ := addContext_spec q.ctx g
  obtain ⟨hp₂, hlt₂, ht⟩ := builds_addTerm q.term (addContext q.ctx g).1
  obtain ⟨hp₃, hlt₃, ha⟩ := builds_addTy q.ty (addTerm q.term (addContext q.ctx g).1).1
  have hlt₁ : (addContext q.ctx g).2 < (addContext q.ctx g).1.size := by
    obtain ⟨bs, hget, -⟩ := he
    exact lt_size_of_get hget nofun
  have hlt₁' := Nat.lt_of_lt_of_le hlt₁ (hp₂.trans hp₃).size_le
  have hlt₂' := Nat.lt_of_lt_of_le hlt₂ hp₃.size_le
  obtain ⟨hp, -, hget⟩ := add_spec (admits_of_refs
    (g := (addTy q.ty (addTerm q.term (addContext q.ctx g).1).1).1)
    (c := .sequent (addContext q.ctx g).2 (addTerm q.term (addContext q.ctx g).1).2
      (addTy q.ty (addTerm q.term (addContext q.ctx g).1).1).2) rfl
    (by simp [Cell.refs, Cell.fields, Cell.items, Cell.entries, hlt₁', hlt₂', hlt₃]))
  refine ⟨hp₁.trans (hp₂.trans (hp₃.trans hp)), _, _, _, hget, ?_, ?_, ?_⟩
  · exact (hp₂.trans (hp₃.trans hp)).isContext he
  · exact ((hp₃.trans hp).value hlt₂).trans ht
  · exact (hp.value hlt₃).trans ha

/-! ## derivations -/

/-- The value at a reference is this derivation, with its premises in a tuple. -/
inductive IsDerivation (g : Graph) : Ref → Derivation → Prop
  | node {r tag c p : Ref} {R : Rule} {q : Sequent} {ps : List Ref} {ds : List Derivation}
      (h : g.get r = .derivation tag c p) (hR : g.get tag = .rule R) (hc : g.IsSequent c q)
      (hp : g.get p = .tuple ps) (hps : List.Forall₂ (IsDerivation g) ps ds) :
      IsDerivation g r (.node R q ds)

theorem IsDerivation.lt_size {r : Ref} {d : Derivation} (h : g.IsDerivation r d) : r < g.size := by
  cases h with
  | node hget => exact lt_size_of_get hget nofun

theorem PartOf.isDerivation (h : g.PartOf g') (d : Derivation) :
    ∀ {r : Ref}, g.IsDerivation r d → g'.IsDerivation r d := by
  induction d using Derivation.induction with
  | node R q ds ih =>
    intro r hr
    cases hr with
    | node hget hR hc hp hps =>
      refine .node (h.get hget nofun) (h.get hR nofun) (h.isSequent hc) (h.get hp nofun) ?_
      exact forall₂_imp_of_mem hps fun d hd p => ih d hd

theorem lt_size_of_isSequent {c : Ref} {q : Sequent} (h : g.IsSequent c q) : c < g.size := by
  obtain ⟨e, t, a, hget, -⟩ := h
  exact lt_size_of_get hget nofun

/-- A node over a rule, a sequent and premises that are there. -/
theorem add_derivation {tag c : Ref} {ps : List Ref} {R : Rule} {q : Sequent} {ds : List Derivation}
    (hR : g.get tag = .rule R) (hc : g.IsSequent c q) (hps : List.Forall₂ g.IsDerivation ps ds) :
    let t := g.add (.tuple ps)
    let d := t.1.add (.derivation tag c t.2)
    g.PartOf d.1 ∧ d.1.IsDerivation d.2 (.node R q ds) := by
  have hlt : ∀ s ∈ ps, s < g.size := by
    intro s hs
    obtain ⟨d, -, hd⟩ := exists_mem_of_forall₂ hps s hs
    exact hd.lt_size
  obtain ⟨hp₁, hlt₁, hget₁⟩ := add_spec (admits_of_refs (g := g) (c := .tuple ps) rfl
    (by simpa [Cell.refs, Cell.fields, Cell.items, Cell.entries] using hlt))
  have hltR := Nat.lt_of_lt_of_le (lt_size_of_get hR (by simp)) hp₁.size_le
  have hltc := Nat.lt_of_lt_of_le (lt_size_of_isSequent hc) hp₁.size_le
  intro t d
  obtain ⟨hp₂, -, hget₂⟩ := add_spec (admits_of_refs (g := t.1) (c := .derivation tag c t.2) rfl
    (by simp [Cell.refs, Cell.fields, Cell.items, Cell.entries, t, hltR, hltc, hlt₁]))
  have hp := hp₁.trans hp₂
  refine ⟨hp, .node hget₂ (hp.get hR (by simp)) (hp.isSequent hc) (hp₂.get hget₁ (by simp)) ?_⟩
  exact hps.imp fun _ d => hp.isDerivation d

mutual

theorem addDerivation_spec : (d : Derivation) → (g : Graph) →
    g.PartOf (addDerivation d g).1 ∧ (addDerivation d g).1.IsDerivation (addDerivation d g).2 d
  | .node R q ds, g => by
    obtain ⟨hp₁, -, hR⟩ := add_spec (admits_of_refs (g := g) (c := .rule R) rfl nofun)
    obtain ⟨hp₂, hc⟩ := addSequent_spec q (g.add (.rule R)).1
    obtain ⟨hp₃, hds⟩ := addDerivations_spec ds (addSequent q (g.add (.rule R)).1).1
    obtain ⟨hp₄, hd⟩ := add_derivation ((hp₂.trans hp₃).get hR nofun) (hp₃.isSequent hc) hds
    exact ⟨hp₁.trans (hp₂.trans (hp₃.trans hp₄)), hd⟩

theorem addDerivations_spec : (ds : List Derivation) → (g : Graph) →
    g.PartOf (addDerivations ds g).1 ∧
      List.Forall₂ (addDerivations ds g).1.IsDerivation (addDerivations ds g).2 ds
  | [], g => ⟨.refl g, .nil⟩
  | d :: ds, g => by
    obtain ⟨hp₁, hd⟩ := addDerivation_spec d g
    obtain ⟨hp₂, hds⟩ := addDerivations_spec ds (addDerivation d g).1
    exact ⟨hp₁.trans hp₂, .cons (hp₂.isDerivation d hd) hds⟩

end

/-! ## what is added is well formed -/

theorem wellFormed_ty {A : Ty} (hA : A.Named) {r : Ref} (h : g.value r = A.value) :
    g.WellFormed .type r := wellFormed_of_isType hA.isType h

theorem wellFormed_term {t : Term} (ht : t.Named) {r : Ref} (h : g.value r = t.value) :
    g.WellFormed .term r := wellFormed_of_isTerm ht.isTerm h

theorem context_of_bindings {es : List (Ref × Ref)} {bs : List (String × Ty)}
    (h : List.Forall₂ g.IsBinding es bs) :
    g.context es = fun x => (bs.lookup x).map Ty.value := by
  funext x
  unfold context
  induction h with
  | nil => rfl
  | @cons e b es bs hb _ ih =>
    obtain ⟨y, A⟩ := b
    have ht : g.text? e.1 = some y := by
      rw [text?, hb.1]
      rfl
    rw [List.find?_cons, ht, List.lookup_cons]
    by_cases hx : y = x
    · simp [hx, hb.2.2]
    · have hx' : (some y == some x) = false := beq_false_of_ne fun e => hx (Option.some.inj e)
      have hx'' : (x == y) = false := beq_false_of_ne (Ne.symm hx)
      rw [hx', hx'']
      exact ih

/-- A sequent whose names are not empty is well formed, and stands for what it says. -/
theorem IsSequent.spec {c : Ref} {q : Sequent} (h : g.IsSequent c q) (hq : q.Named) :
    ∃ j, g.judgement? c = some j ∧ g.WellStated j ∧ g.statement j = q.assertion.statement := by
  obtain ⟨e, t, a, hget, ⟨bs, henv, hbs⟩, ht, ha⟩ := h
  obtain ⟨hΓ, hterm, hty⟩ := hq
  have hj : g.judgement? c = some ⟨e, t, a⟩ := by rw [judgement?, hget]
  refine ⟨⟨e, t, a⟩, hj, ⟨?_, wellFormed_term hterm ht, wellFormed_ty hty ha⟩, ?_⟩
  · have hparts : ∀ b ∈ bs, g.isName b.1 = true ∧ g.WellFormed .type b.2 := by
      intro b hb
      obtain ⟨b', hb', hname, -, hv⟩ := exists_mem_of_forall₂ hbs b hb
      have hN := hΓ b' hb'
      exact ⟨isName_iff.mpr ⟨_, value_of_get hname, hN.1⟩, wellFormed_ty hN.2 hv⟩
    refine .of_get henv ?_ ?_
    · simpa [Graph.fits, Cell.role?, Cell.labels] using fun a b hb => (hparts (a, b) hb).1
    · intro p hp
      obtain ⟨b, hb, rfl⟩ : ∃ b ∈ bs, (Role.type, b.2) = p := by
        simpa [Role.parts, Cell.parts, Cell.role?] using hp
      exact (hparts b hb).2
  · rw [statement, bindingsOf, henv, ht, ha]
    exact congrArg (Statement.mk · _ _) (context_of_bindings hbs)

/-! ## the nodes of what is added -/

section
variable {r : Ref} {R : Rule} {q : Sequent} {ds : List Derivation} {d : Derivation}

theorem IsDerivation.isNode (h : g.IsDerivation r (.node R q ds)) (hq : q.Named) :
    ∃ j ps, g.IsNode r R j ps ∧ g.WellStated j ∧ g.statement j = q.assertion.statement ∧
      List.Forall₂ g.IsDerivation ps ds := by
  cases h with
  | @node _ tag c p _ _ ps _ hget hR hc hp hps =>
    obtain ⟨j, hj, hw, hs⟩ := hc.spec hq
    refine ⟨j, ps, ⟨?_, ?_, ?_⟩, hw, hs, hps⟩
    · rw [ruleOf?, hget]
      simp only [hR]
    · rw [conclusion?, hget]
      exact hj
    · rw [sequenceOf?, hget]
      simp only [hp]
      rfl

theorem IsDerivation.records_iff (h : g.IsDerivation r d) (hd : d.Named) {s : Statement} :
    g.Records r s ↔ s = d.conclusion.assertion.statement := by
  cases hd with
  | node hq _ =>
    obtain ⟨j, ps, hnode, -, hs, -⟩ := h.isNode hq
    constructor
    · rintro ⟨i, hi, rfl⟩
      rw [← hnode.eq_of_conclusion hi]
      exact hs
    · rintro rfl
      exact ⟨j, hnode.conclusion, hs⟩

theorem forall₂_records_iff {ps : List Ref} (h : List.Forall₂ g.IsDerivation ps ds)
    (hds : ∀ d ∈ ds, d.Named) {ss : List Statement} :
    List.Forall₂ g.Records ps ss ↔ ss = (ds.map fun d => d.conclusion.assertion).map
      Assertion.statement := by
  induction h generalizing ss with
  | nil => simp
  | @cons p d ps ds hd _ ih =>
    obtain ⟨hN, hNs⟩ := List.forall_mem_cons.mp hds
    rw [List.forall₂_cons_left_iff]
    constructor
    · rintro ⟨s, ss, hs, hss, rfl⟩
      rw [(hd.records_iff hN).mp hs, (ih hNs).mp hss]
      rfl
    · rintro rfl
      exact ⟨_, _, (hd.records_iff hN).mpr rfl, (ih hNs).mpr rfl, rfl⟩

/-- A node is in the table of trees exactly if it is in that of types and terms. -/
theorem fits_iff_application {j : Judgement} {ps : List Ref}
    (hs : g.statement j = q.assertion.statement) (hps : List.Forall₂ g.IsDerivation ps ds)
    (hds : ∀ d ∈ ds, d.Named) :
    g.Fits R ps j ↔ R.Application q.assertion (ds.map fun d => d.conclusion.assertion) := by
  rw [Fits, application_iff, hs]
  constructor
  · rintro ⟨ss, hr, hi⟩
    rw [← (forall₂_records_iff hps hds).mp hr]
    exact hi
  · intro hi
    exact ⟨_, (forall₂_records_iff hps hds).mpr rfl, hi⟩

theorem IsDerivation.of_below (h : g.IsDerivation r d) (hd : d.Named) {x : Ref}
    (hx : g.Below r x) : ∃ e, g.IsDerivation x e ∧ e.Named := by
  induction hx with
  | refl => exact ⟨d, h, hd⟩
  | tail _ hy ih =>
    obtain ⟨e, he, hN⟩ := ih
    cases hN with
    | node hq hs =>
      obtain ⟨j, ps, hnode, -, -, hps⟩ := he.isNode hq
      rw [hnode.premisesOf] at hy
      obtain ⟨e, he, hye⟩ := exists_mem_of_forall₂ hps _ hy
      exact ⟨e, hye, hs e he⟩

/-- The nodes record well-formed sequents. -/
theorem IsDerivation.wellStated (h : g.IsDerivation r d) (hd : d.Named) {x : Ref}
    (hx : g.Below r x) : ∃ R j ps, g.IsNode x R j ps ∧ g.WellStated j := by
  obtain ⟨e, he, hN⟩ := h.of_below hd hx
  cases hN with
  | @node R q ds hq _ =>
    obtain ⟨j, ps, hnode, hw, -⟩ := he.isNode hq
    exact ⟨R, j, ps, hnode, hw⟩

/-- **The nodes are in the rule table exactly if the derivation is correct.** -/
theorem IsDerivation.fits_iff (h : g.IsDerivation r d) (hd : d.Named) :
    (∀ x, g.Below r x → ∃ R j ps, g.IsNode x R j ps ∧ g.Fits R ps j) ↔ d.Correct := by
  induction d using Derivation.induction generalizing r with
  | node R q ds ih =>
    cases hd with
    | node hq hs =>
      obtain ⟨j, ps, hnode, -, hst, hps⟩ := h.isNode hq
      rw [Derivation.correct_node_iff, ← fits_iff_application hst hps hs]
      constructor
      · intro hall
        constructor
        · obtain ⟨R', j', ps', hnode', hfit⟩ := hall r .refl
          obtain rfl : R = R' := Option.some.inj (hnode.rule.symm.trans hnode'.rule)
          obtain rfl : j = j' := hnode.eq_of_conclusion hnode'.conclusion
          obtain rfl : ps = ps' := hnode.premisesOf.symm.trans hnode'.premisesOf
          exact hfit
        · intro e he
          obtain ⟨p, hp, hpe⟩ := exists_mem_of_forall₂ hps.flip e he
          rw [← ih e he hpe (hs e he)]
          intro x hx
          refine hall x (hx.head ?_)
          rw [hnode.premisesOf]
          exact hp
      · rintro ⟨hfit, hall⟩ x hx
        rcases below_iff.mp hx with rfl | ⟨p, hp, hx⟩
        · exact ⟨R, j, ps, hnode, hfit⟩
        · rw [hnode.premisesOf] at hp
          obtain ⟨e, he, hpe⟩ := exists_mem_of_forall₂ hps p hp
          exact (ih e he hpe (hs e he)).mpr (hall e he) x hx

/-- The nodes are as deep as the derivation is high. -/
theorem IsDerivation.shallow_iff (h : g.IsDerivation r d) (hd : d.Named) {n : Nat} :
    g.Shallow n r ↔ d.height ≤ n := by
  induction d using Derivation.induction generalizing r n with
  | node R q ds ih =>
    cases hd with
    | node hq hs =>
      obtain ⟨j, ps, hnode, -, -, hps⟩ := h.isNode hq
      rw [Derivation.height]
      cases n with
      | zero => exact iff_of_false (fun hz => nomatch hz) (by omega)
      | succ n =>
        rw [Nat.add_le_add_iff_right, Derivation.heights_le_iff]
        constructor
        · intro hsh e he
          obtain ⟨p, hp, hpe⟩ := exists_mem_of_forall₂ hps.flip e he
          refine (ih e he hpe (hs e he)).mp (hsh.premise ?_)
          rw [hnode.premisesOf]
          exact hp
        · intro hall
          refine .node fun p hp => ?_
          rw [hnode.premisesOf] at hp
          obtain ⟨e, he, hpe⟩ := exists_mem_of_forall₂ hps p hp
          exact (ih e he hpe (hs e he)).mpr (hall e he)

end

end Graph

end NaturalDeduction

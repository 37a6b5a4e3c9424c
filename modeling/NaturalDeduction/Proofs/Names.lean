import NaturalDeduction.Proofs.RoundTrip
import NaturalDeduction.Proofs.Typing

/-!
# The names in what is read

* `Ty.names`, …, `Derivation.names`   the names in a value, from left to right;
* `Tree.ident_of_mem_names`   the names in what a tree stands for are identifiers among its lexemes;
* `isPlain_of_parseDerivation`, `isPlain_of_parseSequent`   the names in what is read are plain;
* `Derivation.named_of_isPlain`, `Sequent.named_of_isPlain`   so none of them is empty.
-/

namespace NaturalDeduction

@[simp] def Ty.names : Ty → List String
  | bottom => []
  | base x => [x]
  | arrow A B => A.names ++ B.names
  | product A B => A.names ++ B.names
  | sum A B => A.names ++ B.names

@[simp] def Term.names : Term → List String
  | var x => [x]
  | pair t u => t.names ++ u.names
  | inl t => t.names
  | inr t => t.names
  | case t u v => t.names ++ u.names ++ v.names
  | fst t => t.names
  | snd t => t.names
  | lambda x A t => x :: (A.names ++ t.names)
  | abort t => t.names

/-- The names in bindings. -/
def bindingNames (bs : List (String × Ty)) : List String := bs.flatMap fun b => b.1 :: b.2.names

@[simp] theorem bindingNames_append (bs : List (String × Ty)) (b : String × Ty) :
    bindingNames (bs ++ [b]) = bindingNames bs ++ b.1 :: b.2.names := by
  simp [bindingNames]

@[simp] def Sequent.names (q : Sequent) : List String :=
  bindingNames q.ctx.bindings ++ q.term.names ++ q.ty.names

namespace Derivation

mutual

@[simp] def names : Derivation → List String
  | .node _ q ds => q.names ++ allNames ds

/-- The names in several derivations. -/
def allNames : List Derivation → List String
  | [] => []
  | d :: ds => d.names ++ allNames ds

end

theorem allNames_eq (ds : List Derivation) : allNames ds = ds.flatMap names := by
  induction ds with
  | nil => rfl
  | cons d ds ih => rw [allNames, ih, List.flatMap_cons]

@[simp] theorem allNames_append (ds : List Derivation) (d : Derivation) :
    allNames (ds ++ [d]) = allNames ds ++ d.names := by
  simp [allNames_eq]

theorem names_conclusion (d : Derivation) : d.conclusion.names ⊆ d.names := by
  cases d with
  | node R q ds => exact List.subset_append_left q.names (allNames ds)

end Derivation

/-! ## names that are not empty -/

theorem Ty.named_iff {A : Ty} : A.Named ↔ ∀ x ∈ A.names, x ≠ "" := by
  induction A with
  | bottom => simp [Named, names]
  | base x => simp [Named, names]
  | arrow A B ihA ihB | product A B ihA ihB | sum A B ihA ihB =>
    rw [Named, names, List.forall_mem_append, ihA, ihB]

theorem Term.named_iff {t : Term} : t.Named ↔ ∀ x ∈ t.names, x ≠ "" := by
  induction t with
  | var x => simp [Named, names]
  | pair t u iht ihu => rw [Named, names, List.forall_mem_append, iht, ihu]
  | inl t iht | inr t iht | fst t iht | snd t iht | abort t iht => rw [Named, names, iht]
  | case t u v iht ihu ihv =>
    rw [Named, names, List.forall_mem_append, List.forall_mem_append, iht, ihu, ihv, and_assoc]
  | lambda x A t iht =>
    rw [Named, names, List.forall_mem_cons, List.forall_mem_append, Ty.named_iff, iht]

theorem Sequent.named_iff {q : Sequent} : q.Named ↔ ∀ x ∈ q.names, x ≠ "" := by
  have hctx : q.ctx.Named ↔ ∀ x ∈ bindingNames q.ctx.bindings, x ≠ "" := by
    simp only [Context.Named, bindingNames, Ty.named_iff, List.forall_mem_flatMap,
      List.forall_mem_cons]
  rw [Named, names, List.forall_mem_append, List.forall_mem_append, hctx, Term.named_iff,
    Ty.named_iff, and_assoc]

theorem Derivation.named_of_names {d : Derivation} (h : ∀ x ∈ d.names, x ≠ "") : d.Named := by
  induction d using Derivation.induction with
  | node R q ds ih =>
    obtain ⟨hq, hds⟩ := List.forall_mem_append.mp h
    rw [allNames_eq] at hds
    refine .node (Sequent.named_iff.mpr hq) fun d hd => ih d hd fun x hx => ?_
    exact hds x (List.mem_flatMap.mpr ⟨d, hd, hx⟩)

/-! ## names and lexemes -/

namespace Source

/-- The names in a value. -/
@[simp] def Nonterminal.names : (n : Nonterminal) → n.Value → List String
  | ty => Ty.names
  | term => Term.names
  | context => fun Γ => bindingNames Γ.bindings
  | bindings => bindingNames
  | binding => fun b => b.1 :: b.2.names
  | sequent => Sequent.names
  | derivation => Derivation.names
  | premises => Derivation.allNames
  | empty => Derivation.allNames

@[simp] def Symbol.names : (s : Symbol) → s.Value → List String
  | terminal k => fun x => if k = .ident then [x] else []
  | nonterminal n => n.names

def Values.names : {rhs : List Symbol} → Values rhs → List String
  | _, .nil => []
  | s :: _, .cons v vs => s.names v ++ vs.names

@[simp] theorem mem_names_cons {s : Symbol} {rhs : List Symbol} {v : s.Value} {vs : Values rhs} {x : String} :
    x ∈ (Values.cons v vs).names ↔ x ∈ s.names v ∨ x ∈ vs.names := List.mem_append

theorem names_subset_of_some {n : Nonterminal} {v w : n.Value} {l : List String} (h : some v = some w)
    (hv : n.names v ⊆ l) : n.names w ⊆ l := by
  obtain rfl := Option.some.inj h
  exact hv

/-- A production puts names together and makes none. -/
theorem Production.names_subset {n : Nonterminal} {rhs : List Symbol} : (p : Production n rhs) →
    (vs : Values rhs) → (v : n.Value) → p.act vs = some v → n.names v ⊆ vs.names
  | .base, .cons _ _, _, h => names_subset_of_some h (List.subset_append_left _ _)
  | .bottom, _, _, h => names_subset_of_some h (List.nil_subset _)
  | .connect o, .cons _ (.cons A (.cons _ (.cons B _))), _, h => by
    have ho : (o.apply A B).names = A.names ++ B.names := by cases o <;> rfl
    refine names_subset_of_some h fun x => ?_
    simp [ho]
    tauto
  | .var, .cons _ _, _, h => names_subset_of_some h (List.subset_append_left _ _)
  | .pair, .cons _ (.cons _ (.cons t (.cons u _))), _, h =>
    names_subset_of_some h fun x => by simp; tauto
  | .unary o, .cons _ (.cons _ (.cons t _)), _, h => by
    have ho : (o.apply t).names = t.names := by cases o <;> rfl
    refine names_subset_of_some h fun x => ?_
    simp [ho]
    tauto
  | .case, .cons _ (.cons _ (.cons t (.cons u (.cons v _)))), _, h =>
    names_subset_of_some h fun x => by simp; tauto
  | .lambda, .cons _ (.cons _ (.cons _ (.cons y (.cons _ (.cons A (.cons _ (.cons t _))))))), _, h =>
    names_subset_of_some h fun x => by simp; tauto
  | .noBindings, _, _, h => names_subset_of_some h (List.nil_subset _)
  | .someBindings, .cons _ (.cons bs _), _, h => by
    obtain ⟨_, h⟩ := Option.dite_none_right_eq_some.mp h
    exact names_subset_of_some h fun x => by simp; tauto
  | .moreBindings, .cons bs (.cons _ (.cons b _)), _, h =>
    names_subset_of_some h fun x => by simp; tauto
  | .oneBinding, .cons b _, _, h =>
    names_subset_of_some h fun x => by simp [bindingNames]; tauto
  | .binding, .cons y (.cons _ (.cons A _)), _, h => names_subset_of_some h fun x => by simp; tauto
  | .sequent, .cons Γ (.cons _ (.cons t (.cons _ (.cons A _)))), _, h =>
    names_subset_of_some h fun x => by simp; tauto
  | .derivation, .cons _ (.cons _ (.cons q (.cons ds _))), _, h => by
    obtain ⟨R, -, h⟩ := Option.map_eq_some_iff.mp h
    exact names_subset_of_some (congrArg some h) fun x => by simp; tauto
  | .morePremises, .cons ds (.cons d _), _, h => names_subset_of_some h fun x => by simp; tauto
  | .noPremises, .cons ds _, _, h => names_subset_of_some h (List.subset_append_left _ _)
  | .empty, _, _, h => names_subset_of_some h (List.nil_subset _)

mutual

/-- The names in what a tree stands for are identifiers among its lexemes. -/
theorem Tree.ident_of_mem_names {n : Nonterminal} {x : String} : (t : Tree n) → (v : n.Value) →
    t.value = some v → x ∈ n.names v → ⟨.ident, x⟩ ∈ t.yield
  | .node p f, v, h, hx => by
    obtain ⟨vs, hvs, hv⟩ := Option.bind_eq_some_iff.mp h
    exact Forest.ident_of_mem_names f vs hvs (p.names_subset vs v hv hx)

theorem Forest.ident_of_mem_names {rhs : List Symbol} {x : String} : (f : Forest rhs) →
    (vs : Values rhs) → f.values = some vs → x ∈ vs.names → ⟨.ident, x⟩ ∈ f.yield
  | .nil, _, rfl, hx => absurd hx List.not_mem_nil
  | @Forest.leaf k _ y f, _, h, hx => by
    obtain ⟨vs, hvs, rfl⟩ := Option.map_eq_some_iff.mp h
    obtain hx | hx := mem_names_cons.mp hx
    · have hx : x ∈ if k = .ident then [Lexeme.word ⟨k, y⟩] else [] := hx
      split at hx
      case isTrue hk =>
        subst hk
        obtain rfl : x = y := List.mem_singleton.mp hx
        exact List.mem_cons_self
      case isFalse => exact absurd hx List.not_mem_nil
    · exact List.mem_cons_of_mem _ (Forest.ident_of_mem_names f vs hvs hx)
  | .tree t f, _, h, hx => by
    obtain ⟨v, hv, h⟩ := Option.bind_eq_some_iff.mp h
    obtain ⟨vs, hvs, rfl⟩ := Option.map_eq_some_iff.mp h
    obtain hx | hx := mem_names_cons.mp hx
    · exact List.mem_append_left _ (Tree.ident_of_mem_names t v hv hx)
    · exact List.mem_append_right _ (Forest.ident_of_mem_names f vs hvs hx)

end

/-! ## plain names -/

theorem isPlain_of_ofWord {x : String} (hx : isWord x = true) (hk : TokenKind.ofWord x = .ident) :
    isPlain x = true := by
  have hreserved : ∀ p ∈ TokenKind.reserved, TokenKind.ofWord p.1 ≠ .ident := by decide
  have hnot : x ∉ TokenKind.reserved.map Prod.fst := by
    intro h
    obtain ⟨p, hp, rfl⟩ := List.mem_map.mp h
    exact hreserved p hp hk
  simp [isPlain, hx, hnot]

/-- The identifiers of a text are plain names. -/
theorem Layout.isPlain_of_ident {cs : List Char} {ls : List Lexeme} (h : Layout cs ls) {x : String}
    (hx : ⟨.ident, x⟩ ∈ ls) : isPlain x = true := by
  induction h with
  | done => exact absurd hx List.not_mem_nil
  | blank _ _ ih | comment _ _ _ ih => exact ih hx
  | @symbol s cs k ls hs _ ih =>
    have hne : ∀ p ∈ symbols, p.2 ≠ .ident := by decide
    obtain hx | hx := List.mem_cons.mp hx
    · exact absurd (congrArg Lexeme.kind hx).symm (hne _ hs)
    · exact ih hx
  | @word c w cs ls hc hw _ _ ih =>
    obtain hx | hx := List.mem_cons.mp hx
    · obtain ⟨hk, rfl⟩ := Lexeme.mk.inj hx
      have hword : isWord (String.ofList (c :: w)) = true := by
        rw [isWord, String.toList_ofList]
        exact Bool.and_eq_true_iff.mpr ⟨hc, List.all_eq_true.mpr hw⟩
      exact isPlain_of_ofWord hword hk.symm
    · exact ih hx

theorem isPlain_of_parseWith {n : Nonterminal} {read : (ts : List Token) → Read n.Value ts}
    (h : ∀ {ts v r}, Yields (read ts) v r ↔ Spans n v ts r) {src : String} {v : n.Value}
    (hp : parseWith read src = .ok v) : ∀ x ∈ n.names v, isPlain x = true := by
  intro x hx
  obtain ⟨t, hlayout, hv⟩ := (parseWith_eq_ok_iff h).mp hp
  exact hlayout.isPlain_of_ident (t.ident_of_mem_names v hv hx)

theorem isPlain_of_parseDerivation {src : String} {d : Derivation}
    (h : parseDerivation src = .ok d) : ∀ x ∈ d.names, isPlain x = true :=
  isPlain_of_parseWith (n := .derivation) yields_readDerivation_iff h

theorem isPlain_of_parseSequent {src : String} {q : Sequent} (h : parseSequent src = .ok q) :
    ∀ x ∈ q.names, isPlain x = true :=
  isPlain_of_parseWith (n := .sequent) yields_readSequent_iff h

theorem ne_empty_of_isPlain {x : String} (h : isPlain x = true) : x ≠ "" := by
  rintro rfl
  cases h

end Source

open Source

theorem Sequent.named_of_isPlain {q : Sequent} (h : ∀ x ∈ q.names, isPlain x = true) : q.Named :=
  named_iff.mpr fun x hx => ne_empty_of_isPlain (h x hx)

theorem Derivation.named_of_isPlain {d : Derivation} (h : ∀ x ∈ d.names, isPlain x = true) :
    d.Named :=
  named_of_names fun x hx => ne_empty_of_isPlain (h x hx)

end NaturalDeduction

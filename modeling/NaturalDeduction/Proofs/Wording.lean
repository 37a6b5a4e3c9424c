import NaturalDeduction.Proofs.Printing
import NaturalDeduction.Proofs.Trees

/-!
# What messages say

The text of a well-formed value is that of its tree, and the text of an environment that of the
finite map that it is: neither sharing nor the order of bindings can be read off a message.

* `Value.leaves`, `Value.text`   the pieces of the text of a tree, and the text, cut to a limit;
* `showValue_eq`           the text of a well-formed value is that of its tree;
* `Listing.text`           the text of bindings, in the order of their names;
* `Listing.text_of_perm`   it does not depend on the order in which they were made;
* `showBindings_eq`        the text of well-formed bindings is that of their listing.
-/

namespace NaturalDeduction

open NaturalDeduction.Graph

/-! ## types and terms -/

/-- The pieces of the text of a type or a term, in order. -/
def Value.leaves : Value → List String
  | .bottom => ["⊥"]
  | .base n => [n.word]
  | .var n => [n.word]
  | .arrow a b => ["("] ++ a.leaves ++ [" -> "] ++ b.leaves ++ [")"]
  | .product a b => ["("] ++ a.leaves ++ [" × "] ++ b.leaves ++ [")"]
  | .sum a b => ["("] ++ a.leaves ++ [" + "] ++ b.leaves ++ [")"]
  | .pair a b => ["(cons "] ++ a.leaves ++ [" "] ++ b.leaves ++ [")"]
  | .inl a => ["(inl "] ++ a.leaves ++ [")"]
  | .inr a => ["(inr "] ++ a.leaves ++ [")"]
  | .case a b c => ["(case "] ++ a.leaves ++ [" "] ++ b.leaves ++ [" "] ++ c.leaves ++ [")"]
  | .fst a => ["(car "] ++ a.leaves ++ [")"]
  | .snd a => ["(cdr "] ++ a.leaves ++ [")"]
  | .lambda n a b => ["(λ (" ++ n.word ++ " : "] ++ a.leaves ++ [") "] ++ b.leaves ++ [")"]
  | .abort a => ["(abort "] ++ a.leaves ++ [")"]
  | _ => []

/-- The text of a type or a term, cut to a limit. -/
def Value.text (limit : Option Int) (v : Value) : Except Failure String :=
  finish (v.leaves.foldlM (Output.put limit) .empty)

namespace Graph
variable {g : Graph} {limit : Option Int}

theorem role_of_mem_parts {c : Cell} {p : Role × Ref} (h : p ∈ c.parts) : p.1 ≠ .env := by
  cases c <;> simp only [Cell.parts, List.mem_cons, List.not_mem_nil, or_false, List.mem_map] at h
  case env bs =>
    obtain ⟨e, -, rfl⟩ := h
    show Role.type ≠ .env
    decide
  all_goals grind

/-- The leaves of a value are those of its tree. -/
theorem leaves_eq {ρ : Role} {r : Ref} (h : g.WellFormed ρ r) (hρ : ρ ≠ .env) :
    g.leaves g.str r = (g.value r).leaves := by
  induction h with
  | @intro ρ r hf hwf ih =>
    obtain ⟨hrole, hlabels⟩ := fits_iff.mp hf
    have names : ∀ n ∈ (g.get r).labels, ∃ m : Name, g.value n = .name m ∧ m.word ≠ "" :=
      fun n hn => isName_iff.mp (hlabels n hn)
    have parts : ∀ p ∈ (g.get r).parts, g.leaves g.str p.2 = (g.value p.2).leaves :=
      fun p hp => ih p (Role.mem_parts.mpr ⟨hrole, hp⟩) (role_of_mem_parts hp)
    have step : ∀ ps, g.pieces g.str r = .ok ps →
        g.leaves g.str r = ps.flatMap (g.pieceLeaves g.str) := fun ps hps => leaves_of_pieces hps
    rw [value_eq_valueOf]
    cases hc : g.get r <;>
      simp only [hc, Cell.role?, Cell.labels, Cell.parts, Option.some.injEq, reduceCtorEq,
        List.mem_cons, List.not_mem_nil, or_false, forall_eq_or_imp, forall_eq]
        at hrole names parts
    case env => exact absurd hrole.symm hρ
    case base n =>
      obtain ⟨m, hm, -⟩ := names
      rw [step _ (by rw [pieces, hc])]
      simp [pieceLeaves, nameText, text?_of_value hm, valueOf, Cell.kind, Cell.fields, hm,
        Value.leaves]
    case var n =>
      obtain ⟨m, hm, -⟩ := names
      rw [step _ (by rw [pieces, hc])]
      simp [pieceLeaves, nameText, text?_of_value hm, valueOf, Cell.kind, Cell.fields, hm,
        Value.leaves]
    case lambda n a b =>
      obtain ⟨m, hm, -⟩ := names
      rw [step _ (by simp only [pieces, hc, str_of_text? (text?_of_value hm)]; rfl)]
      simp [pieceLeaves, parts, valueOf, Cell.kind, Cell.fields, hm, Value.leaves]
    all_goals
      rw [step _ (by rw [pieces, hc])]
      simp [pieceLeaves, parts, valueOf, Cell.kind, Cell.fields, Value.leaves]

theorem showValue_eq {ρ : Role} {r : Ref} (h : g.WellFormed ρ r) (hρ : ρ ≠ .env) :
    g.showValue limit r = (g.value r).text limit := by
  rw [showValue, showWith_eq_finish h.loose.writable, leaves_eq h hρ]
  rfl

end Graph

/-! ## environments -/

/-- Bindings in the order of their names. -/
def Listing.sorted (l : Listing) : Listing :=
  l.mergeSort fun e f => (compare (e.1.getD "") (f.1.getD "")).isLE

/-- The text of one binding. -/
def bindingText (limit : Option Int) (e : Option String × Value) : Except Failure String := do
  let ty ← e.2.text limit
  return e.1.getD "" ++ " : " ++ ty

/-- The text of bindings in braces. -/
def Listing.text (limit : Option Int) (l : Listing) : Except Failure String := do
  let parts ← l.sorted.mapM (bindingText limit)
  return "\x7b" ++ cut limit (commas parts) ++ "\x7d"

/-- Bindings of different names come out in the same order, whatever order they were made in. -/
theorem Listing.sorted_of_perm {l l' : Listing} (hp : l.Perm l') (h : l.words.Nodup)
    (hw : l.WellFormed) : l.sorted = l'.sorted := by
  have hsort : ∀ l : Listing,
      l.sorted.Pairwise fun e f => (compare (e.1.getD "") (f.1.getD "")).isLE = true := by
    intro l
    apply List.pairwise_mergeSort
    · intro a b c hab hbc
      exact Std.TransCmp.isLE_trans hab hbc
    · intro a b
      have hswap : compare (b.1.getD "") (a.1.getD "") =
          (compare (a.1.getD "") (b.1.getD "")).swap := Std.OrientedCmp.eq_swap
      rw [hswap]
      cases compare (a.1.getD "") (b.1.getD "") <;> rfl
  have hperm : ∀ l : Listing, l.sorted.Perm l := fun l => List.mergeSort_perm l _
  have hsorted : l.sorted.Perm l'.sorted := (hperm l).trans (hp.trans (hperm l').symm)
  refine List.Perm.eq_of_pairwise ?_ (hsort l) (hsort l') hsorted
  rintro ⟨k, A⟩ ⟨k', B⟩ ha hb hab hba
  -- one name is not bound twice
  have ha : (k, A) ∈ l := (hperm l).mem_iff.mp ha
  have hb : (k', B) ∈ l := hp.mem_iff.mpr ((hperm l').mem_iff.mp hb)
  obtain ⟨⟨x, rfl, -⟩, -⟩ := hw _ ha
  obtain ⟨⟨y, rfl, -⟩, -⟩ := hw _ hb
  obtain rfl : x = y := Std.LawfulEqOrd.eq_of_compare (Std.OrientedCmp.isLE_antisymm hab hba)
  have hA := (context_eq_some h).mpr ha
  have hB := (context_eq_some h).mpr hb
  rw [Option.some.inj (hA.symm.trans hB)]

theorem Listing.text_of_perm {limit : Option Int} {l l' : Listing} (hp : l.Perm l')
    (h : l.words.Nodup) (hw : l.WellFormed) : l.text limit = l'.text limit := by
  rw [Listing.text, Listing.text, sorted_of_perm hp h hw]

theorem mapM_congr_of_mem {α β ε : Type} {f k : α → Except ε β} {l : List α}
    (h : ∀ a ∈ l, f a = k a) : l.mapM f = l.mapM k := by
  induction l with
  | nil => rfl
  | cons a l ih =>
    rw [List.mapM_cons, List.mapM_cons, h a List.mem_cons_self,
      ih fun b hb => h b (List.mem_cons_of_mem a hb)]

namespace Graph
variable {g : Graph} {limit : Option Int}

/-- Sorting bindings by name is sorting their listing. -/
theorem exists_sortByName {bs : List (Ref × Ref)} (hw : (g.listing bs).WellFormed) :
    ∃ es, g.sortByName bs = .ok es ∧ es.Perm bs ∧ g.listing es = (g.listing bs).sorted := by
  have text : ∀ e ∈ bs, ∃ x, g.text? e.1 = some x := by
    intro e he
    obtain ⟨⟨x, hx, -⟩, -⟩ := hw _ (List.mem_map.mpr ⟨e, he, rfl⟩)
    exact ⟨x, hx⟩
  refine ⟨_, sortByName_eq text, List.mergeSort_perm bs _, ?_⟩
  refine List.map_mergeSort fun a ha b hb => ?_
  obtain ⟨x, hx⟩ := text a ha
  obtain ⟨y, hy⟩ := text b hb
  rw [compareNames_of_texts hx hy]
  simp only [hx, hy, Option.getD_some]
  cases compare x y <;> rfl

theorem showBindings_eq {bs : List (Ref × Ref)} (hw : (g.listing bs).WellFormed) :
    g.showBindings limit bs = (g.listing bs).text limit := by
  obtain ⟨es, hes, hperm, hlist⟩ := exists_sortByName hw
  rw [showBindings, showBindingsWith, hes, ok_bind, Listing.text, ← hlist, listing, List.mapM_map]
  congr 1
  refine mapM_congr_of_mem fun e he => ?_
  obtain ⟨hname, hty⟩ := wellFormed_listing_iff.mp hw e (hperm.mem_iff.mp he)
  obtain ⟨n, hn, -⟩ := isName_iff.mp hname
  have hx := text?_of_value hn
  have hshow : g.showWith g.str limit e.2 = (g.value e.2).text limit := showValue_eq hty (by decide)
  rw [str_of_text? hx, ok_bind, hshow]
  simp only [Function.comp, bindingText, hx, Option.getD_some]

theorem showEnv_eq {e : Ref} (h : g.WellFormed .env e) :
    g.showEnv limit e = (g.listing (g.bindingsOf e)).text limit := by
  obtain ⟨hk, hw⟩ := wellFormed_env_iff.mp h
  obtain ⟨bs, hbs⟩ := Cell.shape_of_kind hk
  rw [← showBindings_eq hw, showEnv, showEnvWith, bindingsOf, hbs]
  rfl

end Graph

end NaturalDeduction

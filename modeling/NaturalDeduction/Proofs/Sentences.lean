import NaturalDeduction.Proofs.ParseTree
import Mathlib.Computability.Language

/-!
# The language of the grammar

* `Nonterminal.sentences`   the sentences of a nonterminal, as kinds of tokens;
* `ahead rhs K`             the sentences of the symbols `rhs`, and after them what is in `K`;
* `mem_ty`, …, `mem_premises`   the productions as equations between languages. Lists of bindings and of
                            premises are iterations, so that they can be taken from the left;
* `live_ahead`              every list of symbols has sentences.
-/

namespace NaturalDeduction.Source

/-! ## sentences -/

/-- The kinds of the lexemes that the members of a type are written as. -/
def written {α : Type} (y : α → List Lexeme) : Language TokenKind :=
  {w | ∃ a, (y a).map Lexeme.kind = w}

/-- The sentences of a nonterminal: what its trees have at their leaves. -/
def Nonterminal.sentences (n : Nonterminal) : Language TokenKind :=
  written (@Tree.yield n)

def Symbol.sentences : Symbol → Language TokenKind
  | terminal k => {[k]}
  | nonterminal n => n.sentences

/-- Sentences of the symbols of a list, one after the other, and then one of `K`. -/
def ahead : List Symbol → Language TokenKind → Language TokenKind
  | [], K => K
  | s :: rhs, K => s.sentences * ahead rhs K

section
variable {K : Language TokenKind} {k k' : TokenKind} {w : List TokenKind} {rhs : List Symbol}

@[simp] theorem ahead_nil : ahead [] K = K := rfl

@[simp] theorem ahead_nonterminal {n : Nonterminal} :
    ahead (.nonterminal n :: rhs) K = n.sentences * ahead rhs K := rfl

@[simp] theorem cons_mem_ahead :
    k :: w ∈ ahead (.terminal k' :: rhs) K ↔ k = k' ∧ w ∈ ahead rhs K := by
  show k :: w ∈ ({[k']} : Language TokenKind) * ahead rhs K ↔ _
  rw [Language.mem_mul]
  constructor
  · rintro ⟨a, ha, v, hv, e⟩
    obtain rfl : a = [k'] := ha
    obtain ⟨rfl, rfl⟩ := List.cons.inj e
    exact ⟨rfl, hv⟩
  · rintro ⟨rfl, hw⟩
    exact ⟨[k], rfl, w, hw, rfl⟩

@[simp] theorem nil_not_mem_ahead : [] ∉ ahead (.terminal k :: rhs) K := by
  show [] ∉ ({[k]} : Language TokenKind) * ahead rhs K
  rw [Language.mem_mul]
  rintro ⟨a, ha, v, -, e⟩
  obtain rfl : a = [k] := ha
  cases e

theorem mem_sentences_mul {n : Nonterminal} :
    w ∈ n.sentences * K ↔ ∃ t : Tree n, ∃ v ∈ K, t.yield.map Lexeme.kind ++ v = w := by
  rw [Language.mem_mul]
  constructor
  · rintro ⟨_, ⟨t, rfl⟩, h⟩
    exact ⟨t, h⟩
  · rintro ⟨t, h⟩
    exact ⟨_, ⟨t, rfl⟩, h⟩

theorem mem_ahead_iff :
    w ∈ ahead rhs K ↔ ∃ f : Forest rhs, ∃ v ∈ K, f.yield.map Lexeme.kind ++ v = w := by
  induction rhs generalizing w with
  | nil =>
    constructor
    · exact fun h => ⟨.nil, w, h, rfl⟩
    · rintro ⟨⟨⟩, v, hv, rfl⟩
      exact hv
  | cons s rhs ih =>
    cases s with
    | terminal k =>
      constructor
      · intro h
        cases w with
        | nil => exact absurd h nil_not_mem_ahead
        | cons k' w =>
          obtain ⟨rfl, hw⟩ := cons_mem_ahead.mp h
          obtain ⟨f, v, hv, rfl⟩ := ih.mp hw
          exact ⟨.leaf "" f, v, hv, rfl⟩
      · rintro ⟨f, v, hv, rfl⟩
        obtain ⟨x, f, rfl⟩ := f.eq_leaf
        exact cons_mem_ahead.mpr ⟨rfl, ih.mpr ⟨f, v, hv, rfl⟩⟩
    | nonterminal n =>
      rw [ahead_nonterminal, mem_sentences_mul]
      constructor
      · rintro ⟨t, u, hu, rfl⟩
        obtain ⟨f, v, hv, rfl⟩ := ih.mp hu
        exact ⟨.tree t f, v, hv, by rw [Forest.yield, List.map_append, List.append_assoc]⟩
      · rintro ⟨f, v, hv, rfl⟩
        obtain ⟨t, f, rfl⟩ := f.eq_tree
        exact ⟨t, _, ih.mpr ⟨f, v, hv, rfl⟩, by rw [Forest.yield, List.map_append, List.append_assoc]⟩

/-- A sentence is one of the right side of some production. -/
theorem mem_sentences_mul_iff {n : Nonterminal} :
    w ∈ n.sentences * K ↔ ∃ rhs, Nonempty (Production n rhs) ∧ w ∈ ahead rhs K := by
  rw [mem_sentences_mul]
  constructor
  · rintro ⟨⟨p, f⟩, h⟩
    exact ⟨_, ⟨p⟩, mem_ahead_iff.mpr ⟨f, h⟩⟩
  · rintro ⟨rhs, ⟨p⟩, h⟩
    obtain ⟨f, h⟩ := mem_ahead_iff.mp h
    exact ⟨.node p f, h⟩

end

/-! ## the productions as equations between languages -/

section
open TokenKind Nonterminal
variable {K : Language TokenKind} {w : List TokenKind}

theorem mem_ty : w ∈ ty.sentences * K ↔ w ∈ ahead [ident] K ∨ w ∈ ahead [bot] K ∨
    ∃ o : Connective, w ∈ ahead [lparen, ty, o.kind, ty, rparen] K := by
  rw [mem_sentences_mul_iff]
  constructor
  · rintro ⟨rhs, ⟨p⟩, h⟩
    cases p with
    | base => exact .inl h
    | bottom => exact .inr (.inl h)
    | connect o => exact .inr (.inr ⟨o, h⟩)
  · rintro (h | h | ⟨o, h⟩)
    exacts [⟨_, ⟨.base⟩, h⟩, ⟨_, ⟨.bottom⟩, h⟩, ⟨_, ⟨.connect o⟩, h⟩]

theorem mem_term : w ∈ term.sentences * K ↔ w ∈ ahead [ident] K ∨
    w ∈ ahead [lparen, cons, term, term, rparen] K ∨
    (∃ o : Unary, w ∈ ahead [lparen, o.kind, term, rparen] K) ∨
    w ∈ ahead [lparen, case, term, term, term, rparen] K ∨
    w ∈ ahead [lparen, lambda, lparen, ident, colon, ty, rparen, term, rparen] K := by
  rw [mem_sentences_mul_iff]
  constructor
  · rintro ⟨rhs, ⟨p⟩, h⟩
    cases p with
    | var => exact .inl h
    | pair => exact .inr (.inl h)
    | unary o => exact .inr (.inr (.inl ⟨o, h⟩))
    | case => exact .inr (.inr (.inr (.inl h)))
    | lambda => exact .inr (.inr (.inr (.inr h)))
  · rintro (h | h | ⟨o, h⟩ | h | h)
    exacts [⟨_, ⟨.var⟩, h⟩, ⟨_, ⟨.pair⟩, h⟩, ⟨_, ⟨.unary o⟩, h⟩, ⟨_, ⟨.case⟩, h⟩, ⟨_, ⟨.lambda⟩, h⟩]

theorem mem_context : w ∈ context.sentences * K ↔
    w ∈ ahead [lbrace, rbrace] K ∨ w ∈ ahead [lbrace, bindings, rbrace] K := by
  rw [mem_sentences_mul_iff]
  constructor
  · rintro ⟨rhs, ⟨p⟩, h⟩
    cases p with
    | noBindings => exact .inl h
    | someBindings => exact .inr h
  · rintro (h | h)
    exacts [⟨_, ⟨.noBindings⟩, h⟩, ⟨_, ⟨.someBindings⟩, h⟩]

/-- A nonterminal with one production. -/
theorem sentences_mul {n : Nonterminal} {rhs : List Symbol} (p : Production n rhs)
    (h : ∀ rhs', Production n rhs' → rhs' = rhs) : n.sentences * K = ahead rhs K := by
  ext w
  rw [mem_sentences_mul_iff]
  constructor
  · rintro ⟨rhs', ⟨q⟩, hw⟩
    rw [← h rhs' q]
    exact hw
  · exact fun hw => ⟨rhs, ⟨p⟩, hw⟩

theorem binding_mul : binding.sentences * K = ahead [ident, colon, ty] K :=
  sentences_mul .binding fun _ p => by cases p; rfl

theorem sequent_mul : sequent.sentences * K = ahead [context, turnstile, term, colon, ty] K :=
  sentences_mul .sequent fun _ p => by cases p; rfl

theorem derivation_mul :
    derivation.sentences * K = ahead [lparen, ident, sequent, premises, rparen] K :=
  sentences_mul .derivation fun _ p => by cases p; rfl

/-- What is written as a sequence of members is a sequence of what is written as one. -/
theorem kstar_written {α : Type} (y : α → List Lexeme) :
    KStar.kstar (written y) = written (List.flatMap y) := by
  ext w
  rw [Language.mem_kstar]
  constructor
  · rintro ⟨L, rfl, hL⟩
    induction L with
    | nil => exact ⟨[], rfl⟩
    | cons u L ih =>
      obtain ⟨a, ha⟩ := hL u List.mem_cons_self
      obtain ⟨as, has⟩ := ih fun v hv => hL v (List.mem_cons_of_mem u hv)
      exact ⟨a :: as, by rw [List.flatMap_cons, List.map_append, ha, has, List.flatten_cons]⟩
  · rintro ⟨as, rfl⟩
    refine ⟨as.map fun a => (y a).map Lexeme.kind, ?_, ?_⟩
    · rw [List.map_flatMap, List.flatMap_def]
    · rintro _ hu
      obtain ⟨a, -, rfl⟩ := List.mem_map.mp hu
      exact ⟨a, rfl⟩

theorem premises_sentences : premises.sentences = KStar.kstar derivation.sentences := by
  refine Eq.trans ?_ (kstar_written (@Tree.yield derivation)).symm
  ext w
  constructor
  · rintro ⟨t, rfl⟩
    obtain ⟨ds, rfl⟩ := t.exists_ofPremises
    exact ⟨ds, by rw [Tree.yield_ofPremises]⟩
  · rintro ⟨ds, rfl⟩
    exact ⟨.ofPremises ds, by rw [Tree.yield_ofPremises]⟩

/-- Bindings with a comma before each. -/
def commaBindings : Language TokenKind := KStar.kstar ({[comma]} * binding.sentences)

theorem commaBindings_eq : commaBindings = written (List.flatMap Tree.commaYield) := by
  rw [← kstar_written, commaBindings]
  congr 1
  ext w
  rw [Language.mem_mul]
  constructor
  · rintro ⟨_, rfl, _, ⟨b, rfl⟩, rfl⟩
    exact ⟨("", b), rfl⟩
  · rintro ⟨c, rfl⟩
    exact ⟨_, rfl, _, ⟨c.2, rfl⟩, rfl⟩

theorem bindings_sentences : bindings.sentences = binding.sentences * commaBindings := by
  rw [commaBindings_eq]
  ext w
  rw [mem_sentences_mul]
  constructor
  · rintro ⟨t, rfl⟩
    obtain ⟨b, cs, rfl⟩ := t.exists_addBindings
    exact ⟨b, _, ⟨cs, rfl⟩, by simp [Tree.yield_addBindings, Tree.yield, Forest.yield]⟩
  · rintro ⟨b, _, ⟨cs, rfl⟩, rfl⟩
    exact ⟨.addBindings (.node .oneBinding (.tree b .nil)) cs,
      by simp [Tree.yield_addBindings, Tree.yield, Forest.yield]⟩

theorem mem_kstar_mul {L : Language TokenKind} :
    w ∈ KStar.kstar L * K ↔ w ∈ K ∨ w ∈ L * (KStar.kstar L * K) := by
  conv_lhs => rw [← Language.one_add_self_mul_kstar_eq_kstar, add_mul, one_mul, mul_assoc]
  exact Language.mem_add _ _ _

theorem mem_premises :
    w ∈ premises.sentences * K ↔ w ∈ K ∨ w ∈ derivation.sentences * (premises.sentences * K) := by
  rw [premises_sentences]
  exact mem_kstar_mul

theorem mem_commaBindings :
    w ∈ commaBindings * K ↔ w ∈ K ∨ w ∈ ahead [comma, binding] (commaBindings * K) := by
  refine mem_kstar_mul.trans (or_congr_right ?_)
  rw [mul_assoc]
  rfl

end

/-! ## every nonterminal has sentences -/

section
variable {K : Language TokenKind}

/-- Something may come. -/
def Live (K : Language TokenKind) : Prop := ∃ w, w ∈ K

theorem nonempty_tree (n : Nonterminal) : Nonempty (Tree n) := by
  have A : Tree .ty := .node .base (.leaf "" .nil)
  have b : Tree .binding := .node .binding (.leaf "" (.leaf "" (.tree A .nil)))
  have t : Tree .term := .node .var (.leaf "" .nil)
  have Γ : Tree .context := .node .noBindings (.leaf "" (.leaf "" .nil))
  have s : Tree .sequent := .node .sequent (.tree Γ (.leaf "" (.tree t (.leaf "" (.tree A .nil)))))
  have e : Tree .empty := .node .empty .nil
  have ps : Tree .premises := .node .noPremises (.tree e .nil)
  cases n with
  | ty => exact ⟨A⟩
  | term => exact ⟨t⟩
  | context => exact ⟨Γ⟩
  | bindings => exact ⟨.node .oneBinding (.tree b .nil)⟩
  | binding => exact ⟨b⟩
  | sequent => exact ⟨s⟩
  | derivation => exact ⟨.node .derivation (.leaf "" (.leaf "" (.tree s (.tree ps (.leaf "" .nil)))))⟩
  | premises => exact ⟨ps⟩
  | empty => exact ⟨e⟩

theorem live_sentences_mul {n : Nonterminal} (hK : Live K) : Live (n.sentences * K) := by
  obtain ⟨t⟩ := nonempty_tree n
  obtain ⟨v, hv⟩ := hK
  exact ⟨_, mem_sentences_mul.mpr ⟨t, v, hv, rfl⟩⟩

theorem live_ahead {rhs : List Symbol} (hK : Live K) : Live (ahead rhs K) := by
  induction rhs with
  | nil => exact hK
  | cons s rhs ih =>
    cases s with
    | terminal k =>
      obtain ⟨w, hw⟩ := ih
      exact ⟨k :: w, cons_mem_ahead.mpr ⟨rfl, hw⟩⟩
    | nonterminal n => exact live_sentences_mul ih

end

end NaturalDeduction.Source

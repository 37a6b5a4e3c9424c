import NaturalDeduction.Syntax.Basic
import NaturalDeduction.Proofs.Lexing

/-!
# The grammar and its parse trees

    type        →  ident  |  bot  |  ( type o type )                          o = ->, ×, +
    term        →  ident  |  ( cons term term )  |  ( o term )                o = inl, inr, car, cdr, abort
                |  ( case term term term )  |  ( λ ( ident : type ) term )
    context     →  { }  |  { bindings }
    bindings    →  bindings , binding  |  binding
    binding     →  ident : type
    sequent     →  context ⊢ term : type
    derivation  →  ( ident sequent premises )
    premises    →  premises derivation  |  empty
    empty       →

* `Production`          the productions, by left and right side;
* `Tree`, `Forest`      parse trees, with the text of each token at its leaf;
* `Tree.yield`          the lexemes of a tree, from left to right;
* `Tree.value`          what a tree stands for. A context that binds a name twice and a derivation that
                        names no rule stand for nothing;
* `Rigid`               a tree that can be told from its lexemes, whatever comes after them;
* `Tree.rigid_derivation`   and before it one lemma for each other kind of tree: the grammar is
                        unambiguous.
-/

namespace NaturalDeduction.Source

inductive Nonterminal where
  | ty | term | context | bindings | binding | sequent | derivation | premises | empty
  deriving DecidableEq, Repr

/-- A symbol of the grammar. -/
inductive Symbol where
  | terminal (k : TokenKind)
  | nonterminal (n : Nonterminal)
  deriving DecidableEq, Repr

instance : Coe TokenKind Symbol := ⟨.terminal⟩

instance : Coe Nonterminal Symbol := ⟨.nonterminal⟩

/-- The connectives that stand between two types. -/
inductive Connective where
  | arrow | product | sum
  deriving DecidableEq, Repr

def Connective.kind : Connective → TokenKind
  | arrow => .arrow
  | product => .times
  | sum => .plus

def Connective.apply : Connective → Ty → Ty → Ty
  | arrow => .arrow
  | product => .product
  | sum => .sum

/-- The keywords that stand before one term. -/
inductive Unary where
  | inl | inr | fst | snd | abort
  deriving DecidableEq, Repr

def Unary.kind : Unary → TokenKind
  | inl => .inl
  | inr => .inr
  | fst => .car
  | snd => .cdr
  | abort => .abort

def Unary.apply : Unary → Term → Term
  | inl => .inl
  | inr => .inr
  | fst => .fst
  | snd => .snd
  | abort => .abort

section
open TokenKind Nonterminal

/-- The productions of the grammar. -/
inductive Production : Nonterminal → List Symbol → Type
  | base : Production ty [ident]
  | bottom : Production ty [bot]
  | connect (o : Connective) : Production ty [lparen, ty, o.kind, ty, rparen]
  | var : Production term [ident]
  | pair : Production term [lparen, cons, term, term, rparen]
  | unary (o : Unary) : Production term [lparen, o.kind, term, rparen]
  | case : Production term [lparen, case, term, term, term, rparen]
  | lambda : Production term [lparen, lambda, lparen, ident, colon, ty, rparen, term, rparen]
  | noBindings : Production context [lbrace, rbrace]
  | someBindings : Production context [lbrace, bindings, rbrace]
  | moreBindings : Production bindings [bindings, comma, binding]
  | oneBinding : Production bindings [binding]
  | binding : Production binding [ident, colon, ty]
  | sequent : Production sequent [context, turnstile, term, colon, ty]
  | derivation : Production derivation [lparen, ident, sequent, premises, rparen]
  | morePremises : Production premises [premises, derivation]
  | noPremises : Production premises [empty]
  | empty : Production empty []

end

mutual

/-- A parse tree for a nonterminal. -/
inductive Tree : Nonterminal → Type
  | node {n : Nonterminal} {rhs : List Symbol} (p : Production n rhs) (f : Forest rhs) : Tree n

/-- Parse trees for the symbols of a list. -/
inductive Forest : List Symbol → Type
  | nil : Forest []
  | leaf {k : TokenKind} {rhs : List Symbol} (text : String) (f : Forest rhs) :
      Forest (.terminal k :: rhs)
  | tree {n : Nonterminal} {rhs : List Symbol} (t : Tree n) (f : Forest rhs) :
      Forest (.nonterminal n :: rhs)

end

mutual

/-- The lexemes at the leaves. -/
def Tree.yield {n : Nonterminal} : Tree n → List Lexeme
  | .node _ f => f.yield

def Forest.yield {rhs : List Symbol} : Forest rhs → List Lexeme
  | .nil => []
  | @Forest.leaf k _ s f => ⟨k, s⟩ :: f.yield
  | .tree t f => t.yield ++ f.yield

end

/-! ## what a tree stands for -/

/-- What the trees for a nonterminal stand for. -/
abbrev Nonterminal.Value : Nonterminal → Type
  | ty => Ty
  | term => Term
  | context => Context
  | bindings => List (String × Ty)
  | binding => String × Ty
  | sequent => Sequent
  | derivation => Derivation
  | premises => List Derivation
  | empty => List Derivation

/-- What a lexeme stands for: an identifier for its text, and any other for no more than its kind. -/
def Lexeme.word (l : Lexeme) : String := if l.kind = .ident then l.text else ""

abbrev Symbol.Value : Symbol → Type
  | terminal _ => String
  | nonterminal n => n.Value

/-- Values for the symbols of a list. -/
inductive Values : List Symbol → Type
  | nil : Values []
  | cons {s : Symbol} {rhs : List Symbol} (v : s.Value) (vs : Values rhs) : Values (s :: rhs)

/-- What a production makes of the values of its right side. -/
def Production.act {n : Nonterminal} {rhs : List Symbol} :
    Production n rhs → Values rhs → Option n.Value
  | .base => fun (.cons x _) => some (.base x)
  | .bottom => fun _ => some .bottom
  | .connect o => fun (.cons _ (.cons A (.cons _ (.cons B _)))) => some (o.apply A B)
  | .var => fun (.cons x _) => some (.var x)
  | .pair => fun (.cons _ (.cons _ (.cons t (.cons u _)))) => some (.pair t u)
  | .unary o => fun (.cons _ (.cons _ (.cons t _))) => some (o.apply t)
  | .case => fun (.cons _ (.cons _ (.cons t (.cons u (.cons v _))))) => some (.case t u v)
  | .lambda =>
    fun (.cons _ (.cons _ (.cons _ (.cons x (.cons _ (.cons A (.cons _ (.cons t _)))))))) =>
      some (.lambda x A t)
  | .noBindings => fun _ => some .empty
  | .someBindings => fun (.cons _ (.cons bs _)) =>
    if h : (bs.map Prod.fst).Nodup then some ⟨bs, h⟩ else none
  | .moreBindings => fun (.cons bs (.cons _ (.cons b _))) => some (bs ++ [b])
  | .oneBinding => fun (.cons b _) => some [b]
  | .binding => fun (.cons x (.cons _ (.cons A _))) => some (x, A)
  | .sequent => fun (.cons Γ (.cons _ (.cons t (.cons _ (.cons A _))))) => some ⟨Γ, t, A⟩
  | .derivation => fun (.cons _ (.cons x (.cons s (.cons ds _)))) =>
    (Rule.ofTag? x).map fun R => .node R s ds
  | .morePremises => fun (.cons ds (.cons d _)) => some (ds ++ [d])
  | .noPremises => fun (.cons ds _) => some ds
  | .empty => fun _ => some []

mutual

/-- What a tree stands for. -/
def Tree.value {n : Nonterminal} : Tree n → Option n.Value
  | .node p f => f.values.bind p.act

def Forest.values {rhs : List Symbol} : Forest rhs → Option (Values rhs)
  | .nil => some .nil
  | @Forest.leaf k _ s f => f.values.map (.cons (Lexeme.word ⟨k, s⟩))
  | .tree t f => t.value.bind fun v => f.values.map (.cons v)

end

/-! ## lists of bindings and of premises -/

namespace Tree

/-- A tree of bindings with more bindings after it, each with the text of its comma. -/
def addBindings (t : Tree .bindings) (cs : List (String × Tree .binding)) : Tree .bindings :=
  cs.foldl (fun t c => .node .moreBindings (.tree t (.leaf c.1 (.tree c.2 .nil)))) t

/-- The tree of a list of premises. -/
def ofPremises (ds : List (Tree .derivation)) : Tree .premises :=
  ds.foldl (fun t d => .node .morePremises (.tree t (.tree d .nil)))
    (.node .noPremises (.tree (.node .empty .nil) .nil))

theorem exists_addBindings : (t : Tree .bindings) →
    ∃ b cs, t = addBindings (.node .oneBinding (.tree b .nil)) cs
  | .node .oneBinding (.tree b .nil) => ⟨b, [], rfl⟩
  | .node .moreBindings (.tree t (.leaf x (.tree c .nil))) => by
    obtain ⟨b, cs, rfl⟩ := exists_addBindings t
    exact ⟨b, cs ++ [(x, c)], by rw [addBindings, addBindings, List.foldl_append]; rfl⟩

theorem exists_ofPremises : (t : Tree .premises) → ∃ ds, t = ofPremises ds
  | .node .noPremises (.tree (.node .empty .nil) .nil) => ⟨[], rfl⟩
  | .node .morePremises (.tree t (.tree d .nil)) => by
    obtain ⟨ds, rfl⟩ := exists_ofPremises t
    exact ⟨ds ++ [d], by rw [ofPremises, ofPremises, List.foldl_append]; rfl⟩

/-- The lexemes of a binding with the comma before it. -/
def commaYield (c : String × Tree .binding) : List Lexeme := ⟨.comma, c.1⟩ :: c.2.yield

theorem yield_addBindings (t : Tree .bindings) (cs : List (String × Tree .binding)) :
    (addBindings t cs).yield = t.yield ++ cs.flatMap commaYield := by
  induction cs generalizing t with
  | nil => exact (List.append_nil _).symm
  | cons c cs ih =>
    refine (ih _).trans ?_
    simp [Tree.yield, Forest.yield, commaYield]

theorem yield_ofPremises (ds : List (Tree .derivation)) :
    (ofPremises ds).yield = ds.flatMap yield := by
  have step : ∀ t : Tree .premises,
      (ds.foldl (fun t d => .node .morePremises (.tree t (.tree d .nil))) t).yield =
        t.yield ++ ds.flatMap yield := by
    induction ds with
    | nil => exact fun t => (List.append_nil _).symm
    | cons d ds ih =>
      intro t
      refine (ih _).trans ?_
      simp [Tree.yield, Forest.yield]
  exact (step _).trans (by simp [Tree.yield, Forest.yield])

end Tree

/-! ## no list of lexemes has two trees -/

/-- What `a` is written as can be told from what follows it: no other member is written as a part of it
or starts with it. -/
def Rigid {α : Type} (y : α → List Lexeme) (a : α) : Prop :=
  ∀ a' r s, y a ++ r = y a' ++ s → a = a' ∧ r = s

/-- The lexemes do not start with one of kind `k`. -/
def Avoids (k : TokenKind) (r : List Lexeme) : Prop := ∀ l ∈ r.head?, l.kind ≠ k

theorem Rigid.eq {α : Type} {y : α → List Lexeme} {a a' : α} (h : Rigid y a) (e : y a = y a') :
    a = a' :=
  (h a' [] [] (by rw [e])).1

theorem avoids_cons {k : TokenKind} {l : Lexeme} {r : List Lexeme} :
    Avoids k (l :: r) ↔ l.kind ≠ k := by
  simp [Avoids]

/-- Of a sequence of members that all start with a lexeme of one kind, it can be told where it ends. -/
theorem flatMap_rigid {α : Type} {y : α → List Lexeme} {k : TokenKind}
    (hk : ∀ a, ∃ x l, y a = ⟨k, x⟩ :: l) {as as' : List α} (h : ∀ a ∈ as, Rigid y a)
    {r s : List Lexeme} (hr : Avoids k r) (hs : Avoids k s)
    (e : as.flatMap y ++ r = as'.flatMap y ++ s) : as = as' ∧ r = s := by
  induction as generalizing as' with
  | nil =>
    cases as' with
    | nil => exact ⟨rfl, e⟩
    | cons a as' =>
      obtain ⟨x, l, ha⟩ := hk a
      have hr' : r = ⟨k, x⟩ :: (l ++ as'.flatMap y ++ s) := by simpa [ha] using e
      rw [hr', avoids_cons] at hr
      exact absurd rfl hr
  | cons a as ih =>
    cases as' with
    | nil =>
      obtain ⟨x, l, ha⟩ := hk a
      have hs' : s = ⟨k, x⟩ :: (l ++ as.flatMap y ++ r) := by simpa [ha] using e.symm
      rw [hs', avoids_cons] at hs
      exact absurd rfl hs
    | cons a' as' =>
      rw [List.flatMap_cons, List.flatMap_cons, List.append_assoc, List.append_assoc] at e
      obtain ⟨rfl, e'⟩ := h a List.mem_cons_self a' _ _ e
      obtain ⟨rfl, rfl⟩ := ih (fun b hb => h b (List.mem_cons_of_mem a hb)) e'
      exact ⟨rfl, rfl⟩

namespace Forest

theorem eq_leaf {k : TokenKind} {rhs : List Symbol} (f : Forest (.terminal k :: rhs)) :
    ∃ s g, f = .leaf s g := by
  cases f
  exact ⟨_, _, rfl⟩

theorem eq_tree {n : Nonterminal} {rhs : List Symbol} (f : Forest (.nonterminal n :: rhs)) :
    ∃ t g, f = .tree t g := by
  cases f
  exact ⟨_, _, rfl⟩

theorem rigid_nil : Rigid yield .nil := by
  intro f r s e
  cases f
  exact ⟨rfl, e⟩

theorem rigid_leaf {k : TokenKind} {rhs : List Symbol} {x : String} {f : Forest rhs}
    (hf : Rigid yield f) : Rigid yield (.leaf x f : Forest (.terminal k :: rhs)) := by
  intro f' r s e
  obtain ⟨x', g, rfl⟩ := f'.eq_leaf
  simp only [yield, List.cons_append, List.cons.injEq, Lexeme.mk.injEq, true_and] at e
  obtain ⟨rfl, e⟩ := e
  obtain ⟨rfl, rfl⟩ := hf g r s e
  exact ⟨rfl, rfl⟩

theorem rigid_tree {n : Nonterminal} {rhs : List Symbol} {t : Tree n} {f : Forest rhs}
    (ht : Rigid Tree.yield t) (hf : Rigid yield f) : Rigid yield (.tree t f) := by
  intro f' r s e
  obtain ⟨t', g, rfl⟩ := f'.eq_tree
  simp only [yield, List.append_assoc] at e
  obtain ⟨rfl, e'⟩ := ht t' _ _ e
  obtain ⟨rfl, rfl⟩ := hf g r s e'
  exact ⟨rfl, rfl⟩

/-- A forest is rigid if all trees that fit into it are. -/
theorem rigid {rhs : List Symbol} : (f : Forest rhs) → (h : ∀ n, .nonterminal n ∈ rhs →
    ∀ t : Tree n, t.yield.length ≤ f.yield.length → Rigid Tree.yield t) → Rigid yield f
  | .nil, _ => rigid_nil
  | .leaf _ f, h => rigid_leaf (f.rigid fun n hn t ht =>
      h n (List.mem_cons_of_mem _ hn) t (by rw [yield, List.length_cons]; omega))
  | .tree t f, h => rigid_tree (h _ List.mem_cons_self t (by rw [yield, List.length_append]; omega))
      (f.rigid fun n hn t ht =>
        h n (List.mem_cons_of_mem _ hn) t (by rw [yield, List.length_append]; omega))

end Forest

/-- The terminals with which a right side starts. -/
def lead : List Symbol → List TokenKind
  | .terminal k :: rhs => k :: lead rhs
  | _ => []

theorem Forest.lead_prefix {rhs : List Symbol} :
    (f : Forest rhs) → lead rhs <+: f.yield.map Lexeme.kind
  | .nil => List.prefix_rfl
  | .leaf s f => by
    rw [Forest.yield, List.map_cons]
    exact (List.prefix_cons_inj _).mpr f.lead_prefix
  | .tree t f => List.nil_prefix

/-- If two forests have a common start, their first terminals agree. -/
theorem lead_comparable {rhs rhs' : List Symbol} {f : Forest rhs} {f' : Forest rhs'}
    {r s : List Lexeme} (e : f.yield ++ r = f'.yield ++ s) :
    lead rhs <+: lead rhs' ∨ lead rhs' <+: lead rhs := by
  have h : lead rhs <+: (f.yield ++ r).map Lexeme.kind := by
    rw [List.map_append]
    exact f.lead_prefix.trans (List.prefix_append _ _)
  have h' : lead rhs' <+: (f.yield ++ r).map Lexeme.kind := by
    rw [e, List.map_append]
    exact f'.lead_prefix.trans (List.prefix_append _ _)
  exact List.prefix_or_prefix_of_prefix h h'

theorem Connective.kind_injective {o o' : Connective} (h : o.kind = o'.kind) : o = o' := by
  cases o <;> cases o' <;> first | rfl | cases h

/-- The production of a term is told by its first two lexemes. -/
theorem Production.term_unique {rhs rhs' : List Symbol} (p : Production .term rhs)
    (p' : Production .term rhs') (h : lead rhs <+: lead rhs' ∨ lead rhs' <+: lead rhs) :
    (⟨rhs, p⟩ : (l : List Symbol) × Production .term l) = ⟨rhs', p'⟩ := by
  cases p with
  | unary o =>
    cases p' with
    | unary o' =>
      have hk : o.kind = o'.kind := by simpa [lead, eq_comm] using h
      obtain rfl : o = o' := by cases o <;> cases o' <;> first | rfl | cases hk
      rfl
    | _ => cases o <;> simp [lead, Unary.kind] at h
  | _ =>
    cases p' with
    | unary o => cases o <;> simp [lead, Unary.kind] at h
    | _ => first | rfl | simp [lead] at h

theorem Production.part_of_term {rhs : List Symbol} (p : Production .term rhs) (n : Nonterminal)
    (h : .nonterminal n ∈ rhs) : n = .ty ∨ n = .term := by
  cases p <;> simp at h <;> simp [h]

namespace Tree
open Forest

theorem rigid_node {n : Nonterminal} {rhs : List Symbol} {p : Production n rhs} {f : Forest rhs}
    (hf : Rigid Forest.yield f) {f' : Forest rhs} {r s : List Lexeme}
    (e : (node p f).yield ++ r = (node p f').yield ++ s) : node p f = node p f' ∧ r = s := by
  obtain ⟨rfl, rfl⟩ := hf f' r s e
  exact ⟨rfl, rfl⟩

theorem rigid_ty (t : Tree .ty) : Rigid yield t := by
  induction hn : t.yield.length using Nat.strongRecOn generalizing t with
  | ind n ih =>
    subst hn
    obtain ⟨p, f⟩ := t
    rintro ⟨p', f'⟩ r s e
    have hl := lead_comparable e
    cases p with
    | base =>
      cases p' with
      | base => exact rigid_node (f.rigid (by simp)) e
      | bottom | connect => simp [lead] at hl
    | bottom =>
      cases p' with
      | bottom => exact rigid_node (f.rigid (by simp)) e
      | base | connect => simp [lead] at hl
    | connect o =>
      cases p' with
      | base | bottom => simp [lead] at hl
      | connect o' =>
        obtain ⟨x, g, rfl⟩ := f.eq_leaf
        have hsub : ∀ u : Tree .ty, u.yield.length ≤ g.yield.length → Rigid yield u := fun u hu =>
          ih _ (by rw [yield, Forest.yield, List.length_cons]; omega) u rfl
        -- the first types agree, so the two connectives stand at the same place
        obtain rfl : o = o' := by
          obtain ⟨a, g, rfl⟩ := g.eq_tree
          obtain ⟨y, g, rfl⟩ := g.eq_leaf
          obtain ⟨x', g', rfl⟩ := f'.eq_leaf
          obtain ⟨a', g', rfl⟩ := g'.eq_tree
          obtain ⟨y', g', rfl⟩ := g'.eq_leaf
          have ha := hsub a (by rw [Forest.yield, List.length_append]; omega)
          simp only [yield, Forest.yield, List.cons_append, List.append_assoc, List.cons.injEq] at e
          have e' := (ha a' _ _ e.2).2
          simp only [List.cons.injEq, Lexeme.mk.injEq] at e'
          exact Connective.kind_injective e'.1.1
        refine rigid_node (rigid_leaf (g.rigid fun m hm u hu => ?_)) e
        obtain rfl : m = .ty := by simpa using hm
        exact hsub u hu

theorem rigid_of_term {rhs : List Symbol} {p : Production .term rhs} {f : Forest rhs}
    (hf : Rigid Forest.yield f) : Rigid yield (node p f) := by
  rintro ⟨p', f'⟩ r s e
  cases Production.term_unique p p' (lead_comparable e)
  exact rigid_node hf e

theorem rigid_term (t : Tree .term) : Rigid yield t := by
  induction hn : t.yield.length using Nat.strongRecOn generalizing t with
  | ind n ih =>
    subst hn
    obtain ⟨p, f⟩ := t
    refine rigid_of_term ?_
    have hparts := p.part_of_term
    cases p
    all_goals
      obtain ⟨x, g, rfl⟩ := f.eq_leaf
      refine rigid_leaf (g.rigid fun m hm u hu => ?_)
      obtain rfl | rfl := hparts m (List.mem_cons_of_mem _ hm)
      · exact rigid_ty u
      · exact ih _ (by rw [yield, Forest.yield, List.length_cons]; omega) u rfl

theorem rigid_binding (t : Tree .binding) : Rigid yield t := by
  obtain ⟨⟨⟩, f⟩ := t
  rintro ⟨⟨⟩, f'⟩ r s e
  refine rigid_node (f.rigid fun m hm u _ => ?_) e
  obtain rfl : m = .ty := by simpa using hm
  exact rigid_ty u

theorem bindings_unique {t t' : Tree .bindings} {r s : List Lexeme} (hr : Avoids .comma r)
    (hs : Avoids .comma s) (e : t.yield ++ r = t'.yield ++ s) : t = t' ∧ r = s := by
  obtain ⟨b, cs, rfl⟩ := exists_addBindings t
  obtain ⟨b', cs', rfl⟩ := exists_addBindings t'
  simp only [yield_addBindings, yield, Forest.yield, List.append_nil, List.append_assoc] at e
  obtain ⟨rfl, e'⟩ := rigid_binding b b' _ _ e
  have hc : ∀ c : String × Tree .binding, Rigid commaYield c := by
    rintro ⟨x, b⟩ ⟨x', b'⟩ r s e
    simp only [commaYield, List.cons_append, List.cons.injEq, Lexeme.mk.injEq, true_and] at e
    obtain ⟨rfl, e⟩ := e
    obtain ⟨rfl, rfl⟩ := rigid_binding b b' r s e
    exact ⟨rfl, rfl⟩
  obtain ⟨rfl, rfl⟩ := flatMap_rigid (fun c => ⟨_, _, rfl⟩) (fun c _ => hc c) hr hs e'
  exact ⟨rfl, rfl⟩

theorem exists_ident_of_bindings (t : Tree .bindings) : ∃ x l, t.yield = ⟨.ident, x⟩ :: l := by
  obtain ⟨⟨⟨⟩, f⟩, cs, rfl⟩ := exists_addBindings t
  obtain ⟨x, f, rfl⟩ := f.eq_leaf
  rw [yield_addBindings]
  exact ⟨x, _, rfl⟩

theorem noBindings_ne_someBindings (f : Forest [.terminal .lbrace, .terminal .rbrace])
    (f' : Forest [.terminal .lbrace, .nonterminal .bindings, .terminal .rbrace])
    {r s : List Lexeme} :
    (node .noBindings f).yield ++ r ≠ (node .someBindings f').yield ++ s := by
  obtain ⟨x, f, rfl⟩ := f.eq_leaf
  obtain ⟨y, f, rfl⟩ := f.eq_leaf
  obtain ⟨x', f', rfl⟩ := f'.eq_leaf
  obtain ⟨bs, f', rfl⟩ := f'.eq_tree
  obtain ⟨z, l, hl⟩ := exists_ident_of_bindings bs
  simp [yield, Forest.yield, hl]

theorem rigid_context (t : Tree .context) : Rigid yield t := by
  obtain ⟨p, f⟩ := t
  rintro ⟨p', f'⟩ r s e
  cases p with
  | noBindings =>
    cases p' with
    | noBindings => exact rigid_node (f.rigid (by simp)) e
    | someBindings => exact absurd e (noBindings_ne_someBindings f f')
  | someBindings =>
    cases p' with
    | noBindings => exact absurd e.symm (noBindings_ne_someBindings f' f)
    | someBindings =>
      obtain ⟨x, f, rfl⟩ := f.eq_leaf
      obtain ⟨bs, f, rfl⟩ := f.eq_tree
      obtain ⟨y, ⟨⟩, rfl⟩ := f.eq_leaf
      obtain ⟨x', f', rfl⟩ := f'.eq_leaf
      obtain ⟨bs', f', rfl⟩ := f'.eq_tree
      obtain ⟨y', ⟨⟩, rfl⟩ := f'.eq_leaf
      simp only [yield, Forest.yield, List.cons_append, List.append_assoc, List.cons.injEq,
        Lexeme.mk.injEq, true_and, List.nil_append] at e
      obtain ⟨rfl, e⟩ := e
      obtain ⟨rfl, e'⟩ := bindings_unique (avoids_cons.mpr (by simp)) (avoids_cons.mpr (by simp)) e
      simp only [List.cons.injEq, Lexeme.mk.injEq, true_and] at e'
      obtain ⟨rfl, rfl⟩ := e'
      exact ⟨rfl, rfl⟩

theorem rigid_sequent (t : Tree .sequent) : Rigid yield t := by
  obtain ⟨⟨⟩, f⟩ := t
  rintro ⟨⟨⟩, f'⟩ r s e
  refine rigid_node (f.rigid fun m hm u _ => ?_) e
  obtain rfl | rfl | rfl : m = .context ∨ m = .term ∨ m = .ty := by simpa using hm
  · exact rigid_context u
  · exact rigid_term u
  · exact rigid_ty u

theorem exists_lparen_of_derivation (t : Tree .derivation) :
    ∃ x l, t.yield = ⟨.lparen, x⟩ :: l := by
  obtain ⟨⟨⟩, f⟩ := t
  obtain ⟨x, f, rfl⟩ := f.eq_leaf
  exact ⟨x, _, rfl⟩

theorem rigid_derivation (t : Tree .derivation) : Rigid yield t := by
  induction hn : t.yield.length using Nat.strongRecOn generalizing t with
  | ind n ih =>
    subst hn
    rintro ⟨⟨⟩, f'⟩ r s e
    obtain ⟨⟨⟩, f⟩ := t
    obtain ⟨x, f, rfl⟩ := f.eq_leaf
    obtain ⟨y, f, rfl⟩ := f.eq_leaf
    obtain ⟨q, f, rfl⟩ := f.eq_tree
    obtain ⟨ps, f, rfl⟩ := f.eq_tree
    obtain ⟨z, ⟨⟩, rfl⟩ := f.eq_leaf
    obtain ⟨x', f', rfl⟩ := f'.eq_leaf
    obtain ⟨y', f', rfl⟩ := f'.eq_leaf
    obtain ⟨q', f', rfl⟩ := f'.eq_tree
    obtain ⟨ps', f', rfl⟩ := f'.eq_tree
    obtain ⟨z', ⟨⟩, rfl⟩ := f'.eq_leaf
    obtain ⟨ds, rfl⟩ := exists_ofPremises ps
    obtain ⟨ds', rfl⟩ := exists_ofPremises ps'
    have hds : ∀ d ∈ ds, Rigid yield d := by
      intro d hd
      obtain ⟨l, l', rfl⟩ := List.append_of_mem hd
      refine ih _ ?_ d rfl
      simp [yield, Forest.yield, yield_ofPremises]
      omega
    simp only [yield, Forest.yield, yield_ofPremises, List.cons_append, List.append_assoc,
      List.nil_append, List.cons.injEq, Lexeme.mk.injEq, true_and] at e
    obtain ⟨rfl, rfl, e⟩ := e
    obtain ⟨rfl, e'⟩ := rigid_sequent q q' _ _ e
    obtain ⟨rfl, e''⟩ := flatMap_rigid exists_lparen_of_derivation hds (avoids_cons.mpr (by simp))
      (avoids_cons.mpr (by simp)) e'
    simp only [List.cons.injEq, Lexeme.mk.injEq, true_and] at e''
    obtain ⟨rfl, rfl⟩ := e''
    exact ⟨rfl, rfl⟩

end Tree

end NaturalDeduction.Source

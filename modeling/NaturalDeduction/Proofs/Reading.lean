import NaturalDeduction.Source.Parser
import NaturalDeduction.Proofs.ParseTree
import Mathlib.Data.List.Induction

/-!
# The readers accept the grammar

* `Spans n v ts r`     the tokens of `ts` before its rest `r` have a tree for `n` with value `v`;
* `Yields x v r`       a reader gives the value `v` and leaves the tokens `r`;
* `yields_readTy_iff`, …, `yields_readDerivation_iff`   what a reader gives is what its tokens span;
* `Tree.exists_respelled`   a tree keeps its value when its tokens are spelled in another way;
* `parse_reads_grammar`     a whole text is read as `v` exactly if its lexemes have a tree with value
                       `v`. There is at most one tree, and neither layout nor spelling changes the value.
-/

namespace NaturalDeduction.Source

/-! ## what tokens span -/

/-- The tokens of `ts` before its rest `r` have a parse tree for `n` with value `v`. -/
def Spans (n : Nonterminal) (v : n.Value) (ts r : List Token) : Prop :=
  ∃ t : Tree n, t.value = some v ∧ ∃ us, ts = us ++ r ∧ us.map Token.lexeme = t.yield

/-- The tokens of `ts` before its rest `r` have parse trees for the symbols of `rhs`. -/
def SpansAll (rhs : List Symbol) (vs : Values rhs) (ts r : List Token) : Prop :=
  ∃ f : Forest rhs, f.values = some vs ∧ ∃ us, ts = us ++ r ∧ us.map Token.lexeme = f.yield

section
variable {n : Nonterminal} {k : TokenKind} {rhs : List Symbol} {ts m r : List Token}

theorem SpansAll.nil : SpansAll [] .nil r r := ⟨.nil, rfl, [], rfl, rfl⟩

theorem SpansAll.token {vs : Values rhs} {t : Token} (ht : t.kind = k) (h : SpansAll rhs vs m r) :
    SpansAll (.terminal k :: rhs) (.cons t.lexeme.word vs) (t :: m) r := by
  subst ht
  obtain ⟨f, hf, us, rfl, hus⟩ := h
  refine ⟨.leaf t.text f, by rw [Forest.values, hf]; rfl, t :: us, rfl, ?_⟩
  rw [List.map_cons, hus]
  rfl

theorem SpansAll.part {v : n.Value} {vs : Values rhs} (hv : Spans n v ts m)
    (h : SpansAll rhs vs m r) : SpansAll (.nonterminal n :: rhs) (.cons v vs) ts r := by
  obtain ⟨t, ht, us, rfl, hus⟩ := hv
  obtain ⟨f, hf, us', rfl, hus'⟩ := h
  refine ⟨.tree t f, by rw [Forest.values, ht, hf]; rfl, us ++ us', by rw [List.append_assoc], ?_⟩
  rw [List.map_append, hus, hus']
  rfl

theorem Spans.node {v : n.Value} {vs : Values rhs} (p : Production n rhs) (h : SpansAll rhs vs ts r)
    (hv : p.act vs = some v) : Spans n v ts r := by
  obtain ⟨f, hf, us, hts, hus⟩ := h
  exact ⟨.node p f, by rw [Tree.value, hf, Option.bind_some, hv], us, hts, hus⟩

theorem SpansAll.of_nil {vs : Values []} (h : SpansAll [] vs ts r) : vs = .nil ∧ ts = r := by
  obtain ⟨f, -, us, rfl, hus⟩ := h
  cases f
  cases vs
  rw [Forest.yield, List.map_eq_nil_iff] at hus
  rw [hus]
  exact ⟨rfl, rfl⟩

theorem SpansAll.of_token {vs : Values (.terminal k :: rhs)}
    (h : SpansAll (.terminal k :: rhs) vs ts r) :
    ∃ t m vs', ts = t :: m ∧ t.kind = k ∧ vs = .cons t.lexeme.word vs' ∧ SpansAll rhs vs' m r := by
  obtain ⟨f, hf, us, rfl, hus⟩ := h
  obtain ⟨s, f, rfl⟩ := f.eq_leaf
  obtain ⟨vs', hf', rfl⟩ := Option.map_eq_some_iff.mp hf
  obtain ⟨t, us, rfl, ht, hus'⟩ := List.map_eq_cons_iff.mp hus
  obtain rfl : t.kind = k := congrArg Lexeme.kind ht
  obtain rfl : t.text = s := congrArg Lexeme.text ht
  exact ⟨t, us ++ r, vs', rfl, rfl, rfl, f, hf', us, rfl, hus'⟩

theorem SpansAll.of_part {vs : Values (.nonterminal n :: rhs)}
    (h : SpansAll (.nonterminal n :: rhs) vs ts r) :
    ∃ v m vs', vs = .cons v vs' ∧ Spans n v ts m ∧ SpansAll rhs vs' m r := by
  obtain ⟨f, hf, us, rfl, hus⟩ := h
  obtain ⟨t, f, rfl⟩ := f.eq_tree
  obtain ⟨v, hv, hf'⟩ := Option.bind_eq_some_iff.mp hf
  obtain ⟨vs', hvs, rfl⟩ := Option.map_eq_some_iff.mp hf'
  obtain ⟨us, us', rfl, ht, hus'⟩ := List.map_eq_append_iff.mp hus
  exact ⟨v, us' ++ r, vs', rfl, ⟨t, hv, us, by rw [List.append_assoc], ht⟩, f, hvs, us', rfl, hus'⟩

theorem Spans.of_node {v : n.Value} (h : Spans n v ts r) :
    ∃ (rhs : List Symbol) (p : Production n rhs) (vs : Values rhs),
      SpansAll rhs vs ts r ∧ p.act vs = some v := by
  obtain ⟨⟨p, f⟩, hv, us, hts, hus⟩ := h
  obtain ⟨vs, hf, hact⟩ := Option.bind_eq_some_iff.mp hv
  exact ⟨_, p, vs, ⟨f, hf, us, hts, hus⟩, hact⟩

end

/-! ## steps of a reader -/

/-- The reader gives the value `a` and leaves the tokens `r`. -/
def Yields {α : Type} {P : List Token → Prop} (x : Except Fault (α × { r // P r })) (a : α)
    (r : List Token) : Prop := ∃ h, x = .ok (a, ⟨r, h⟩)

section
variable {α β : Type} {P Q : List Token → Prop} {ts m r : List Token} {a : α} {b : β}

theorem Yields.ok {h : P r} : Yields (.ok (a, ⟨r, h⟩)) a r := ⟨h, rfl⟩

theorem yields_ok_iff {a' : α} {h : P m} : Yields (.ok (a', ⟨m, h⟩)) a r ↔ a' = a ∧ m = r := by
  constructor
  · rintro ⟨_, e⟩
    cases e
    exact ⟨rfl, rfl⟩
  · rintro ⟨rfl, rfl⟩
    exact .ok

theorem not_yields_error {f : Fault} :
    ¬ Yields (.error f : Except Fault (α × { r // P r })) a r := nofun

theorem Yields.bind {x : Except Fault (α × { r // P r })}
    {f : α × { r // P r } → Except Fault (β × { r // Q r })} (hx : Yields x a m)
    (hf : ∀ h, Yields (f (a, ⟨m, h⟩)) b r) : Yields (x >>= f) b r := by
  obtain ⟨h, rfl⟩ := hx
  exact hf h

theorem Yields.length_lt {x : Read α ts} (h : Yields x a m) : m.length < ts.length := by
  obtain ⟨h, -⟩ := h
  exact h

theorem yields_bind_iff {x : Except Fault (α × { r // P r })}
    {f : α × { r // P r } → Except Fault (β × { r // Q r })} :
    Yields (x >>= f) b r ↔ ∃ a m, Yields x a m ∧ ∃ h, Yields (f (a, ⟨m, h⟩)) b r := by
  constructor
  · intro h
    cases x with
    | error e => exact absurd h not_yields_error
    | ok p => exact ⟨p.1, p.2.1, .ok, p.2.2, h⟩
  · rintro ⟨a, m, ⟨h, rfl⟩, _, hf⟩
    exact hf

theorem yields_lift_bind_iff {γ : Type} {x : Except Fault γ}
    {f : γ → Except Fault (β × { r // Q r })} :
    Yields (x >>= f) b r ↔ ∃ a, x = .ok a ∧ Yields (f a) b r := by
  cases x with
  | error e => exact ⟨fun h => absurd h not_yields_error, fun ⟨a, h, _⟩ => nomatch h⟩
  | ok a => exact ⟨fun h => ⟨a, rfl, h⟩, fun ⟨_, rfl, h⟩ => h⟩

theorem next_bind {t : Token} {f : Token × Shorter (t :: m) → Except Fault (β × { r // Q r })} :
    next (t :: m) >>= f = f (t, ⟨m, Nat.lt_succ_self _⟩) := rfl

theorem yields_next_iff {t : Token} : Yields (next ts) t r ↔ ts = t :: r := by
  cases ts with
  | nil => simp [next, not_yields_error]
  | cons t' m => rw [next, yields_ok_iff, List.cons.injEq]

theorem yields_expect_iff {k : TokenKind} {t : Token} :
    Yields (expect k ts) t r ↔ ts = t :: r ∧ t.kind = k := by
  rw [expect, yields_bind_iff]
  constructor
  · rintro ⟨t', m, ht, _, h⟩
    obtain rfl := yields_next_iff.mp ht
    simp only at h
    split at h
    case isTrue hk =>
      obtain ⟨rfl, rfl⟩ := yields_ok_iff.mp h
      exact ⟨rfl, hk⟩
    case isFalse => exact absurd h not_yields_error
  · rintro ⟨rfl, hk⟩
    refine ⟨t, r, yields_next_iff.mpr rfl, by simp, ?_⟩
    simp only [hk, if_true]
    exact .ok

end

/-! ## types and terms -/

theorem connective?_eq_some_iff {k : TokenKind} {mk : Ty → Ty → Ty} :
    connective? k = some mk ↔ ∃ o : Connective, k = o.kind ∧ mk = o.apply := by
  constructor
  · intro h
    unfold connective? at h
    split at h
    case h_4 => cases h
    all_goals cases h
    exacts [⟨.arrow, rfl, rfl⟩, ⟨.product, rfl, rfl⟩, ⟨.sum, rfl, rfl⟩]
  · rintro ⟨o, rfl, rfl⟩
    cases o <;> rfl

theorem yields_readConnective_iff {ts r : List Token} {mk : Ty → Ty → Ty} :
    Yields (readConnective ts) mk r ↔
      ∃ c, ts = c :: r ∧ ∃ o : Connective, c.kind = o.kind ∧ mk = o.apply := by
  rw [readConnective, yields_bind_iff]
  constructor
  · rintro ⟨c, m, hc, _, h⟩
    obtain rfl := yields_next_iff.mp hc
    simp only at h
    split at h
    case h_1 mk' hmk =>
      obtain ⟨rfl, rfl⟩ := yields_ok_iff.mp h
      exact ⟨c, rfl, connective?_eq_some_iff.mp hmk⟩
    case h_2 => exact absurd h not_yields_error
  · rintro ⟨c, rfl, ho⟩
    refine ⟨c, r, yields_next_iff.mpr rfl, by simp, ?_⟩
    simp only [connective?_eq_some_iff.mpr ho]
    exact .ok

theorem word_of_ident {t : Token} (h : t.kind = .ident) : t.lexeme.word = t.text := if_pos h

theorem spans_of_readTy {n : Nat} {ts r : List Token} {A : Ty} (hn : ts.length < n)
    (h : Yields (readTy ts) A r) : Spans .ty A ts r := by
  -- on a bound for the tokens: the second type is read from what the first one leaves
  induction n generalizing ts r A with
  | zero => exact absurd hn (Nat.not_lt_zero _)
  | succ n ih =>
    cases ts with
    | nil => exact absurd h (by rw [readTy]; exact not_yields_error)
    | cons t m =>
      rw [List.length_cons] at hn
      rw [readTy, next_bind] at h
      simp only at h
      split at h
      case h_1 hk =>
        obtain ⟨rfl, rfl⟩ := yields_ok_iff.mp h
        exact .node .base (.token hk .nil) (by rw [word_of_ident hk]; rfl)
      case h_2 hk =>
        obtain ⟨rfl, rfl⟩ := yields_ok_iff.mp h
        exact .node .bottom (.token hk .nil) rfl
      case h_3 hk =>
        simp only [yields_bind_iff, yields_readConnective_iff, yields_expect_iff, yields_ok_iff,
          exists_prop] at h
        obtain ⟨B, _, hB, hm₁, _, m₂, ⟨c, rfl, o, hc, rfl⟩, hm₂, C, _, hC, -, q, _, ⟨rfl, hq⟩, -,
          rfl, rfl⟩ := h
        have hB := ih (by omega) hB
        have hC := ih (by omega) hC
        exact .node (.connect o) (.token hk (.part hB (.token hc (.part hC (.token hq .nil))))) rfl
      case h_4 => exact absurd h not_yields_error

theorem readTy_of_spans {n : Nat} {ts r : List Token} {A : Ty} (hn : ts.length < n)
    (h : Spans .ty A ts r) : Yields (readTy ts) A r := by
  induction n generalizing ts r A with
  | zero => exact absurd hn (Nat.not_lt_zero _)
  | succ n ih =>
    obtain ⟨rhs, p, vs, h₀, hv⟩ := h.of_node
    cases p with
    | base =>
      obtain ⟨x, m, vs, rfl, hx, rfl, h₁⟩ := h₀.of_token
      obtain ⟨rfl, rfl⟩ := h₁.of_nil
      obtain rfl : .base x.lexeme.word = A := Option.some.inj hv
      rw [readTy, next_bind, word_of_ident hx]
      simp only [hx]
      exact .ok
    | bottom =>
      obtain ⟨x, m, vs, rfl, hx, rfl, h₁⟩ := h₀.of_token
      obtain ⟨rfl, rfl⟩ := h₁.of_nil
      obtain rfl : .bottom = A := Option.some.inj hv
      rw [readTy, next_bind]
      simp only [hx]
      exact .ok
    | connect o =>
      obtain ⟨x, m, vs, rfl, hx, rfl, h₁⟩ := h₀.of_token
      obtain ⟨B, _, vs, rfl, hB, h₂⟩ := h₁.of_part
      obtain ⟨c, m₂, vs, rfl, hc, rfl, h₃⟩ := h₂.of_token
      obtain ⟨C, _, vs, rfl, hC, h₄⟩ := h₃.of_part
      obtain ⟨q, _, vs, rfl, hq, rfl, h₅⟩ := h₄.of_token
      obtain ⟨rfl, rfl⟩ := h₅.of_nil
      obtain rfl : o.apply B C = A := Option.some.inj hv
      rw [List.length_cons] at hn
      have hB := ih (by omega) hB
      have hm₁ := hB.length_lt
      rw [List.length_cons] at hm₁
      have hC := ih (by omega) hC
      rw [readTy, next_bind]
      simp only [hx]
      refine hB.bind fun _ => ?_
      refine (yields_readConnective_iff.mpr ⟨c, rfl, o, hc, rfl⟩).bind fun _ => ?_
      refine hC.bind fun _ => ?_
      exact (yields_expect_iff.mpr ⟨rfl, hq⟩).bind fun _ => .ok

theorem yields_readTy_iff {ts r : List Token} {A : Ty} :
    Yields (readTy ts) A r ↔ Spans .ty A ts r :=
  ⟨spans_of_readTy (Nat.lt_succ_self _), readTy_of_spans (Nat.lt_succ_self _)⟩

theorem unary?_eq_some_iff {k : TokenKind} {mk : Term → Term} :
    unary? k = some mk ↔ ∃ o : Unary, k = o.kind ∧ mk = o.apply := by
  constructor
  · intro h
    unfold unary? at h
    split at h
    case h_6 => cases h
    all_goals cases h
    exacts [⟨.inl, rfl, rfl⟩, ⟨.inr, rfl, rfl⟩, ⟨.fst, rfl, rfl⟩, ⟨.snd, rfl, rfl⟩, ⟨.abort, rfl, rfl⟩]
  · rintro ⟨o, rfl, rfl⟩
    cases o <;> rfl

theorem spans_of_readTerm {n : Nat} {ts r : List Token} {t : Term} (hn : ts.length < n)
    (h : Yields (readTerm ts) t r) : Spans .term t ts r := by
  induction n generalizing ts r t with
  | zero => exact absurd hn (Nat.not_lt_zero _)
  | succ n ih =>
    cases ts with
    | nil => exact absurd h (by rw [readTerm]; exact not_yields_error)
    | cons x m =>
      rw [List.length_cons] at hn
      rw [readTerm, next_bind] at h
      simp only at h
      split at h
      case h_1 hx =>
        obtain ⟨rfl, rfl⟩ := yields_ok_iff.mp h
        exact .node .var (.token hx .nil) (by rw [word_of_ident hx]; rfl)
      case h_2 hx =>
        obtain ⟨k, m, hnext, _, h⟩ := yields_bind_iff.mp h
        obtain rfl := yields_next_iff.mp hnext
        rw [List.length_cons] at hn
        simp only at h
        split at h
        case h_1 hk =>
          simp only [yields_bind_iff, yields_expect_iff, yields_ok_iff, exists_prop] at h
          obtain ⟨a, _, ha, hm₁, b, _, hb, -, q, _, ⟨rfl, hq⟩, -, rfl, rfl⟩ := h
          have ha := ih (by omega) ha
          have hb := ih (by omega) hb
          exact .node .pair (.token hx (.token hk (.part ha (.part hb (.token hq .nil))))) rfl
        case h_2 hk =>
          simp only [yields_bind_iff, yields_expect_iff, yields_ok_iff, exists_prop] at h
          obtain ⟨a, _, ha, hm₁, b, _, hb, hm₂, c, _, hc, -, q, _, ⟨rfl, hq⟩, -, rfl, rfl⟩ := h
          have ha := ih (by omega) ha
          have hb := ih (by omega) hb
          have hc := ih (by omega) hc
          exact .node .case
            (.token hx (.token hk (.part ha (.part hb (.part hc (.token hq .nil)))))) rfl
        case h_3 hk =>
          simp only [yields_bind_iff, yields_expect_iff, yields_readTy_iff, yields_ok_iff,
            exists_prop] at h
          obtain ⟨l, _, ⟨rfl, hl⟩, hm₁, y, _, ⟨rfl, hy⟩, hm₂, c, m₃, ⟨rfl, hc⟩, hm₃, A, _, hA, hm₄,
            s, m₅, ⟨rfl, hs⟩, hm₅, b, _, hb, -, q, _, ⟨rfl, hq⟩, -, rfl, rfl⟩ := h
          have hb := ih (by omega) hb
          exact .node .lambda (.token hx (.token hk (.token hl (.token hy (.token hc (.part hA
            (.token hs (.part hb (.token hq .nil))))))))) (by rw [word_of_ident hy]; rfl)
        case h_4 =>
          split at h
          case h_1 => exact absurd h not_yields_error
          case h_2 mk hmk =>
            obtain ⟨o, hk, rfl⟩ := unary?_eq_some_iff.mp hmk
            simp only [yields_bind_iff, yields_expect_iff, yields_ok_iff, exists_prop] at h
            obtain ⟨a, _, ha, -, q, _, ⟨rfl, hq⟩, -, rfl, rfl⟩ := h
            have ha := ih (by omega) ha
            exact .node (.unary o) (.token hx (.token hk (.part ha (.token hq .nil)))) rfl
      case h_3 => exact absurd h not_yields_error

theorem readTerm_of_spans {n : Nat} {ts r : List Token} {t : Term} (hn : ts.length < n)
    (h : Spans .term t ts r) : Yields (readTerm ts) t r := by
  induction n generalizing ts r t with
  | zero => exact absurd hn (Nat.not_lt_zero _)
  | succ n ih =>
    obtain ⟨rhs, p, vs, h₀, hv⟩ := h.of_node
    cases p with
    | var =>
      obtain ⟨x, _, vs, rfl, hx, rfl, h₁⟩ := h₀.of_token
      obtain ⟨rfl, rfl⟩ := h₁.of_nil
      obtain rfl : .var x.lexeme.word = t := Option.some.inj hv
      rw [readTerm, next_bind, word_of_ident hx]
      simp only [hx]
      exact .ok
    | pair =>
      obtain ⟨x, _, vs, rfl, hx, rfl, h₁⟩ := h₀.of_token
      obtain ⟨k, m, vs, rfl, hk, rfl, h₂⟩ := h₁.of_token
      obtain ⟨a, _, vs, rfl, ha, h₃⟩ := h₂.of_part
      obtain ⟨b, _, vs, rfl, hb, h₄⟩ := h₃.of_part
      obtain ⟨q, _, vs, rfl, hq, rfl, h₅⟩ := h₄.of_token
      obtain ⟨rfl, rfl⟩ := h₅.of_nil
      obtain rfl : .pair a b = t := Option.some.inj hv
      rw [List.length_cons, List.length_cons] at hn
      have ha := ih (by omega) ha
      have hm₁ := ha.length_lt
      have hb := ih (by omega) hb
      rw [readTerm, next_bind]
      simp only [hx]
      refine (yields_next_iff.mpr rfl).bind fun _ => ?_
      simp only [hk]
      refine ha.bind fun _ => hb.bind fun _ => ?_
      exact (yields_expect_iff.mpr ⟨rfl, hq⟩).bind fun _ => .ok
    | unary o =>
      -- the reader looks for the other keywords first; none of them is one of these five
      obtain ⟨x, _, vs, rfl, hx, rfl, h₁⟩ := h₀.of_token
      obtain ⟨k, m, vs, rfl, hk, rfl, h₂⟩ := h₁.of_token
      obtain ⟨a, _, vs, rfl, ha, h₃⟩ := h₂.of_part
      obtain ⟨q, _, vs, rfl, hq, rfl, h₄⟩ := h₃.of_token
      obtain ⟨rfl, rfl⟩ := h₄.of_nil
      obtain rfl : o.apply a = t := Option.some.inj hv
      rw [List.length_cons, List.length_cons] at hn
      have ha := ih (by omega) ha
      rw [readTerm, next_bind]
      simp only [hx]
      refine (yields_next_iff.mpr rfl).bind fun _ => ?_
      have hu : unary? k.kind = some o.apply := unary?_eq_some_iff.mpr ⟨o, hk, rfl⟩
      cases o
      all_goals
        simp only [Unary.kind] at hk
        simp only [hk] at hu ⊢
        simp only [hu]
        refine ha.bind fun _ => ?_
        exact (yields_expect_iff.mpr ⟨rfl, hq⟩).bind fun _ => .ok
    | case =>
      obtain ⟨x, _, vs, rfl, hx, rfl, h₁⟩ := h₀.of_token
      obtain ⟨k, m, vs, rfl, hk, rfl, h₂⟩ := h₁.of_token
      obtain ⟨a, _, vs, rfl, ha, h₃⟩ := h₂.of_part
      obtain ⟨b, _, vs, rfl, hb, h₄⟩ := h₃.of_part
      obtain ⟨c, _, vs, rfl, hc, h₅⟩ := h₄.of_part
      obtain ⟨q, _, vs, rfl, hq, rfl, h₆⟩ := h₅.of_token
      obtain ⟨rfl, rfl⟩ := h₆.of_nil
      obtain rfl : .case a b c = t := Option.some.inj hv
      rw [List.length_cons, List.length_cons] at hn
      have ha := ih (by omega) ha
      have hm₁ := ha.length_lt
      have hb := ih (by omega) hb
      have hm₂ := hb.length_lt
      have hc := ih (by omega) hc
      rw [readTerm, next_bind]
      simp only [hx]
      refine (yields_next_iff.mpr rfl).bind fun _ => ?_
      simp only [hk]
      refine ha.bind fun _ => hb.bind fun _ => hc.bind fun _ => ?_
      exact (yields_expect_iff.mpr ⟨rfl, hq⟩).bind fun _ => .ok
    | lambda =>
      obtain ⟨x, _, vs, rfl, hx, rfl, h₁⟩ := h₀.of_token
      obtain ⟨k, m, vs, rfl, hk, rfl, h₂⟩ := h₁.of_token
      obtain ⟨l, _, vs, rfl, hl, rfl, h₃⟩ := h₂.of_token
      obtain ⟨y, _, vs, rfl, hy, rfl, h₄⟩ := h₃.of_token
      obtain ⟨c, _, vs, rfl, hc, rfl, h₅⟩ := h₄.of_token
      obtain ⟨A, _, vs, rfl, hA, h₆⟩ := h₅.of_part
      obtain ⟨s, m, vs, rfl, hs, rfl, h₇⟩ := h₆.of_token
      obtain ⟨b, _, vs, rfl, hb, h₈⟩ := h₇.of_part
      obtain ⟨q, _, vs, rfl, hq, rfl, h₉⟩ := h₈.of_token
      obtain ⟨rfl, rfl⟩ := h₉.of_nil
      obtain rfl : .lambda y.lexeme.word A b = t := Option.some.inj hv
      have hA := yields_readTy_iff.mpr hA
      have hm := hA.length_lt
      simp only [List.length_cons] at hn hm
      have hb := ih (by omega) hb
      rw [readTerm, next_bind, word_of_ident hy]
      simp only [hx]
      refine (yields_next_iff.mpr rfl).bind fun _ => ?_
      simp only [hk]
      refine (yields_expect_iff.mpr ⟨rfl, hl⟩).bind fun _ => ?_
      refine (yields_expect_iff.mpr ⟨rfl, hy⟩).bind fun _ => ?_
      refine (yields_expect_iff.mpr ⟨rfl, hc⟩).bind fun _ => hA.bind fun _ => ?_
      refine (yields_expect_iff.mpr ⟨rfl, hs⟩).bind fun _ => hb.bind fun _ => ?_
      exact (yields_expect_iff.mpr ⟨rfl, hq⟩).bind fun _ => .ok

theorem yields_readTerm_iff {ts r : List Token} {t : Term} :
    Yields (readTerm ts) t r ↔ Spans .term t ts r :=
  ⟨spans_of_readTerm (Nat.lt_succ_self _), readTerm_of_spans (Nat.lt_succ_self _)⟩

/-! ## contexts and sequents -/

theorem bindAll_eq_ok_iff {Γ Δ : Context} {bs : List (Token × Ty)} :
    bindAll Γ bs = .ok Δ ↔ Δ.bindings = Γ.bindings ++ bs.map fun b => (b.1.text, b.2) := by
  induction bs generalizing Γ with
  | nil =>
    obtain ⟨bs, hbs⟩ := Γ
    obtain ⟨bs', hbs'⟩ := Δ
    simp [bindAll, eq_comm]
  | cons b bs ih =>
    obtain ⟨x, A⟩ := b
    rw [bindAll]
    split
    case isTrue hx =>
      refine ⟨nofun, fun h => ?_⟩
      have hΔ := Δ.nodup
      rw [h, List.map_append, List.nodup_append] at hΔ
      exact absurd rfl (hΔ.2.2 x.text hx x.text (by simp))
    case isFalse hx =>
      rw [ih, Context.push, List.append_assoc]
      rfl

section
variable {ts r : List Token}

theorem Spans.of_binding {b : String × Ty} (h : Spans .binding b ts r) :
    ∃ x c m, ts = x :: c :: m ∧ x.kind = .ident ∧ c.kind = .colon ∧ b.1 = x.text ∧
      Spans .ty b.2 m r := by
  obtain ⟨rhs, p, vs, h₀, hv⟩ := h.of_node
  cases p with
  | binding =>
    obtain ⟨x, _, vs, rfl, hx, rfl, h₁⟩ := h₀.of_token
    obtain ⟨c, m, vs, rfl, hc, rfl, h₂⟩ := h₁.of_token
    obtain ⟨A, _, vs, rfl, hA, h₃⟩ := h₂.of_part
    obtain ⟨rfl, rfl⟩ := h₃.of_nil
    obtain rfl : (x.lexeme.word, A) = b := Option.some.inj hv
    exact ⟨x, c, m, rfl, hx, hc, word_of_ident hx, hA⟩

/-- The last binding of a list, as the grammar splits it. -/
theorem Spans.of_bindings {bs : List (String × Ty)} (h : Spans .bindings bs ts r) :
    (∃ b, bs = [b] ∧ Spans .binding b ts r) ∨
    ∃ bs' b c m, bs = bs' ++ [b] ∧ Spans .bindings bs' ts (c :: m) ∧ c.kind = .comma ∧
      Spans .binding b m r := by
  obtain ⟨rhs, p, vs, h₀, hv⟩ := h.of_node
  cases p with
  | oneBinding =>
    obtain ⟨b, _, vs, rfl, hb, h₁⟩ := h₀.of_part
    obtain ⟨rfl, rfl⟩ := h₁.of_nil
    exact .inl ⟨b, (Option.some.inj hv).symm, hb⟩
  | moreBindings =>
    obtain ⟨bs', _, vs, rfl, hbs, h₁⟩ := h₀.of_part
    obtain ⟨c, m, vs, rfl, hc, rfl, h₂⟩ := h₁.of_token
    obtain ⟨b, _, vs, rfl, hb, h₃⟩ := h₂.of_part
    obtain ⟨rfl, rfl⟩ := h₃.of_nil
    exact .inr ⟨bs', b, c, m, (Option.some.inj hv).symm, hbs, hc, hb⟩

/-- The first binding of a list, as a reader splits it. -/
theorem Spans.first_binding {bs : List (String × Ty)} (h : Spans .bindings bs ts r) :
    ∃ b bs', bs = b :: bs' ∧ ((bs' = [] ∧ Spans .binding b ts r) ∨
      ∃ c m, Spans .binding b ts (c :: m) ∧ c.kind = .comma ∧ Spans .bindings bs' m r) := by
  -- the production takes the last binding off, so the induction is on the list from its end
  induction bs using List.reverseRecOn generalizing r with
  | nil => obtain ⟨b, hb, -⟩ | ⟨bs', b, c, m, hb, -⟩ := h.of_bindings <;> simp at hb
  | append_singleton bs e ih =>
    obtain ⟨b, hb, h'⟩ | ⟨bs', b, c, m, hb, hbs, hc, h'⟩ := h.of_bindings
    · exact ⟨b, [], hb, .inl ⟨rfl, h'⟩⟩
    · obtain ⟨rfl, rfl⟩ : bs = bs' ∧ e = b := by simpa using hb
      obtain ⟨a, l, rfl, ⟨rfl, ha⟩ | ⟨c', m', ha, hc', hl⟩⟩ := ih hbs
      · exact ⟨a, [e], rfl, .inr ⟨c, m, ha, hc, .node .oneBinding (.part h' .nil) rfl⟩⟩
      · have hle : Spans .bindings (l ++ [e]) m' r :=
          .node .moreBindings (.part hl (.token hc (.part h' .nil))) rfl
        exact ⟨a, l ++ [e], rfl, .inr ⟨c', m', ha, hc', hle⟩⟩

theorem Spans.cons_binding {a : String × Ty} {bs : List (String × Ty)} {c : Token} {m : List Token}
    (ha : Spans .binding a ts (c :: m)) (hc : c.kind = .comma) (h : Spans .bindings bs m r) :
    Spans .bindings (a :: bs) ts r := by
  induction bs using List.reverseRecOn generalizing r with
  | nil => obtain ⟨b, hb, -⟩ | ⟨bs', b, c, m, hb, -⟩ := h.of_bindings <;> simp at hb
  | append_singleton bs e ih =>
    obtain ⟨b, hb, h'⟩ | ⟨bs', b, c', m', hb, hbs, hc', h'⟩ := h.of_bindings
    · rw [hb]
      have hone : Spans .bindings [a] ts (c :: m) := .node .oneBinding (.part ha .nil) rfl
      exact .node .moreBindings (.part hone (.token hc (.part h' .nil))) rfl
    · obtain ⟨rfl, rfl⟩ : bs = bs' ∧ e = b := by simpa using hb
      exact .node .moreBindings (.part (ih hbs) (.token hc' (.part h' .nil))) rfl

theorem Spans.starts_bindings {bs : List (String × Ty)} (h : Spans .bindings bs ts r) :
    ∃ x m, ts = x :: m ∧ x.kind = .ident := by
  obtain ⟨b, bs', -, ⟨-, hb⟩ | ⟨c, m, hb, -⟩⟩ := h.first_binding
  all_goals
    obtain ⟨x, c, m, rfl, hx, -⟩ := hb.of_binding
    exact ⟨x, c :: m, rfl, hx⟩

end

theorem spans_of_readBindings {n : Nat} {ts r : List Token} {bs : List (Token × Ty)}
    (hn : ts.length < n) (h : Yields (readBindings ts) bs r) :
    ∃ q, Spans .bindings (bs.map fun b => (b.1.text, b.2)) ts (q :: r) ∧ q.kind = .rbrace := by
  induction n generalizing ts r bs with
  | zero => exact absurd hn (Nat.not_lt_zero _)
  | succ n ih =>
    rw [readBindings] at h
    simp only [yields_bind_iff, yields_expect_iff, yields_readTy_iff, yields_next_iff] at h
    obtain ⟨x, _, ⟨rfl, hx⟩, hm₁, c, m₂, ⟨rfl, hc⟩, hm₂, A, _, hA, hm₃, q, m₄, rfl, hm₄, h⟩ := h
    have hb : Spans .binding (x.text, A) (x :: c :: m₂) (q :: m₄) :=
      .node .binding (.token hx (.token hc (.part hA .nil))) (by rw [word_of_ident hx]; rfl)
    split at h
    case h_1 hq =>
      obtain ⟨rfl, rfl⟩ := yields_ok_iff.mp h
      exact ⟨q, .node .oneBinding (.part hb .nil) rfl, hq⟩
    case h_2 hq =>
      simp only [yields_bind_iff, yields_ok_iff, exists_prop] at h
      obtain ⟨bs', _, hbs, -, rfl, rfl⟩ := h
      obtain ⟨q', hbs, hq'⟩ := ih (by omega) hbs
      exact ⟨q', hb.cons_binding hq hbs, hq'⟩
    case h_3 => exact absurd h not_yields_error

theorem readBindings_of_spans {n : Nat} {ts r : List Token} {bs : List (String × Ty)} {q : Token}
    (hn : ts.length < n) (h : Spans .bindings bs ts (q :: r)) (hq : q.kind = .rbrace) :
    ∃ bs', bs'.map (fun b => (b.1.text, b.2)) = bs ∧ Yields (readBindings ts) bs' r := by
  induction n generalizing ts r bs with
  | zero => exact absurd hn (Nat.not_lt_zero _)
  | succ n ih =>
    obtain ⟨⟨w, A⟩, bs, rfl, ⟨rfl, hb⟩ | ⟨d, m, hb, hd, hbs⟩⟩ := h.first_binding
    · obtain ⟨x, c, m, rfl, hx, hc, rfl, hA⟩ := hb.of_binding
      refine ⟨[(x, A)], rfl, ?_⟩
      rw [readBindings]
      refine (yields_expect_iff.mpr ⟨rfl, hx⟩).bind fun _ => ?_
      refine (yields_expect_iff.mpr ⟨rfl, hc⟩).bind fun _ => ?_
      refine (yields_readTy_iff.mpr hA).bind fun _ => (yields_next_iff.mpr rfl).bind fun _ => ?_
      simp only [hq]
      exact .ok
    · obtain ⟨x, c, m', rfl, hx, hc, rfl, hA⟩ := hb.of_binding
      have hA := yields_readTy_iff.mpr hA
      have hm := hA.length_lt
      simp only [List.length_cons] at hn hm
      obtain ⟨bs', rfl, hbs'⟩ := ih (by omega) hbs
      refine ⟨(x, A) :: bs', rfl, ?_⟩
      rw [readBindings]
      refine (yields_expect_iff.mpr ⟨rfl, hx⟩).bind fun _ => ?_
      refine (yields_expect_iff.mpr ⟨rfl, hc⟩).bind fun _ => ?_
      refine hA.bind fun _ => (yields_next_iff.mpr rfl).bind fun _ => ?_
      simp only [hd]
      exact hbs'.bind fun _ => .ok

theorem yields_bindAll_bind_iff {β : Type} {P : List Token → Prop} {b : β} {r : List Token}
    {Γ : Context} {bs : List (Token × Ty)} {f : Context → Except Fault (β × { r // P r })} :
    Yields (bindAll Γ bs >>= f) b r ↔
      ∃ Δ : Context, Δ.bindings = Γ.bindings ++ bs.map (fun b => (b.1.text, b.2)) ∧
        Yields (f Δ) b r := by
  rw [yields_lift_bind_iff]
  simp only [bindAll_eq_ok_iff]

theorem yields_readContext_iff {ts r : List Token} {Γ : Context} :
    Yields (readContext ts) Γ r ↔ Spans .context Γ ts r := by
  constructor
  · intro h
    simp only [readContext, yields_bind_iff, yields_expect_iff, yields_next_iff] at h
    obtain ⟨l, _, ⟨rfl, hl⟩, _, q, m, rfl, _, h⟩ := h
    split at h
    case isTrue hq =>
      obtain ⟨rfl, rfl⟩ := yields_ok_iff.mp h
      exact .node .noBindings (.token hl (.token hq .nil)) rfl
    case isFalse =>
      simp only [yields_bind_iff, yields_bindAll_bind_iff, yields_ok_iff, exists_prop] at h
      obtain ⟨bs, _, hbs, -, Γ, hΓ, rfl, rfl⟩ := h
      obtain ⟨q', hbs, hq'⟩ := spans_of_readBindings (Nat.lt_succ_self _) hbs
      rw [Context.empty, List.nil_append] at hΓ
      rw [← hΓ] at hbs
      exact .node .someBindings (.token hl (.part hbs (.token hq' .nil))) (dif_pos Γ.nodup)
  · intro h
    obtain ⟨rhs, p, vs, h₀, hv⟩ := h.of_node
    cases p with
    | noBindings =>
      obtain ⟨l, _, vs, rfl, hl, rfl, h₁⟩ := h₀.of_token
      obtain ⟨q, _, vs, rfl, hq, rfl, h₂⟩ := h₁.of_token
      obtain ⟨rfl, rfl⟩ := h₂.of_nil
      obtain rfl : .empty = Γ := Option.some.inj hv
      refine (yields_expect_iff.mpr ⟨rfl, hl⟩).bind fun _ => ?_
      refine (yields_next_iff.mpr rfl).bind fun _ => ?_
      simp only [hq, if_true]
      exact .ok
    | someBindings =>
      obtain ⟨l, _, vs, rfl, hl, rfl, h₁⟩ := h₀.of_token
      obtain ⟨bs, _, vs, rfl, hbs, h₂⟩ := h₁.of_part
      obtain ⟨q, _, vs, rfl, hq, rfl, h₃⟩ := h₂.of_token
      obtain ⟨rfl, rfl⟩ := h₃.of_nil
      obtain ⟨hd, rfl⟩ : ∃ hd, ⟨bs, hd⟩ = Γ := by
        have hv : (if hd : (bs.map Prod.fst).Nodup then some (⟨bs, hd⟩ : Context) else none) =
          some Γ := hv
        split at hv
        case isTrue hd => exact ⟨hd, Option.some.inj hv⟩
        case isFalse => cases hv
      obtain ⟨bs', rfl, hbs'⟩ := readBindings_of_spans (Nat.lt_succ_self _) hbs hq
      obtain ⟨x, m, rfl, hx⟩ := hbs.starts_bindings
      refine (yields_expect_iff.mpr ⟨rfl, hl⟩).bind fun _ => ?_
      refine (yields_next_iff.mpr rfl).bind fun _ => ?_
      simp only [hx, reduceCtorEq, if_false]
      exact hbs'.bind fun _ => yields_bindAll_bind_iff.mpr ⟨_, rfl, .ok⟩

theorem yields_readSequent_iff {ts r : List Token} {s : Sequent} :
    Yields (readSequent ts) s r ↔ Spans .sequent s ts r := by
  constructor
  · intro h
    simp only [readSequent, yields_bind_iff, yields_readContext_iff, yields_expect_iff,
      yields_readTerm_iff, yields_readTy_iff, yields_ok_iff, exists_prop] at h
    obtain ⟨Γ, _, hΓ, -, q, _, ⟨rfl, hq⟩, -, t, _, ht, -, c, _, ⟨rfl, hc⟩, -, A, _, hA, -, rfl,
      rfl⟩ := h
    exact .node .sequent (.part hΓ (.token hq (.part ht (.token hc (.part hA .nil))))) rfl
  · intro h
    obtain ⟨rhs, p, vs, h₀, hv⟩ := h.of_node
    cases p with
    | sequent =>
      obtain ⟨Γ, _, vs, rfl, hΓ, h₁⟩ := h₀.of_part
      obtain ⟨q, _, vs, rfl, hq, rfl, h₂⟩ := h₁.of_token
      obtain ⟨t, _, vs, rfl, ht, h₃⟩ := h₂.of_part
      obtain ⟨c, _, vs, rfl, hc, rfl, h₄⟩ := h₃.of_token
      obtain ⟨A, _, vs, rfl, hA, h₅⟩ := h₄.of_part
      obtain ⟨rfl, rfl⟩ := h₅.of_nil
      obtain rfl : ⟨Γ, t, A⟩ = s := Option.some.inj hv
      refine (yields_readContext_iff.mpr hΓ).bind fun _ => ?_
      refine (yields_expect_iff.mpr ⟨rfl, hq⟩).bind fun _ => ?_
      refine (yields_readTerm_iff.mpr ht).bind fun _ => ?_
      refine (yields_expect_iff.mpr ⟨rfl, hc⟩).bind fun _ => ?_
      exact (yields_readTy_iff.mpr hA).bind fun _ => .ok

/-! ## derivations -/

theorem resolveRule_eq_ok_iff {x : Token} {r : List Token} {R : Rule} :
    resolveRule x r = .ok R ↔ Rule.ofTag? x.text = some R := by
  unfold resolveRule
  split
  case h_1 R' hR =>
    rw [hR, Except.ok.injEq, Option.some.injEq]
  case h_2 hR =>
    rw [hR]
    refine ⟨fun h => ?_, nofun⟩
    split at h
    · cases h
    · split at h <;> cases h

theorem yields_resolveRule_bind_iff {β : Type} {P : List Token → Prop} {b : β} {r m : List Token}
    {x : Token} {f : Rule → Except Fault (β × { r // P r })} :
    Yields (resolveRule x m >>= f) b r ↔ ∃ R, Rule.ofTag? x.text = some R ∧ Yields (f R) b r := by
  rw [yields_lift_bind_iff]
  simp only [resolveRule_eq_ok_iff]

section
variable {ts r : List Token}

theorem Spans.of_derivation {d : Derivation} (h : Spans .derivation d ts r) :
    ∃ l x m s m' ds q R, ts = l :: x :: m ∧ l.kind = .lparen ∧ x.kind = .ident ∧
      Spans .sequent s m m' ∧ Spans .premises ds m' (q :: r) ∧ q.kind = .rparen ∧
      Rule.ofTag? x.text = some R ∧ .node R s ds = d := by
  obtain ⟨rhs, p, vs, h₀, hv⟩ := h.of_node
  cases p with
  | derivation =>
    obtain ⟨l, _, vs, rfl, hl, rfl, h₁⟩ := h₀.of_token
    obtain ⟨x, m, vs, rfl, hx, rfl, h₂⟩ := h₁.of_token
    obtain ⟨s, m', vs, rfl, hs, h₃⟩ := h₂.of_part
    obtain ⟨ds, _, vs, rfl, hds, h₄⟩ := h₃.of_part
    obtain ⟨q, _, vs, rfl, hq, rfl, h₅⟩ := h₄.of_token
    obtain ⟨rfl, rfl⟩ := h₅.of_nil
    obtain ⟨R, hR, hd⟩ : ∃ R, Rule.ofTag? x.lexeme.word = some R ∧ .node R s ds = d :=
      Option.map_eq_some_iff.mp hv
    rw [word_of_ident hx] at hR
    exact ⟨l, x, m, s, m', ds, q, R, rfl, hl, hx, hs, hds, hq, hR, hd⟩

theorem Spans.noPremises : Spans .premises [] r r :=
  .node .noPremises (.part (.node .empty .nil rfl) .nil) rfl

/-- The last premise of a list, as the grammar splits it. -/
theorem Spans.of_premises {ds : List Derivation} (h : Spans .premises ds ts r) :
    (ds = [] ∧ ts = r) ∨
    ∃ ds' d m, ds = ds' ++ [d] ∧ Spans .premises ds' ts m ∧ Spans .derivation d m r := by
  obtain ⟨rhs, p, vs, h₀, hv⟩ := h.of_node
  cases p with
  | noPremises =>
    obtain ⟨ds', _, vs, rfl, hds, h₁⟩ := h₀.of_part
    obtain ⟨rfl, rfl⟩ := h₁.of_nil
    obtain ⟨rhs, p, vs, h₂, hv'⟩ := hds.of_node
    cases p with
    | empty =>
      obtain ⟨rfl, rfl⟩ := h₂.of_nil
      exact .inl ⟨(Option.some.inj hv).symm.trans (Option.some.inj hv').symm, rfl⟩
  | morePremises =>
    obtain ⟨ds', _, vs, rfl, hds, h₁⟩ := h₀.of_part
    obtain ⟨d, m, vs, rfl, hd, h₂⟩ := h₁.of_part
    obtain ⟨rfl, rfl⟩ := h₂.of_nil
    exact .inr ⟨ds', d, _, (Option.some.inj hv).symm, hds, hd⟩

/-- The first premise of a list, as a reader splits it. -/
theorem Spans.first_premise {ds : List Derivation} (h : Spans .premises ds ts r) :
    (ds = [] ∧ ts = r) ∨
    ∃ d ds' m, ds = d :: ds' ∧ Spans .derivation d ts m ∧ Spans .premises ds' m r := by
  induction ds using List.reverseRecOn generalizing r with
  | nil =>
    obtain ⟨-, rfl⟩ | ⟨ds', d, m, hds, -⟩ := h.of_premises
    · exact .inl ⟨rfl, rfl⟩
    · simp at hds
  | append_singleton ds e ih =>
    obtain ⟨hds, -⟩ | ⟨ds', d, m, hds, h', hd⟩ := h.of_premises
    · simp at hds
    · obtain ⟨rfl, rfl⟩ : ds = ds' ∧ e = d := by simpa using hds
      obtain ⟨rfl, rfl⟩ | ⟨a, l, m', rfl, ha, hl⟩ := ih h'
      · exact .inr ⟨e, [], r, rfl, hd, .noPremises⟩
      · exact .inr ⟨a, l ++ [e], m', rfl, ha, .node .morePremises (.part hl (.part hd .nil)) rfl⟩

theorem Spans.cons_premise {d : Derivation} {ds : List Derivation} {m : List Token}
    (hd : Spans .derivation d ts m) (h : Spans .premises ds m r) :
    Spans .premises (d :: ds) ts r := by
  induction ds using List.reverseRecOn generalizing r with
  | nil =>
    obtain ⟨-, rfl⟩ | ⟨ds', d, m, hds, -⟩ := h.of_premises
    · exact .node .morePremises (.part .noPremises (.part hd .nil)) rfl
    · simp at hds
  | append_singleton ds e ih =>
    obtain ⟨hds, -⟩ | ⟨ds', a, m', hds, h', ha⟩ := h.of_premises
    · simp at hds
    · obtain ⟨rfl, rfl⟩ : ds = ds' ∧ e = a := by simpa using hds
      exact .node .morePremises (.part (ih h') (.part ha .nil)) rfl

end

/-- The two readers of derivations call each other; a list of premises may start with a derivation that
takes all of its tokens. -/
theorem spans_of_readDerivation (n : Nat) :
    (∀ ts d r, ts.length < n → Yields (readDerivation ts) d r → Spans .derivation d ts r) ∧
    ∀ ts ds r, ts.length < n → Yields (readPremises ts) ds r → Spans .premises ds ts r := by
  induction n with
  | zero => constructor <;> exact fun _ _ _ hn => absurd hn (Nat.not_lt_zero _)
  | succ n ih =>
    have step : ∀ ts d r, ts.length < n + 1 → Yields (readDerivation ts) d r →
        Spans .derivation d ts r := by
      intro ts d r hn h
      rw [readDerivation] at h
      simp only [yields_bind_iff, yields_resolveRule_bind_iff, yields_expect_iff,
        yields_readSequent_iff, yields_ok_iff, exists_prop] at h
      obtain ⟨l, _, ⟨rfl, hl⟩, hm₁, x, m, ⟨rfl, hx⟩, hm₂, s, m₃, hs, hm₃, ds, _, hds, -, q, _,
        ⟨rfl, hq⟩, -, R, hR, rfl, rfl⟩ := h
      have hds := ih.2 m₃ ds _ (by omega) hds
      exact .node .derivation (.token hl (.token hx (.part hs (.part hds (.token hq .nil)))))
        (by rw [word_of_ident hx]; exact congrArg (Option.map _) hR)
    refine ⟨step, fun ts ds r hn h => ?_⟩
    rw [readPremises.eq_def] at h
    split at h
    case h_1 =>
      obtain ⟨rfl, rfl⟩ := yields_ok_iff.mp h
      exact .noPremises
    case h_2 t m =>
      split at h
      case isTrue ht =>
        simp only [yields_bind_iff, yields_ok_iff, exists_prop] at h
        obtain ⟨d, m', hd, hm', ds, _, hds, -, rfl, rfl⟩ := h
        have hd := step _ d m' hn hd
        exact hd.cons_premise (ih.2 m' ds _ (by omega) hds)
      case isFalse =>
        obtain ⟨rfl, rfl⟩ := yields_ok_iff.mp h
        exact .noPremises

theorem readDerivation_of_spans (n : Nat) :
    (∀ ts d r, ts.length < n → Spans .derivation d ts r → Yields (readDerivation ts) d r) ∧
    ∀ ts ds r, ts.length < n → (∀ t ∈ r.head?, t.kind ≠ .lparen) → Spans .premises ds ts r →
      Yields (readPremises ts) ds r := by
  induction n with
  | zero => constructor <;> exact fun _ _ _ hn => absurd hn (Nat.not_lt_zero _)
  | succ n ih =>
    have step : ∀ ts d r, ts.length < n + 1 → Spans .derivation d ts r →
        Yields (readDerivation ts) d r := by
      intro ts d r hn h
      obtain ⟨l, x, m, s, m', ds, q, R, rfl, hl, hx, hs, hds, hq, hR, rfl⟩ := h.of_derivation
      have hs := yields_readSequent_iff.mpr hs
      have hm := hs.length_lt
      simp only [List.length_cons] at hn
      have hds := ih.2 m' ds (q :: r) (by omega) (by simp [hq]) hds
      rw [readDerivation]
      refine (yields_expect_iff.mpr ⟨rfl, hl⟩).bind fun _ => ?_
      refine (yields_expect_iff.mpr ⟨rfl, hx⟩).bind fun _ => ?_
      refine hs.bind fun _ => hds.bind fun _ => ?_
      refine (yields_expect_iff.mpr ⟨rfl, hq⟩).bind fun _ => ?_
      exact yields_resolveRule_bind_iff.mpr ⟨R, hR, .ok⟩
    refine ⟨step, fun ts ds r hn hr h => ?_⟩
    -- the reader takes one more premise as long as a parenthesis opens, and none opens in `r`
    rw [readPremises.eq_def]
    obtain ⟨rfl, rfl⟩ | ⟨d, ds, m, rfl, hd, hds⟩ := h.first_premise
    · split
      case h_1 => exact .ok
      case h_2 t m =>
        rw [if_neg (hr t rfl)]
        exact .ok
    · have hd' := step ts d m hn hd
      have hm := hd'.length_lt
      have hds := ih.2 m ds r (by omega) hr hds
      obtain ⟨l, x, m₀, -, -, -, -, -, rfl, hl, -⟩ := hd.of_derivation
      simp only [hl, if_true]
      exact hd'.bind fun _ => hds.bind fun _ => .ok

theorem yields_readDerivation_iff {ts r : List Token} {d : Derivation} :
    Yields (readDerivation ts) d r ↔ Spans .derivation d ts r :=
  ⟨(spans_of_readDerivation _).1 ts d r (Nat.lt_succ_self _),
    (readDerivation_of_spans _).1 ts d r (Nat.lt_succ_self _)⟩

/-! ## whole texts -/

theorem parseWith_eq_ok_iff {n : Nonterminal} {read : (ts : List Token) → Read n.Value ts}
    (h : ∀ {ts v r}, Yields (read ts) v r ↔ Spans n v ts r) {src : String} {v : n.Value} :
    parseWith read src = .ok v ↔ ∃ t : Tree n, Layout src.toList t.yield ∧ t.value = some v := by
  constructor
  · intro hp
    rw [parseWith] at hp
    split at hp
    case h_1 => cases hp
    case h_2 v' hm hread =>
      split at hp
      case h_2 => cases hp
      case h_1 p hend =>
        obtain rfl := Except.ok.inj hp
        obtain ⟨t, hv, us, hus, hyield⟩ := h.mp ⟨_, hread⟩
        rw [List.append_nil] at hus
        exact ⟨t, layout_iff.mpr ⟨⟨p, hend⟩, hus ▸ hyield⟩, hv⟩
    case h_3 => cases hp
  · rintro ⟨t, hlay, hv⟩
    obtain ⟨⟨p, hp⟩, htokens⟩ := layout_iff.mp hlay
    obtain ⟨hlt, hread⟩ := h.mpr ⟨t, hv, _, (List.append_nil _).symm, htokens⟩
    rw [parseWith]
    simp only [hread, hp]

/-! ## spelling -/

/-- A lexeme without its spelling: its kind, and the word that an identifier is. -/
def Lexeme.core (l : Lexeme) : TokenKind × String := (l.kind, l.word)

mutual

/-- A tree keeps its value when its lexemes are spelled in another way. -/
theorem Tree.exists_respelled {n : Nonterminal} : (t : Tree n) → {ls : List Lexeme} →
    ls.map Lexeme.core = t.yield.map Lexeme.core → ∃ t' : Tree n, t'.yield = ls ∧ t'.value = t.value
  | .node p f, ls, h => by
    obtain ⟨f', hy, hv⟩ := f.exists_respelled h
    exact ⟨.node p f', hy, by rw [Tree.value, Tree.value, hv]⟩

theorem Forest.exists_respelled {rhs : List Symbol} : (f : Forest rhs) → {ls : List Lexeme} →
    ls.map Lexeme.core = f.yield.map Lexeme.core →
      ∃ f' : Forest rhs, f'.yield = ls ∧ f'.values = f.values
  | .nil, ls, h => ⟨.nil, (List.map_eq_nil_iff.mp h).symm, rfl⟩
  | @Forest.leaf k _ s f, ls, h => by
    rw [Forest.yield, List.map_cons] at h
    obtain ⟨l, ls, rfl, hl, hls⟩ := List.map_eq_cons_iff.mp h
    obtain ⟨f', rfl, hv⟩ := f.exists_respelled hls
    obtain rfl : l.kind = k := congrArg Prod.fst hl
    have hw : l.word = Lexeme.word ⟨l.kind, s⟩ := congrArg Prod.snd hl
    refine ⟨.leaf l.text f', rfl, ?_⟩
    rw [Forest.values, Forest.values, hv, ← hw]
  | .tree t f, ls, h => by
    rw [Forest.yield, List.map_append] at h
    obtain ⟨ls₁, ls₂, rfl, h₁, h₂⟩ := List.map_eq_append_iff.mp h
    obtain ⟨t', rfl, hv₁⟩ := t.exists_respelled h₁
    obtain ⟨f', rfl, hv₂⟩ := f.exists_respelled h₂
    exact ⟨.tree t' f', rfl, by rw [Forest.values, Forest.values, hv₁, hv₂]⟩

end

/-- The parser accepts the texts of a nonterminal and no others. -/
structure ReadsGrammar (n : Nonterminal) (parse : String → Except SyntaxError n.Value) : Prop where
  /-- a text is read as `v` exactly if its lexemes have a parse tree with value `v` -/
  accepts : ∀ (src : String) (v : n.Value),
    parse src = .ok v ↔ ∃ t : Tree n, Layout src.toList t.yield ∧ t.value = some v
  /-- no text has two parse trees -/
  unique : ∀ (src : String) (t t' : Tree n), Layout src.toList t.yield → Layout src.toList t'.yield →
    t = t'
  /-- texts with the same lexemes up to spelling are read as the same value -/
  spelling : ∀ (src src' : String) (ls ls' : List Lexeme), Layout src.toList ls →
    Layout src'.toList ls' → ls.map Lexeme.core = ls'.map Lexeme.core → ∀ v, parse src = .ok v ↔ parse src' = .ok v

theorem readsGrammar_of_yields {n : Nonterminal} {read : (ts : List Token) → Read n.Value ts}
    (h : ∀ {ts v r}, Yields (read ts) v r ↔ Spans n v ts r)
    (hrigid : ∀ t : Tree n, Rigid Tree.yield t) : ReadsGrammar n (parseWith read) := by
  have respell : ∀ (src src' : String) (ls ls' : List Lexeme), Layout src.toList ls →
      Layout src'.toList ls' → ls.map Lexeme.core = ls'.map Lexeme.core → ∀ v,
      parseWith read src = .ok v → parseWith read src' = .ok v := by
    intro src src' ls ls' hls hls' hcore v hv
    obtain ⟨t, hlay, hval⟩ := (parseWith_eq_ok_iff h).mp hv
    -- the text has no lexemes but `ls`, and its tree can be spelled with `ls'`
    obtain rfl := hlay.unique hls
    obtain ⟨t', rfl, hval'⟩ := t.exists_respelled hcore.symm
    exact (parseWith_eq_ok_iff h).mpr ⟨t', hls', hval'.trans hval⟩
  refine ⟨fun src v => parseWith_eq_ok_iff h, ?_, ?_⟩
  · intro src t t' ht ht'
    exact (hrigid t).eq (ht.unique ht')
  · intro src src' ls ls' hls hls' hcore v
    exact ⟨respell src src' ls ls' hls hls' hcore v,
      respell src' src ls' ls hls' hls hcore.symm v⟩

/-- **Each parser accepts exactly its grammar**, by one tree, whatever the layout and the spelling. -/
theorem parse_reads_grammar :
    ReadsGrammar .ty parseTy ∧ ReadsGrammar .term parseTerm ∧ ReadsGrammar .context parseContext ∧
      ReadsGrammar .sequent parseSequent ∧ ReadsGrammar .derivation parseDerivation :=
  ⟨readsGrammar_of_yields yields_readTy_iff Tree.rigid_ty,
    readsGrammar_of_yields yields_readTerm_iff Tree.rigid_term,
    readsGrammar_of_yields yields_readContext_iff Tree.rigid_context,
    readsGrammar_of_yields yields_readSequent_iff Tree.rigid_sequent,
    readsGrammar_of_yields yields_readDerivation_iff Tree.rigid_derivation⟩

end NaturalDeduction.Source

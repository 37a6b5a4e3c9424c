import NaturalDeduction.Proofs.Groups
import NaturalDeduction.Proofs.Places
import NaturalDeduction.Proofs.Viability

/-!
# Errors point at their cause

A parser refuses a text at a character, at a token or at its end, or for a name: one that is bound
twice, or one that should be that of a rule. Such a name is noticed when its environment or its node
comes to an end, and by then everything else that has come to an end was found in order.

* `Takes n ts r`        the tokens of `ts` before its rest `r` form `n`, and all groups among them are sound;
* `BindsTwice`, `NamesNoRule`   what is wrong with an environment and with a node;
* `Halts f ts`          the fault `f` is that of a group in `ts`, the first one to come to its end;
* `Fails M x`           the reader `x` stops only for faults with the property `M`;
* `fails_readContext`, …, `fails_readDerivation`   the readers stop at the first such group;
* `parse_errors_point`  the errors of the parsers.
-/

namespace NaturalDeduction.Source

/-! ## what a reader takes -/

/-- The tokens of `ts` before its rest `r` form `n`, and all groups among them are sound. -/
def Takes (n : Nonterminal) (ts r : List Token) : Prop :=
  ∃ us, ts = us ++ r ∧ Forms n us ∧ Clean us

/-- The names that a reader finds are those before a colon. -/
theorem binders_of_readBindings {n : Nat} {ts r : List Token} {bs : List (Token × Ty)}
    (hn : ts.length < n) (h : Yields (readBindings ts) bs r) :
    ∃ mid q, ts = mid ++ q :: r ∧ q.kind = .rbrace ∧
      ∀ l, binders (l :: (mid ++ [q])) = bs.map Prod.fst := by
  induction n generalizing ts r bs with
  | zero => exact absurd hn (Nat.not_lt_zero _)
  | succ n ih =>
    rw [readBindings] at h
    simp only [yields_bind_iff, yields_expect_iff, yields_readTy_iff, yields_next_iff] at h
    obtain ⟨x, _, ⟨rfl, hx⟩, hm₁, c, m₂, ⟨rfl, hc⟩, hm₂, A, _, hA, hm₃, q, m₄, rfl, hm₄, h⟩ := h
    obtain ⟨us, rfl, hus⟩ := hA.forms
    -- a name, a colon and a type: what comes after them decides the rest
    have first : ∀ (l : Token) (vs : List Token), q.kind ≠ .colon →
        binders (l :: x :: c :: (us ++ q :: vs)) = x :: binders (q :: vs) := by
      intro l vs hq
      have hx' : x.kind ≠ .colon := Token.kind_ne hx (by simp)
      rw [binders, if_neg hx', binders, if_pos hc, binders_skip (hus.lacks rfl) hq]
    split at h
    case h_1 hq =>
      obtain ⟨rfl, rfl⟩ := yields_ok_iff.mp h
      refine ⟨x :: c :: us, q, rfl, hq, fun l => ?_⟩
      exact first l [] (Token.kind_ne hq (by simp))
    case h_2 hq =>
      simp only [yields_bind_iff, yields_ok_iff, exists_prop] at h
      obtain ⟨bs', _, hbs, -, rfl, rfl⟩ := h
      obtain ⟨mid, q', rfl, hq', hmid⟩ := ih (by omega) hbs
      refine ⟨x :: c :: (us ++ q :: mid), q', by simp, hq', fun l => ?_⟩
      rw [List.map_cons, ← hmid q, ← first l (mid ++ [q']) (Token.kind_ne hq (by simp))]
      simp
    case h_3 => exact absurd h not_yields_error

theorem forms_of_readBindings {ts r : List Token} {bs : List (Token × Ty)}
    (h : Yields (readBindings ts) bs r) : ∃ mid q, ts = mid ++ q :: r ∧ q.kind = .rbrace ∧
      Forms .bindings mid ∧ ∀ l, binders (l :: (mid ++ [q])) = bs.map Prod.fst := by
  obtain ⟨mid, q, rfl, hq, hb⟩ := binders_of_readBindings (Nat.lt_succ_self _) h
  obtain ⟨q', hs, -⟩ := spans_of_readBindings (Nat.lt_succ_self _) h
  obtain ⟨us, e, hus⟩ := hs.forms
  obtain rfl : mid = us := List.append_inj_left' e rfl
  exact ⟨mid, q, rfl, hq, hus, hb⟩

theorem forms_context {l q : Token} {mid : List Token} (hl : l.kind = .lbrace)
    (hm : Forms .bindings mid) (hq : q.kind = .rbrace) : Forms .context (l :: (mid ++ [q])) :=
  .node .someBindings (.token hl (.part hm (.token hq .nil)))

theorem not_forms_derivation {l : Token} {us : List Token} (hl : l.kind = .lbrace) :
    ¬ Forms .derivation (l :: us) := by
  intro h
  obtain ⟨l', _, _, _, _, e, hl', -⟩ := h.of_derivation
  obtain ⟨rfl, -⟩ := List.cons.inj e
  rw [hl] at hl'
  cases hl'

theorem not_forms_context {l : Token} {us : List Token} (hl : l.kind = .lparen) :
    ¬ Forms .context (l :: us) := by
  intro h
  obtain ⟨l', _, _, e, hl', -⟩ := h.of_context
  obtain ⟨rfl, -⟩ := List.cons.inj e
  rw [hl] at hl'
  cases hl'

/-- An environment without a name bound twice is clean. -/
theorem clean_context {l q : Token} {mid : List Token} (hl : l.kind = .lbrace) (hq : q.kind = .rbrace)
    (h : Forms .context (l :: (mid ++ [q]))) (hm : ∀ t ∈ mid, t.kind ≠ .lbrace)
    (hd : ((binders (l :: (mid ++ [q]))).map Token.text).Nodup) : Clean (l :: (mid ++ [q])) := by
  refine clean_of_group (isGroup_of_context h) ⟨fun _ => hd, fun h => ?_⟩ (clean_of_lacks ?_)
  · exact absurd h (not_forms_derivation hl)
  · exact List.forall_mem_append.mpr
      ⟨hm, List.forall_mem_singleton.mpr (Token.kind_ne hq (by simp))⟩

theorem takes_context {ts r : List Token} {Γ : Context} (h : Yields (readContext ts) Γ r) :
    Takes .context ts r := by
  simp only [readContext, yields_bind_iff, yields_expect_iff, yields_next_iff] at h
  obtain ⟨l, _, ⟨rfl, hl⟩, _, q, m, rfl, _, h⟩ := h
  split at h
  case isTrue hq =>
    obtain ⟨rfl, rfl⟩ := yields_ok_iff.mp h
    have hform : Forms .context (l :: ([] ++ [q])) := .node .noBindings (.token hl (.token hq .nil))
    have hnames : ((binders (l :: ([] ++ [q]))).map Token.text).Nodup := by
      have hq' : q.kind ≠ .colon := Token.kind_ne hq (by simp)
      show ((binders [l, q]).map Token.text).Nodup
      rw [binders, if_neg hq']
      exact List.nodup_nil
    exact ⟨[l, q], rfl, hform, clean_context hl hq hform (List.forall_mem_nil _) hnames⟩
  case isFalse =>
    simp only [yields_bind_iff, yields_bindAll_bind_iff, yields_ok_iff, exists_prop] at h
    obtain ⟨bs, _, hbs, -, Γ, hΓ, rfl, rfl⟩ := h
    obtain ⟨mid, q', e, hq', hmid, hb⟩ := forms_of_readBindings hbs
    rw [e]
    refine ⟨l :: (mid ++ [q']), by simp, forms_context hl hmid hq',
      clean_context hl hq' (forms_context hl hmid hq') (hmid.lacks rfl) ?_⟩
    have hd := Γ.nodup
    rw [hΓ, Context.empty, List.nil_append, List.map_map] at hd
    rw [hb, List.map_map]
    exact hd

theorem takes_sequent {ts r : List Token} {s : Sequent} (h : Spans .sequent s ts r) :
    Takes .sequent ts r := by
  obtain ⟨rhs, p, vs, h₀, -⟩ := h.of_node
  cases p with
  | sequent =>
    obtain ⟨Γ, _, vs, rfl, hΓ, h₁⟩ := h₀.of_part
    obtain ⟨q, _, vs, rfl, hq, rfl, h₂⟩ := h₁.of_token
    obtain ⟨t, _, vs, rfl, ht, h₃⟩ := h₂.of_part
    obtain ⟨c, _, vs, rfl, hc, rfl, h₄⟩ := h₃.of_token
    obtain ⟨A, _, vs, rfl, hA, h₅⟩ := h₄.of_part
    obtain ⟨rfl, rfl⟩ := h₅.of_nil
    obtain ⟨us, rfl, hus, hclean⟩ := takes_context (yields_readContext_iff.mpr hΓ)
    obtain ⟨u, rfl, hu⟩ := ht.forms
    obtain ⟨v, rfl, hv⟩ := hA.forms
    refine ⟨us ++ q :: (u ++ c :: v), by simp, ?_, hclean.append hus.balanced (clean_of_lacks ?_)⟩
    · have hsequent := Forms.node .sequent
        (.part hus (.token hq (.part hu (.token hc (.part hv .nil)))))
      rwa [List.append_nil] at hsequent
    · -- braces are for environments alone
      exact List.forall_mem_cons.mpr ⟨Token.kind_ne hq (by simp), List.forall_mem_append.mpr
        ⟨hu.lacks rfl, List.forall_mem_cons.mpr ⟨Token.kind_ne hc (by simp), hv.lacks rfl⟩⟩⟩

theorem forms_derivation {l x q : Token} {us vs : List Token} (hl : l.kind = .lparen)
    (hx : x.kind = .ident) (hu : Forms .sequent us) (hv : Forms .premises vs)
    (hq : q.kind = .rparen) : Forms .derivation (l :: x :: (us ++ vs) ++ [q]) := by
  have h := Forms.node .derivation
    (.token hl (.token hx (.part hu (.part hv (.token hq .nil)))))
  simpa using h

/-- What comes between the parenthesis of a node and its end. -/
theorem clean_inside {x : Token} {us vs : List Token} (hx : x.kind = .ident) (hu : Forms .sequent us)
    (hu' : Clean us) (hv' : Clean vs) : Clean (x :: (us ++ vs)) := by
  have hname : Clean [x] := clean_singleton (Token.kind_ne hx (by simp))
  have hxb : Balanced ([x].map Token.kind) := balanced_singleton (by rw [hx]; rfl)
  exact hname.append hxb (hu'.append hu.balanced hv')

/-- The two kinds of lists that readers of derivations take. -/
theorem takes_derivation (n : Nat) :
    (∀ ts d r, ts.length < n → Spans .derivation d ts r → Takes .derivation ts r) ∧
    ∀ ts ds r, ts.length < n → Spans .premises ds ts r → Takes .premises ts r := by
  induction n with
  | zero => exact ⟨fun _ _ _ hn => absurd hn (Nat.not_lt_zero _),
      fun _ _ _ hn => absurd hn (Nat.not_lt_zero _)⟩
  | succ n ih =>
    have step : ∀ ts d r, ts.length < n + 1 → Spans .derivation d ts r →
        Takes .derivation ts r := by
      intro ts d r hn h
      obtain ⟨l, x, m, s, m', ds, q, R, rfl, hl, hx, hs, hds, hq, hR, -⟩ := h.of_derivation
      obtain ⟨us, rfl, hus, hcu⟩ := takes_sequent hs
      simp only [List.length_cons, List.length_append] at hn
      obtain ⟨vs, rfl, hvs, hcv⟩ := ih.2 m' ds (q :: r) (by omega) hds
      have hform := forms_derivation hl hx hus hvs hq
      refine ⟨l :: x :: (us ++ vs) ++ [q], by simp, hform, ?_⟩
      refine clean_of_group (isGroup_of_derivation hform)
        ⟨fun h => absurd h (not_forms_context hl), fun _ => ⟨R, x, rfl, ?_⟩⟩ ?_
      · exact (Rule.tag_of_ofTag? hR).symm
      · exact (clean_inside hx hus hcu hcv).append (balanced_inside hx hus hvs)
          (clean_singleton (Token.kind_ne hq (by simp)))
    refine ⟨step, fun ts ds r hn h => ?_⟩
    obtain ⟨rfl, rfl⟩ | ⟨d, ds, m, rfl, hd, hds⟩ := h.first_premise
    · exact ⟨[], rfl, forms_noPremises, clean_of_lacks (List.forall_mem_nil _)⟩
    · have hm := (yields_readDerivation_iff.mpr hd).length_lt
      obtain ⟨us, rfl, hus, hcu⟩ := step ts d m hn hd
      obtain ⟨vs, rfl, hvs, hcv⟩ := ih.2 m ds r (by omega) hds
      exact ⟨us ++ vs, by simp, hus.cons_premise hvs, hcu.append hus.balanced hcv⟩

/-! ## broken groups -/

/-- The tokens are an environment, and the one at `x` is the first to bind a name again. -/
structure BindsTwice (ws : List Token) (x : Token) : Prop where
  context : Forms .context ws
  first : ∃ xs ys, binders ws = xs ++ x :: ys ∧ x.text ∈ xs.map Token.text ∧
    (xs.map Token.text).Nodup

/-- The tokens are a node, and the one after its parenthesis is no name of a rule. -/
structure NamesNoRule (ws : List Token) (x : Token) : Prop where
  node : Forms .derivation ws
  second : ws[1]? = some x
  unknown : ∀ R : Rule, R.tag ≠ x.text

theorem BindsTwice.mem {ws : List Token} {x : Token} (h : BindsTwice ws x) : x ∈ ws := by
  obtain ⟨xs, ys, hb, -⟩ := h.first
  apply mem_of_mem_binders
  rw [hb]
  exact List.mem_append_right xs List.mem_cons_self

theorem NamesNoRule.mem {ws : List Token} {x : Token} (h : NamesNoRule ws x) : x ∈ ws :=
  List.mem_of_getElem? h.second

/-- The fault is one of the group. -/
inductive Breaks : Fault → List Token → Prop
  | duplicate {ws : List Token} {x : Token} (h : BindsTwice ws x) : Breaks (.duplicate x) ws
  | rule {ws r : List Token} {x : Token} (h : NamesNoRule ws x) : Breaks (.unknownRule x r) ws

/-- The fault is one of a group among the tokens, and every group that comes to its end before this one
is sound. -/
def Halts (f : Fault) (ts : List Token) : Prop :=
  ∃ us ws q vs, ts = us ++ (ws ++ q :: vs) ∧ Breaks f (ws ++ [q]) ∧ Clean (us ++ ws) ∧
    Steady 0 ((us ++ ws).map Token.kind)

section
variable {f : Fault} {ts us : List Token}

theorem Halts.append (h : Halts f ts) (hb : Balanced (us.map Token.kind)) (hc : Clean us) :
    Halts f (us ++ ts) := by
  obtain ⟨vs, ws, q, r, rfl, hf, hclean, hs⟩ := h
  refine ⟨us ++ vs, ws, q, r, by simp, hf, ?_, ?_⟩
  · rw [List.append_assoc]
    exact hc.append hb hclean
  · rw [List.append_assoc, List.map_append]
    refine hb.steady.append ?_
    rw [hb.closed]
    exact hs

theorem Halts.cons {l : Token} (h : Halts f ts) (hl : l.kind.step = 1) : Halts f (l :: ts) := by
  obtain ⟨vs, ws, q, r, rfl, hf, hclean, hs⟩ := h
  exact ⟨l :: vs, ws, q, r, rfl, hf, Clean.cons hl hs hclean, hs.cons_open hl⟩

/-- A node that comes to its end. -/
theorem halts_of_breaks {l q : Token} {mid r : List Token} (hl : l.kind.step = 1)
    (hf : Breaks f (l :: (mid ++ [q]))) (hb : Balanced (mid.map Token.kind)) (hc : Clean mid) :
    Halts f (l :: (mid ++ q :: r)) := by
  exact ⟨[], l :: mid, q, r, rfl, hf, Clean.cons hl hb.steady hc, hb.steady.cons_open hl⟩

end

/-! ## why readers stop -/

/-- The reader stops only for faults with the property `M`. -/
def Fails {α : Type} (M : Fault → Prop) (x : Except Fault α) : Prop := ∀ f, x = .error f → M f

section
variable {α β : Type} {M : Fault → Prop} {P : List Token → Prop}

theorem fails_ok {a : α} : Fails M (.ok a) := nofun

theorem fails_error {f : Fault} (h : M f) : Fails M (.error f : Except Fault α) := by
  intro f' e
  rwa [← Except.error.inj e]

/-- A fault that a reader of a part meets is one of the whole. -/
theorem Fails.imp {N : Fault → Prop} {x : Except Fault α} (h : Fails M x) (hMN : ∀ f, M f → N f) :
    Fails N x :=
  fun f hf => hMN f (h f hf)

theorem Fails.bind {x : Except Fault (α × { r // P r })}
    {k : α × { r // P r } → Except Fault β} (hx : Fails M x)
    (hk : ∀ a r h, Yields x a r → Fails M (k (a, ⟨r, h⟩))) : Fails M (x >>= k) := by
  intro f e
  cases x with
  | error f' =>
    obtain rfl : f' = f := Except.error.inj e
    exact hx f' rfl
  | ok p => exact hk p.1 p.2.1 p.2.2 .ok f e

theorem Fails.lift {x : Except Fault α} {k : α → Except Fault β} (hx : Fails M x)
    (hk : ∀ a, x = .ok a → Fails M (k a)) : Fails M (x >>= k) := by
  intro f e
  cases x with
  | error f' =>
    obtain rfl : f' = f := Except.error.inj e
    exact hx f' rfl
  | ok a => exact hk a rfl f e

variable (hM : ∀ r, M (.unexpected r))
include hM

theorem fails_next (ts : List Token) : Fails M (next ts) := by
  cases ts with
  | nil => exact fails_error (hM [])
  | cons t r => exact fails_ok

theorem fails_expect (k : TokenKind) (ts : List Token) : Fails M (expect k ts) := by
  refine (fails_next hM ts).bind fun t r _ _ => ?_
  show Fails M (if t.kind = k then _ else _)
  by_cases ht : t.kind = k
  · rw [if_pos ht]
    exact fails_ok
  · rw [if_neg ht]
    exact fails_error (hM ts)

theorem fails_readConnective (ts : List Token) : Fails M (readConnective ts) := by
  refine (fails_next hM ts).bind fun t r _ _ => ?_
  simp only
  split
  case h_1 => exact fails_ok
  case h_2 => exact fails_error (hM ts)

theorem fails_readTy {n : Nat} (ts : List Token) (hn : ts.length < n) : Fails M (readTy ts) := by
  induction n generalizing ts with
  | zero => exact absurd hn (Nat.not_lt_zero _)
  | succ n ih =>
    rw [readTy]
    refine (fails_next hM ts).bind fun t r hr _ => ?_
    simp only
    split
    case h_1 => exact fails_ok
    case h_2 => exact fails_ok
    case h_3 =>
      refine (ih r (by omega)).bind fun _ r₁ _ _ => ?_
      refine (fails_readConnective hM r₁).bind fun _ r₂ _ _ => ?_
      refine (ih r₂ (by omega)).bind fun _ r₃ _ _ => ?_
      exact (fails_expect hM _ r₃).bind fun _ _ _ _ => fails_ok
    case h_4 => exact fails_error (hM ts)

theorem fails_readTerm {n : Nat} (ts : List Token) (hn : ts.length < n) : Fails M (readTerm ts) := by
  induction n generalizing ts with
  | zero => exact absurd hn (Nat.not_lt_zero _)
  | succ n ih =>
    rw [readTerm]
    refine (fails_next hM ts).bind fun t r hr _ => ?_
    simp only
    split
    case h_1 => exact fails_ok
    case h_3 => exact fails_error (hM ts)
    case h_2 =>
      refine (fails_next hM r).bind fun k r₀ hr₀ _ => ?_
      simp only
      split
      case h_1 =>
        refine (ih r₀ (by omega)).bind fun _ r₁ _ _ => ?_
        refine (ih r₁ (by omega)).bind fun _ r₂ _ _ => ?_
        exact (fails_expect hM _ r₂).bind fun _ _ _ _ => fails_ok
      case h_2 =>
        refine (ih r₀ (by omega)).bind fun _ r₁ _ _ => ?_
        refine (ih r₁ (by omega)).bind fun _ r₂ _ _ => ?_
        refine (ih r₂ (by omega)).bind fun _ r₃ _ _ => ?_
        exact (fails_expect hM _ r₃).bind fun _ _ _ _ => fails_ok
      case h_3 =>
        refine (fails_expect hM _ r₀).bind fun _ r₁ _ _ => ?_
        refine (fails_expect hM _ r₁).bind fun _ r₂ _ _ => ?_
        refine (fails_expect hM _ r₂).bind fun _ r₃ _ _ => ?_
        refine (fails_readTy hM r₃ (Nat.lt_succ_self _)).bind fun _ r₄ _ _ => ?_
        refine (fails_expect hM _ r₄).bind fun _ r₅ _ _ => ?_
        refine (ih r₅ (by omega)).bind fun _ r₆ _ _ => ?_
        exact (fails_expect hM _ r₆).bind fun _ _ _ _ => fails_ok
      case h_4 =>
        split
        case h_1 => exact fails_error (hM r)
        case h_2 =>
          refine (ih r₀ (by omega)).bind fun _ r₁ _ _ => ?_
          exact (fails_expect hM _ r₁).bind fun _ _ _ _ => fails_ok

theorem fails_readBindings {n : Nat} (ts : List Token) (hn : ts.length < n) :
    Fails M (readBindings ts) := by
  induction n generalizing ts with
  | zero => exact absurd hn (Nat.not_lt_zero _)
  | succ n ih =>
    rw [readBindings]
    refine (fails_expect hM _ ts).bind fun _ r₁ _ _ => ?_
    refine (fails_expect hM _ r₁).bind fun _ r₂ _ _ => ?_
    refine (fails_readTy hM r₂ (Nat.lt_succ_self _)).bind fun _ r₃ _ _ => ?_
    refine (fails_next hM r₃).bind fun t r₄ _ _ => ?_
    simp only
    split
    case h_1 => exact fails_ok
    case h_2 => exact (ih r₄ (by omega)).bind fun _ _ _ _ => fails_ok
    case h_3 => exact fails_error (hM r₃)

end

/-- The reader meets a token that cannot come, or comes to the end of a group with a fault. -/
def Marks (ts : List Token) (f : Fault) : Prop := (∃ r, f = .unexpected r) ∨ Halts f ts

theorem marks_unexpected (ts r : List Token) : Marks ts (.unexpected r) := .inl ⟨r, rfl⟩

theorem Marks.append {f : Fault} {ts us : List Token} (h : Marks ts f)
    (hb : Balanced (us.map Token.kind)) (hc : Clean us) : Marks (us ++ ts) f :=
  h.imp id fun h => h.append hb hc

/-- Inside a node, after some of its tokens. -/
theorem Marks.inside {f : Fault} {l : Token} {ts us : List Token} (h : Marks ts f)
    (hl : l.kind = .lparen) (hb : Balanced (us.map Token.kind)) (hc : Clean us) :
    Marks (l :: (us ++ ts)) f :=
  h.imp id fun h => (h.append hb hc).cons (by rw [hl]; rfl)

/-- The first name that is bound already. -/
theorem exists_of_bindAll {Γ : Context} {bs : List (Token × Ty)} {f : Fault}
    (h : bindAll Γ bs = .error f) : ∃ xs x ys, f = .duplicate x ∧ bs.map Prod.fst = xs ++ x :: ys ∧
      x.text ∈ Γ.bindings.map Prod.fst ++ xs.map Token.text ∧
      (Γ.bindings.map Prod.fst ++ xs.map Token.text).Nodup := by
  induction bs generalizing Γ with
  | nil => cases h
  | cons b bs ih =>
    obtain ⟨x, A⟩ := b
    rw [bindAll] at h
    split at h
    case isTrue hx =>
      refine ⟨[], x, bs.map Prod.fst, (Except.error.inj h).symm, rfl, ?_, ?_⟩
      · exact List.mem_append_left _ hx
      · rw [List.map_nil, List.append_nil]
        exact Γ.nodup
    case isFalse hx =>
      obtain ⟨xs, y, ys, rfl, hbs, hy, hd⟩ := ih h
      have hpush : (Γ.push x.text A hx).bindings.map Prod.fst ++ xs.map Token.text =
          Γ.bindings.map Prod.fst ++ (x :: xs).map Token.text := by simp [Context.push]
      rw [hpush] at hy hd
      exact ⟨x :: xs, y, ys, rfl, by rw [List.map_cons, hbs]; rfl, hy, hd⟩

theorem fails_readContext (ts : List Token) : Fails (Marks ts) (readContext ts) := by
  have hM := marks_unexpected ts
  refine (fails_expect hM _ ts).bind fun l r₁ _ h₁ => ?_
  obtain ⟨rfl, hl⟩ := yields_expect_iff.mp h₁
  refine (fails_next hM r₁).bind fun t r₂ _ h₂ => ?_
  simp only
  split
  case isTrue => exact fails_ok
  case isFalse =>
    refine (fails_readBindings hM r₁ (Nat.lt_succ_self _)).bind fun bs r₃ _ h₃ => ?_
    refine Fails.lift (fun f hf => .inr ?_) fun _ _ => fails_ok
    obtain ⟨xs, x, ys, rfl, hbs, hx, hd⟩ := exists_of_bindAll hf
    obtain ⟨mid, q, rfl, hq, hmid, hb⟩ := forms_of_readBindings h₃
    have htwice : BindsTwice (l :: (mid ++ [q])) x :=
      ⟨forms_context hl hmid hq, xs, ys, by rw [hb l, hbs], hx, hd⟩
    exact halts_of_breaks (by rw [hl]; rfl) (.duplicate htwice) hmid.balanced
      (clean_of_lacks (hmid.lacks rfl))

theorem fails_readSequent (ts : List Token) : Fails (Marks ts) (readSequent ts) := by
  have hM := marks_unexpected ts
  refine (fails_readContext ts).bind fun _ r₁ _ _ => ?_
  refine (fails_expect hM _ r₁).bind fun _ r₂ _ _ => ?_
  refine (fails_readTerm hM r₂ (Nat.lt_succ_self _)).bind fun _ r₃ _ _ => ?_
  refine (fails_expect hM _ r₃).bind fun _ r₄ _ _ => ?_
  exact (fails_readTy hM r₄ (Nat.lt_succ_self _)).bind fun _ _ _ _ => fails_ok

theorem unknownRule_of_resolveRule {x : Token} {r : List Token} {f : Fault}
    (h : resolveRule x r = .error f) : Rule.ofTag? x.text = none ∧
      (f = .unexpected r ∨ f = .unknownRule x r) := by
  unfold resolveRule at h
  split at h
  case h_1 => cases h
  case h_2 hx =>
    refine ⟨hx, ?_⟩
    split at h
    case h_1 => exact .inr (Except.error.inj h).symm
    case h_2 =>
      split at h
      case isTrue => exact .inr (Except.error.inj h).symm
      case isFalse => exact .inl (Except.error.inj h).symm

theorem tag_ne_of_ofTag? {s : String} (h : Rule.ofTag? s = none) (R : Rule) : R.tag ≠ s := by
  rintro rfl
  rw [Rule.ofTag?_tag] at h
  cases h

/-- A node that names no rule, at its end. -/
theorem halts_of_node {l x q : Token} {us vs r : List Token} (hl : l.kind = .lparen)
    (hx : x.kind = .ident) (hus : Forms .sequent us) (hcu : Clean us) (hvs : Forms .premises vs)
    (hcv : Clean vs) (hq : q.kind = .rparen) (hnone : Rule.ofTag? x.text = none) :
    Halts (.unknownRule x r) (l :: x :: (us ++ (vs ++ q :: r))) := by
  have hbroken : Breaks (.unknownRule x r) (l :: (x :: (us ++ vs) ++ [q])) :=
    .rule ⟨forms_derivation hl hx hus hvs hq, rfl, tag_ne_of_ofTag? hnone⟩
  have hhalts := halts_of_breaks (r := r) (by rw [hl]; rfl) hbroken (balanced_inside hx hus hvs)
    (clean_inside hx hus hcu hcv)
  rwa [List.cons_append, List.append_assoc] at hhalts

/-- The readers of derivations stop at the first group with a fault. -/
theorem fails_readDerivation (n : Nat) :
    (∀ ts : List Token, ts.length < n → Fails (Marks ts) (readDerivation ts)) ∧
    ∀ ts : List Token, ts.length < n → Fails (Marks ts) (readPremises ts) := by
  induction n with
  | zero => exact ⟨fun _ hn => absurd hn (Nat.not_lt_zero _), fun _ hn => absurd hn (Nat.not_lt_zero _)⟩
  | succ n ih =>
    have step : ∀ ts : List Token, ts.length < n + 1 → Fails (Marks ts) (readDerivation ts) := by
      intro ts hn
      have hM := marks_unexpected ts
      rw [readDerivation]
      refine (fails_expect hM _ ts).bind fun l r₁ _ h₁ => ?_
      obtain ⟨rfl, hl⟩ := yields_expect_iff.mp h₁
      refine (fails_expect hM _ r₁).bind fun x r₂ _ h₂ => ?_
      obtain ⟨rfl, hx⟩ := yields_expect_iff.mp h₂
      have hname : Clean [x] := clean_singleton (Token.kind_ne hx (by simp))
      have hxb : Balanced ([x].map Token.kind) := balanced_singleton (by rw [hx]; rfl)
      refine ((fails_readSequent r₂).imp fun f hf => hf.inside hl hxb hname).bind
        fun s r₃ _ h₃ => ?_
      obtain ⟨us, rfl, hus, hcu⟩ := takes_sequent (yields_readSequent_iff.mp h₃)
      have hub : Balanced ((x :: us).map Token.kind) := hus.balanced.cons (by rw [hx]; rfl)
      simp only [List.length_cons, List.length_append] at hn
      refine ((ih.2 r₃ (by omega)).imp fun f hf =>
        hf.inside hl hub (hname.append hxb hcu)).bind fun ds r₄ _ h₄ => ?_
      have hds := (spans_of_readDerivation _).2 _ ds r₄ (Nat.lt_succ_self _) h₄
      obtain ⟨vs, rfl, hvs, hcv⟩ := (takes_derivation _).2 _ ds r₄ (Nat.lt_succ_self _) hds
      refine (fails_expect hM _ r₄).bind fun q r₅ _ h₅ => ?_
      obtain ⟨rfl, hq⟩ := yields_expect_iff.mp h₅
      refine Fails.lift (fun f hf => ?_) fun _ _ => fails_ok
      obtain ⟨hnone, rfl | rfl⟩ := unknownRule_of_resolveRule hf
      · exact hM r₅
      · exact .inr (halts_of_node hl hx hus hcu hvs hcv hq hnone)
    refine ⟨step, fun ts hn => ?_⟩
    rw [readPremises.eq_def]
    split
    case h_1 => exact fails_ok
    case h_2 t m =>
      split
      case isFalse => exact fails_ok
      case isTrue ht =>
        refine (step _ hn).bind fun d r₁ hr₁ h₁ => ?_
        obtain ⟨us, e, hus, hcu⟩ := (takes_derivation _).1 _ d r₁ (Nat.lt_succ_self _)
          (yields_readDerivation_iff.mp h₁)
        have hwhole : ∀ f, Marks r₁ f → Marks (t :: m) f := by
          intro f hf
          rw [e]
          exact hf.append hus.balanced hcu
        rw [List.length_cons] at hn hr₁
        exact ((ih.2 r₁ (by omega)).imp hwhole).bind fun _ _ _ _ => fails_ok

/-! ## whole texts -/

/-- The errors of a parser lie in the text and point at their cause. -/
structure PointedErrors (n : Nonterminal) (parse : String → Except SyntaxError n.Value) : Prop where
  inside : ∀ src e, parse src = .error e → e.span.Inside src.toList
  /-- an unexpected character is the one in the message, and nothing starts with it -/
  character : ∀ src e c, parse src = .error e → e.cause = .character c →
    e.span.extract src.toList = [c] ∧ ∃ pre r, src.toList = pre ++ c :: r ∧
      e.span = ⟨pre.length, pre.length + 1⟩ ∧ StartsNothing (c :: r)
  /-- an unexpected token is one of the text -/
  token : ∀ src e, parse src = .error e → e.cause = .token →
    ∃ t ∈ (lex src.toList).tokens, e.span = t.span ∧ e.span.extract src.toList = t.text.toList
  /-- a name that is bound twice is the first one in its environment -/
  duplicate : ∀ src e name, parse src = .error e → e.cause = .duplicate name →
    e.span.extract src.toList = name.toList ∧ ∃ us ws q vs x,
      (lex src.toList).tokens = us ++ (ws ++ q :: vs) ∧ e.span = x.span ∧ x.text = name ∧
        BindsTwice (ws ++ [q]) x ∧ Clean (us ++ ws)
  /-- an unknown rule is named right after the parenthesis of a node, and what has come to its end before
  the node is sound -/
  rule : ∀ src e name, parse src = .error e → e.cause = .rule name →
    e.span.extract src.toList = name.toList ∧ ∃ us ws q vs x,
      (lex src.toList).tokens = us ++ (ws ++ q :: vs) ∧ e.span = x.span ∧ x.text = name ∧
        NamesNoRule (ws ++ [q]) x ∧ Clean (us ++ ws)
  /-- a text that ends too early has its error at its end -/
  ending : ∀ src e, parse src = .error e → e.cause = .ending →
    e.span = ⟨src.toList.length, src.toList.length⟩

/-- Where a text is refused, and why: at a token, where the tokens end, or for a group. -/
inductive Refused (l : Lexed) : SyntaxError → Prop
  | token {t : Token} (ht : t ∈ l.tokens) : Refused l ⟨.token, t.span⟩
  | ending {pos : Nat} (h : l.ending = .eof pos) : Refused l ⟨.ending, pos, pos⟩
  | character {c : Char} {pos : Nat} (h : l.ending = .bad c pos) :
      Refused l ⟨.character c, pos, pos + 1⟩
  | duplicate {us ws vs : List Token} {q x : Token} (hts : l.tokens = us ++ (ws ++ q :: vs))
      (h : BindsTwice (ws ++ [q]) x) (hc : Clean (us ++ ws)) : Refused l ⟨.duplicate x.text, x.span⟩
  | rule {us ws vs : List Token} {q x : Token} (hts : l.tokens = us ++ (ws ++ q :: vs))
      (h : NamesNoRule (ws ++ [q]) x) (hc : Clean (us ++ ws)) : Refused l ⟨.rule x.text, x.span⟩

theorem refused_ending (l : Lexed) : Refused l l.ending.error := by
  obtain ⟨ts, ⟨pos⟩ | ⟨c, pos⟩⟩ := l
  · exact .ending rfl
  · exact .character rfl

theorem refused_unexpected {l : Lexed} {us r : List Token} (h : l.tokens = us ++ r) :
    Refused l ((Fault.unexpected r).error l.ending) := by
  cases r with
  | nil => exact refused_ending l
  | cons t r =>
    refine .token ?_
    rw [h]
    exact List.mem_append_right us List.mem_cons_self

theorem refused_of_halts {l : Lexed} {f : Fault} (h : Halts f l.tokens) :
    Refused l (f.error l.ending) := by
  obtain ⟨us, ws, q, vs, hts, hf, hc, -⟩ := h
  cases hf with
  | duplicate hb => exact .duplicate hts hb hc
  | @rule _ r x hr =>
    cases r with
    | cons t r => exact .rule hts hr hc
    | nil =>
      obtain ⟨ts, ⟨pos⟩ | ⟨c, pos⟩⟩ := l
      · exact .rule hts hr hc
      · exact .character rfl

section
variable {n : Nonterminal} {read : (ts : List Token) → Read n.Value ts}

theorem refused_of_parseWith {src : String} {e : SyntaxError} {K : Language TokenKind}
    (hreads : Reads n.sentences K (lex src.toList).tokens (read (lex src.toList).tokens))
    (hfails : Fails (Marks (lex src.toList).tokens) (read (lex src.toList).tokens))
    (he : parseWith read src = .error e) : Refused (lex src.toList) e := by
  rw [parseWith] at he
  generalize lex src.toList = l at hreads hfails he ⊢
  split at he
  case h_1 f hf =>
    obtain rfl := Except.error.inj he
    obtain ⟨r, rfl⟩ | hhalts := hfails f hf
    · obtain ⟨T, ⟨us, hus, -⟩, -⟩ := hreads.stuck r hf
      exact refused_unexpected hus
    · exact refused_of_halts hhalts
  case h_2 v hr hread =>
    split at he
    case h_1 => cases he
    case h_2 c pos hend =>
      obtain rfl := Except.error.inj he
      exact .character hend
  case h_3 v t r hr hread =>
    obtain rfl := Except.error.inj he
    obtain ⟨us, hus, -⟩ := hreads.ok v _ ⟨_, hread⟩
    exact refused_unexpected hus

/-- A token of a group is one of the text. -/
theorem mem_of_mem_group {l : Lexed} {us ws vs : List Token} {q x : Token}
    (hts : l.tokens = us ++ (ws ++ q :: vs)) (hx : x ∈ ws ++ [q]) : x ∈ l.tokens := by
  rw [hts]
  refine List.mem_append_right us ?_
  rcases List.mem_append.mp hx with hx | hx
  · exact List.mem_append_left _ hx
  · rw [List.mem_singleton.mp hx]
    exact List.mem_append_right ws List.mem_cons_self

theorem Refused.inside {src : List Char} {e : SyntaxError} (h : Refused (lex src) e) :
    e.span.Inside src := by
  obtain ⟨htokens, hend⟩ := lex_places src
  cases h with
  | token ht => exact (htokens _ ht).inside
  | duplicate hts h => exact (htokens _ (mem_of_mem_group hts h.mem)).inside
  | rule hts h => exact (htokens _ (mem_of_mem_group hts h.mem)).inside
  | ending h =>
    rw [h] at hend
    cases hend with
    | eof => exact Span.inside_nat (Nat.le_refl _) (Nat.le_refl _)
  | character h =>
    rw [h] at hend
    cases hend with
    | @bad pre r c hsrc _ =>
      refine Span.inside_nat (a := pre.length) (b := pre.length + 1) (by omega) ?_
      rw [hsrc, List.length_append, List.length_cons]
      omega

theorem pointedErrors_of_refused {parse : String → Except SyntaxError n.Value}
    (h : ∀ src e, parse src = .error e → Refused (lex src.toList) e) : PointedErrors n parse where
  inside src e he := (h src e he).inside
  character src e c he hc := by
    have hend := (lex_places src.toList).2
    cases h src e he with
    | character hbad =>
      cases hc
      rw [hbad] at hend
      cases hend with
      | @bad pre r c hsrc hr =>
        refine ⟨?_, pre, r, hsrc, rfl, hr⟩
        rw [hsrc]
        exact Span.extract_middle pre [c] r
    | _ => cases hc
  token src e he hc := by
    cases h src e he with
    | token ht => exact ⟨_, ht, rfl, ((lex_places src.toList).1 _ ht).extract⟩
    | _ => cases hc
  duplicate src e name he hc := by
    cases h src e he with
    | duplicate hts hb hclean =>
      cases hc
      have hx := (lex_places src.toList).1 _ (mem_of_mem_group hts hb.mem)
      exact ⟨hx.extract, _, _, _, _, _, hts, rfl, rfl, hb, hclean⟩
    | _ => cases hc
  rule src e name he hc := by
    cases h src e he with
    | rule hts hr hclean =>
      cases hc
      have hx := (lex_places src.toList).1 _ (mem_of_mem_group hts hr.mem)
      exact ⟨hx.extract, _, _, _, _, _, hts, rfl, rfl, hr, hclean⟩
    | _ => cases hc
  ending src e he hc := by
    have hend := (lex_places src.toList).2
    cases h src e he with
    | ending heof =>
      rw [heof] at hend
      cases hend with
      | eof => rfl
    | _ => cases hc

/-- A reader that stops only where it has to, and at the first group with a fault. -/
theorem pointedErrors_of_reads (hreads : ∀ ts, Reads (n.sentences * 1) 1 ts (read ts))
    (hfails : ∀ ts, Fails (Marks ts) (read ts)) : PointedErrors n (parseWith read) := by
  rw [mul_one] at hreads
  exact pointedErrors_of_refused fun src e he => refused_of_parseWith (hreads _) (hfails _) he

end

/-- **Every error points at its cause.** The span of an error lies in the text. It is that of a character
with which nothing starts, of one token, of the first name in an environment that the environment binds
already, of the word after the parenthesis of a node if it names no rule, or the end of the text. Of the
environments and nodes that come to their end before the one that is refused, none binds a name twice and
each names a rule. -/
theorem parse_errors_point :
    PointedErrors .ty parseTy ∧ PointedErrors .term parseTerm ∧ PointedErrors .context parseContext ∧
      PointedErrors .sequent parseSequent ∧ PointedErrors .derivation parseDerivation := by
  have hlive : Live 1 := ⟨[], Language.nil_mem_one⟩
  have hb : Bracketed 1 := fun k w hw => by cases hw
  refine ⟨pointedErrors_of_reads (fun _ => reads_readTy (Nat.lt_succ_self _) hlive) fun ts => ?_,
    pointedErrors_of_reads (fun _ => reads_readTerm (Nat.lt_succ_self _) hlive) fun ts => ?_,
    pointedErrors_of_reads (fun _ => reads_readContext hlive) fails_readContext,
    pointedErrors_of_reads (fun _ => reads_readSequent hlive) fails_readSequent,
    pointedErrors_of_reads
      (fun ts => (reads_readDerivation _).1 ts 1 (Nat.lt_succ_self _) hlive hb) fun ts => ?_⟩
  · exact fails_readTy (marks_unexpected ts) ts (Nat.lt_succ_self _)
  · exact fails_readTerm (marks_unexpected ts) ts (Nat.lt_succ_self _)
  · exact (fails_readDerivation _).1 ts (Nat.lt_succ_self _)

end NaturalDeduction.Source

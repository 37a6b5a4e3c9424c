import Mathlib.Computability.MyhillNerode
import Mathlib.Order.CompletePartialOrder
import NaturalDeduction.Proofs.Reading
import NaturalDeduction.Proofs.Sentences

/-!
# Errors at the earliest place

A reader that has taken some tokens of a text is left with a language: what may still come. An error is
reported at the earliest place if up to there something may come, and with the next token nothing may.

* `Reaches S ts K r`        where `S` may come, the tokens of `ts` before its rest `r` leave `K`;
* `Refuses K r`             something may come, but nothing that starts as `r` does;
* `Reads S K ts x`          the reader `x` goes on as `S` has it, leaves `K`, and stops only where the
                            tokens cannot go on;
* `reads_readTy`, …, `reads_readDerivation`   each reader does so, whatever comes after its value;
* `parse_error_earliest`    the errors of the parsers.
-/

namespace NaturalDeduction.Source

/-! ## what is left -/

/-- Where `S` may come, the tokens of `ts` before its rest `r` leave `K`. -/
def Reaches (S : Language TokenKind) (ts : List Token) (K : Language TokenKind) (r : List Token) : Prop :=
  ∃ us, ts = us ++ r ∧ S.leftQuotient (us.map Token.kind) = K

/-- Something may come, but nothing that starts as `r` does; and if `r` is empty, more must come. -/
structure Refuses (K : Language TokenKind) (r : List Token) : Prop where
  live : Live K
  ending : r = [] → [] ∉ K
  token : ∀ t ∈ r.head?, ∀ w, t.kind :: w ∉ K

/-- A token of kind `k` is due, after which `K` may come; so much can be told from the next token. -/
structure Awaits (k : TokenKind) (S K : Language TokenKind) (ts : List Token) : Prop where
  step : S.leftQuotient [k] = K
  ending : [] ∉ S
  token : ∀ t ∈ ts.head?, t.kind ≠ k → ∀ w, t.kind :: w ∉ S

/-- Where `S` may come, the reader of `ts` leaves `K`, and it stops only where it has to. -/
structure Reads {α : Type} {P : List Token → Prop} (S K : Language TokenKind) (ts : List Token)
    (x : Except Fault (α × { r // P r })) : Prop where
  ok : ∀ a r, Yields x a r → Reaches S ts K r
  stuck : ∀ r, x = .error (.unexpected r) → ∃ T, Reaches S ts T r ∧ Refuses T r
  late : ∀ y r, x = .error (.unknownRule y r) → ∃ T, Reaches S ts T r ∧ Live T

theorem leftQuotient_eq {S K : Language TokenKind} {k : TokenKind} (h : ∀ w, k :: w ∈ S ↔ w ∈ K) :
    S.leftQuotient [k] = K := by
  ext w
  exact h w

section
variable {α β : Type} {P Q : List Token → Prop} {S T K : Language TokenKind} {k : TokenKind}
  {ts m r : List Token} {t : Token}

theorem Reaches.refl : Reaches S ts S ts := ⟨[], rfl, S.leftQuotient_nil⟩

theorem Reaches.trans (h : Reaches S ts T m) (h' : Reaches T m K r) : Reaches S ts K r := by
  obtain ⟨us, rfl, rfl⟩ := h
  obtain ⟨vs, rfl, rfl⟩ := h'
  exact ⟨us ++ vs, by rw [List.append_assoc], by rw [List.map_append, Language.leftQuotient_append]⟩

theorem Reaches.next : Reaches S (t :: m) (S.leftQuotient [t.kind]) m := ⟨[t], rfl, rfl⟩

theorem Reaches.of_cons (h : Reaches S (t :: m) T r) :
    (r = t :: m ∧ T = S) ∨ Reaches (S.leftQuotient [t.kind]) m T r := by
  obtain ⟨us, e, rfl⟩ := h
  cases us with
  | nil => exact .inl ⟨e.symm, rfl⟩
  | cons u us =>
    obtain ⟨rfl, rfl⟩ := List.cons.inj e
    exact .inr ⟨us, rfl, rfl⟩

theorem Reads.of_reaches {x : Except Fault (α × { r // P r })} (h : Reaches S ts T m)
    (hx : Reads T K m x) : Reads S K ts x where
  ok a r hr := h.trans (hx.ok a r hr)
  stuck r hr := by
    obtain ⟨U, hU, hrefuse⟩ := hx.stuck r hr
    exact ⟨U, h.trans hU, hrefuse⟩
  late y r hr := by
    obtain ⟨U, hU, hlive⟩ := hx.late y r hr
    exact ⟨U, h.trans hU, hlive⟩

/-- A token is taken. -/
theorem Reads.next {x : Except Fault (α × { r // P r })} (h : Reads (S.leftQuotient [t.kind]) K m x) :
    Reads S K (t :: m) x :=
  h.of_reaches .next

theorem Reads.refl {a : α} {h : P ts} : Reads S S ts (.ok (a, ⟨ts, h⟩)) where
  ok b r hr := by
    obtain ⟨-, rfl⟩ := yields_ok_iff.mp hr
    exact .refl
  stuck := nofun
  late := nofun

/-- A token is taken, and nothing else. -/
theorem Reads.take {a : α} {h : P m} (ht : S.leftQuotient [t.kind] = K) :
    Reads S K (t :: m) (.ok (a, ⟨m, h⟩)) := by
  subst ht
  exact .next .refl

theorem Reads.refuse (h : Refuses S ts) :
    Reads S K ts (.error (.unexpected ts) : Except Fault (α × { r // P r })) where
  ok _ _ hr := absurd hr not_yields_error
  stuck r hr := by
    obtain rfl : ts = r := Fault.unexpected.inj (Except.error.inj hr)
    exact ⟨S, .refl, h⟩
  late := nofun

/-- The tokens end, and more must come. -/
theorem Reads.refuse_nil (hS : Live S) (h : [] ∉ S) :
    Reads S K [] (.error (.unexpected []) : Except Fault (α × { r // P r })) :=
  .refuse ⟨hS, fun _ => h, fun _ ht => absurd ht (Option.not_mem_none _)⟩

/-- The next token cannot come. -/
theorem Reads.refuse_cons (hS : Live S) (h : ∀ w, t.kind :: w ∉ S) :
    Reads S K (t :: m) (.error (.unexpected (t :: m)) : Except Fault (α × { r // P r })) := by
  refine .refuse ⟨hS, fun hnil => absurd hnil (List.cons_ne_nil t m), ?_⟩
  rintro _ ⟨⟩
  exact h

/-- All tokens were taken, but a name among them is not known. -/
theorem Reads.unknown {x : Token} (hS : Live S) :
    Reads S S ts (.error (.unknownRule x ts) : Except Fault (α × { r // P r })) where
  ok _ _ hr := absurd hr not_yields_error
  stuck := nofun
  late y r hr := by
    obtain ⟨-, rfl⟩ := Fault.unknownRule.inj (Except.error.inj hr)
    exact ⟨S, .refl, hS⟩

theorem Reads.bind {x : Except Fault (α × { r // P r })}
    {f : α × { r // P r } → Except Fault (β × { r // Q r })} (hx : Reads S T ts x)
    (hf : ∀ a m h, x = .ok (a, ⟨m, h⟩) → Reads T K m (f (a, ⟨m, h⟩))) : Reads S K ts (x >>= f) := by
  cases x with
  | error e =>
    refine ⟨fun _ _ hr => absurd hr not_yields_error, fun r hr => ?_, fun y r hr => ?_⟩
    · exact hx.stuck r (congrArg Except.error (Except.error.inj hr))
    · exact hx.late y r (congrArg Except.error (Except.error.inj hr))
  | ok p => exact (hf p.1 p.2.1 p.2.2 rfl).of_reaches (hx.ok p.1 p.2.1 .ok)

/-- A step that takes no token and stops for other reasons than the next one. -/
theorem Reads.lift {γ : Type} {x : Except Fault γ} {f : γ → Except Fault (β × { r // Q r })}
    (hx : ∀ e, x = .error e → ∃ y, e = .duplicate y) (hf : ∀ c, Reads S K ts (f c)) :
    Reads S K ts (x >>= f) := by
  cases x with
  | error e =>
    obtain ⟨y, rfl⟩ := hx e rfl
    exact ⟨fun _ _ hr => absurd hr not_yields_error, nofun, nofun⟩
  | ok c => exact hf c

/-- A reader that goes on at its first token does so wherever this token leaves the same. -/
theorem Reads.congr_head {x : Read α (t :: m)} (h : Reads T K (t :: m) x)
    (e : S.leftQuotient [t.kind] = T.leftQuotient [t.kind])
    (hlive : Live (T.leftQuotient [t.kind])) : Reads S K (t :: m) x := by
  have follow : ∀ {U r}, Reaches (T.leftQuotient [t.kind]) m U r → Reaches S (t :: m) U r := by
    intro U r hU
    rw [← e] at hU
    exact Reaches.next.trans hU
  refine ⟨fun a r hr => ?_, fun r hr => ?_, fun y r hr => ?_⟩
  · obtain ⟨rfl, -⟩ | hU := (h.ok a r hr).of_cons
    · exact absurd hr.length_lt (Nat.lt_irrefl _)
    · exact follow hU
  · obtain ⟨U, hU, hrefuse⟩ := h.stuck r hr
    obtain ⟨rfl, rfl⟩ | hU := hU.of_cons
    · obtain ⟨w, hw⟩ := hlive
      exact absurd hw (hrefuse.token t rfl w)
    · exact ⟨U, follow hU, hrefuse⟩
  · obtain ⟨U, hU, hU'⟩ := h.late y r hr
    obtain ⟨rfl, rfl⟩ | hU := hU.of_cons
    · obtain ⟨w, hw⟩ := hlive
      rw [← e] at hw
      exact ⟨S, .refl, _, hw⟩
    · exact ⟨U, follow hU, hU'⟩

theorem reads_expect (h : Awaits k S K ts) (hK : Live K) : Reads S K ts (expect k ts) := by
  have hS : Live S := by
    obtain ⟨w, hw⟩ := hK
    rw [← h.step] at hw
    exact ⟨_, hw⟩
  cases ts with
  | nil => exact .refuse_nil hS h.ending
  | cons t m =>
    rw [expect, next_bind]
    simp only
    split
    case isTrue ht =>
      subst ht
      refine .next ?_
      rw [h.step]
      exact .refl
    case isFalse ht =>
      exact .refuse_cons hS (h.token t rfl ht)

theorem awaits_ahead {rhs : List Symbol} : Awaits k (ahead (.terminal k :: rhs) K) (ahead rhs K) ts where
  step := leftQuotient_eq fun _ => cons_mem_ahead.trans (and_iff_right rfl)
  ending := nil_not_mem_ahead
  token _ _ ht _ hw := ht (cons_mem_ahead.mp hw).1

end

section
open TokenKind Nonterminal
variable {K : Language TokenKind}

theorem reads_token {k : TokenKind} {rhs : List Symbol} {ts : List Token} (hK : Live K) :
    Reads (ahead (.terminal k :: rhs) K) (ahead rhs K) ts (expect k ts) :=
  reads_expect awaits_ahead (live_ahead hK)

/-! ## types and terms -/

/-- A connective, a type and the closing parenthesis. -/
def connectives (K : Language TokenKind) : Language TokenKind :=
  ⨆ o : Connective, ahead [o.kind, ty, rparen] K

theorem mem_connectives {w : List TokenKind} :
    w ∈ connectives K ↔ ∃ o : Connective, w ∈ ahead [o.kind, ty, rparen] K := Language.mem_iSup

theorem ty_lparen : (ty.sentences * K).leftQuotient [lparen] = ty.sentences * connectives K := by
  rw [connectives, Language.mul_iSup]
  ext w
  rw [Language.mem_leftQuotient, mem_ty, Language.mem_iSup]
  simp

theorem live_connectives (hK : Live K) : Live (connectives K) := by
  obtain ⟨w, hw⟩ : Live (ahead [Connective.arrow.kind, ty, rparen] K) := live_ahead hK
  exact ⟨w, mem_connectives.mpr ⟨_, hw⟩⟩

theorem reads_readConnective {ts : List Token} (hK : Live K) :
    Reads (connectives K) (ahead [ty, rparen] K) ts (readConnective ts) := by
  have hlive := live_connectives hK
  cases ts with
  | nil => exact .refuse_nil hlive (by simp [mem_connectives])
  | cons t m =>
    rw [readConnective, next_bind]
    simp only
    split
    case h_1 mk hmk =>
      obtain ⟨o, ho, -⟩ := connective?_eq_some_iff.mp hmk
      refine .take (leftQuotient_eq fun w => ?_)
      rw [mem_connectives]
      simp [ho]
    case h_2 h =>
      refine .refuse_cons hlive fun w hw => ?_
      obtain ⟨o, ho⟩ := mem_connectives.mp hw
      have := (cons_mem_ahead.mp ho).1
      rw [connective?_eq_some_iff.mpr ⟨o, this, rfl⟩] at h
      cases h

theorem reads_readTy {n : Nat} {ts : List Token} (hn : ts.length < n) (hK : Live K) :
    Reads (ty.sentences * K) K ts (readTy ts) := by
  induction n generalizing ts K with
  | zero => exact absurd hn (Nat.not_lt_zero _)
  | succ n ih =>
    have hlive : Live (ty.sentences * K) := live_sentences_mul hK
    cases ts with
    | nil =>
      rw [readTy]
      exact .refuse_nil hlive (by simp [mem_ty])
    | cons t m =>
      rw [List.length_cons] at hn
      rw [readTy, next_bind]
      simp only
      split
      case h_1 ht =>
        refine .take (leftQuotient_eq fun w => ?_)
        rw [mem_ty, ht]
        simp
      case h_2 ht =>
        refine .take (leftQuotient_eq fun w => ?_)
        rw [mem_ty, ht]
        simp
      case h_3 ht =>
        have hclose : Live (ahead [rparen] K) := live_ahead hK
        have hconn : Live (connectives K) := live_connectives hK
        refine .next ?_
        rw [ht, ty_lparen]
        refine (ih (by omega) hconn).bind fun _ r₁ _ _ => ?_
        refine (reads_readConnective hK).bind fun _ r₂ _ _ => ?_
        refine (ih (by omega) hclose).bind fun _ r₃ _ _ => ?_
        exact (reads_token hK).bind fun _ _ _ _ => .refl
      case h_4 h₁ h₂ h₃ =>
        refine .refuse_cons hlive fun w hw => ?_
        obtain h | h | ⟨o, h⟩ := mem_ty.mp hw
        exacts [h₁ (cons_mem_ahead.mp h).1, h₂ (cons_mem_ahead.mp h).1, h₃ (cons_mem_ahead.mp h).1]

/-- What comes in a term after its opening parenthesis. -/
def compounds (K : Language TokenKind) : Language TokenKind :=
  ahead [cons, term, term, rparen] K + (⨆ o : Unary, ahead [o.kind, term, rparen] K) +
    ahead [case, term, term, term, rparen] K +
    ahead [lambda, lparen, ident, colon, ty, rparen, term, rparen] K

theorem mem_compounds {w : List TokenKind} : w ∈ compounds K ↔
    ((w ∈ ahead [cons, term, term, rparen] K ∨ ∃ o : Unary, w ∈ ahead [o.kind, term, rparen] K) ∨
      w ∈ ahead [case, term, term, term, rparen] K) ∨
      w ∈ ahead [lambda, lparen, ident, colon, ty, rparen, term, rparen] K := by
  simp only [compounds, Language.mem_add, Language.mem_iSup]

theorem live_compounds (hK : Live K) : Live (compounds K) := by
  obtain ⟨w, hw⟩ : Live (ahead [cons, term, term, rparen] K) := live_ahead hK
  exact ⟨w, mem_compounds.mpr (.inl (.inl (.inl hw)))⟩

theorem term_lparen : (term.sentences * K).leftQuotient [lparen] = compounds K := by
  refine leftQuotient_eq fun w => ?_
  rw [mem_term, mem_compounds]
  simp [or_assoc]

theorem unary_kind_ne (o : Unary) : cons ≠ o.kind ∧ case ≠ o.kind ∧ lambda ≠ o.kind := by
  cases o <;> decide

theorem compounds_cons : (compounds K).leftQuotient [cons] = ahead [term, term, rparen] K := by
  refine leftQuotient_eq fun w => ?_
  rw [mem_compounds]
  simp [unary_kind_ne]

theorem compounds_case : (compounds K).leftQuotient [case] = ahead [term, term, term, rparen] K := by
  refine leftQuotient_eq fun w => ?_
  rw [mem_compounds]
  simp [unary_kind_ne]

theorem compounds_lambda : (compounds K).leftQuotient [lambda] =
    ahead [lparen, ident, colon, ty, rparen, term, rparen] K := by
  refine leftQuotient_eq fun w => ?_
  rw [mem_compounds]
  simp [unary_kind_ne]

theorem compounds_unary (o : Unary) :
    (compounds K).leftQuotient [o.kind] = ahead [term, rparen] K := by
  have h := unary_kind_ne o
  refine leftQuotient_eq fun w => ?_
  rw [mem_compounds]
  simp [h.1.symm, h.2.1.symm, h.2.2.symm]

theorem reads_readTerm {n : Nat} {ts : List Token} (hn : ts.length < n) (hK : Live K) :
    Reads (term.sentences * K) K ts (readTerm ts) := by
  induction n generalizing ts K with
  | zero => exact absurd hn (Nat.not_lt_zero _)
  | succ n ih =>
    have hlive : Live (term.sentences * K) := live_sentences_mul hK
    cases ts with
    | nil =>
      rw [readTerm]
      exact .refuse_nil hlive (by simp [mem_term])
    | cons t m =>
      rw [List.length_cons] at hn
      rw [readTerm, next_bind]
      simp only
      split
      case h_1 ht =>
        refine .take (leftQuotient_eq fun w => ?_)
        rw [mem_term, ht]
        simp
      case h_2 ht =>
        have hclose : Live (ahead [rparen] K) := live_ahead hK
        refine .next ?_
        rw [ht, term_lparen]
        cases m with
        | nil => exact .refuse_nil (live_compounds hK) (by simp [mem_compounds])
        | cons k m =>
          rw [List.length_cons] at hn
          rw [next_bind]
          simp only
          split
          case h_1 hk =>
            refine .next ?_
            rw [hk, compounds_cons]
            refine (ih (by omega) (live_sentences_mul hclose)).bind fun _ r₁ _ _ => ?_
            refine (ih (by omega) hclose).bind fun _ r₂ _ _ => ?_
            exact (reads_token hK).bind fun _ _ _ _ => .refl
          case h_2 hk =>
            refine .next ?_
            rw [hk, compounds_case]
            refine (ih (by omega) (live_ahead hK)).bind fun _ r₁ _ _ => ?_
            refine (ih (by omega) (live_sentences_mul hclose)).bind fun _ r₂ _ _ => ?_
            refine (ih (by omega) hclose).bind fun _ r₃ _ _ => ?_
            exact (reads_token hK).bind fun _ _ _ _ => .refl
          case h_3 hk =>
            refine .next ?_
            rw [hk, compounds_lambda]
            refine (reads_token hK).bind fun _ r₁ _ _ => ?_
            refine (reads_token hK).bind fun _ r₂ _ _ => ?_
            refine (reads_token hK).bind fun _ r₃ _ _ => ?_
            refine (reads_readTy (Nat.lt_succ_self _) (live_ahead hK)).bind fun _ r₄ _ _ => ?_
            refine (reads_token hK).bind fun _ r₅ _ _ => ?_
            refine (ih (by omega) hclose).bind fun _ r₆ _ _ => ?_
            exact (reads_token hK).bind fun _ _ _ _ => .refl
          case h_4 h₁ h₂ h₃ =>
            split
            case h_1 hnone =>
              refine .refuse_cons (live_compounds hK) fun w hw => ?_
              obtain ((h | ⟨o, h⟩) | h) | h := mem_compounds.mp hw
              · exact h₁ (cons_mem_ahead.mp h).1
              · rw [unary?_eq_some_iff.mpr ⟨o, (cons_mem_ahead.mp h).1, rfl⟩] at hnone
                cases hnone
              · exact h₂ (cons_mem_ahead.mp h).1
              · exact h₃ (cons_mem_ahead.mp h).1
            case h_2 mk hmk =>
              obtain ⟨o, hk, -⟩ := unary?_eq_some_iff.mp hmk
              refine .next ?_
              rw [hk, compounds_unary]
              refine (ih (by omega) hclose).bind fun _ r₁ _ _ => ?_
              exact (reads_token hK).bind fun _ _ _ _ => .refl
      case h_3 h₁ h₂ =>
        refine .refuse_cons hlive fun w hw => ?_
        obtain h | h | ⟨o, h⟩ | h | h := mem_term.mp hw
        · exact h₁ (cons_mem_ahead.mp h).1
        all_goals exact h₂ (cons_mem_ahead.mp h).1

/-! ## contexts and sequents -/

/-- What comes in a context after a binding. -/
def moreBindings (K : Language TokenKind) : Language TokenKind := commaBindings * ahead [rbrace] K

theorem mem_moreBindings {w : List TokenKind} : w ∈ moreBindings K ↔
    w ∈ ahead [rbrace] K ∨ w ∈ ahead [comma, binding] (moreBindings K) := mem_commaBindings

theorem live_moreBindings (hK : Live K) : Live (moreBindings K) := by
  obtain ⟨w, hw⟩ : Live (ahead [rbrace] K) := live_ahead hK
  exact ⟨w, mem_moreBindings.mpr (.inl hw)⟩

theorem bindings_mul :
    bindings.sentences * ahead [rbrace] K = ahead [ident, colon, ty] (moreBindings K) := by
  rw [bindings_sentences, mul_assoc, ← moreBindings, binding_mul]

theorem reads_readBindings {n : Nat} {ts : List Token} {S : Language TokenKind} (hn : ts.length < n)
    (hK : Live K) (hS : Awaits ident S (ahead [colon, ty] (moreBindings K)) ts) :
    Reads S K ts (readBindings ts) := by
  induction n generalizing ts S with
  | zero => exact absurd hn (Nat.not_lt_zero _)
  | succ n ih =>
    have hmore := live_moreBindings hK
    rw [readBindings]
    refine (reads_expect hS (live_ahead hmore)).bind fun _ r₁ h₁ _ => ?_
    refine (reads_token hmore).bind fun _ r₂ h₂ _ => ?_
    refine (reads_readTy (Nat.lt_succ_self _) hmore).bind fun _ r₃ h₃ _ => ?_
    cases r₃ with
    | nil => exact .refuse_nil hmore (by simp [mem_moreBindings])
    | cons t m =>
      rw [List.length_cons] at h₃
      simp only [next_bind]
      split
      case h_1 ht =>
        refine .take (leftQuotient_eq fun w => ?_)
        rw [mem_moreBindings, ht]
        simp
      case h_2 ht =>
        have hstep : (moreBindings K).leftQuotient [t.kind] = ahead [ident, colon, ty] (moreBindings K) := by
          refine leftQuotient_eq fun w => ?_
          rw [mem_moreBindings, ht, ← binding_mul]
          simp
        refine .next ?_
        rw [hstep]
        exact (ih (by omega) awaits_ahead).bind fun _ _ _ _ => .refl
      case h_3 hbrace hcomma =>
        refine .refuse_cons hmore fun w hw => ?_
        obtain h | h := mem_moreBindings.mp hw
        exacts [hbrace (cons_mem_ahead.mp h).1, hcomma (cons_mem_ahead.mp h).1]

theorem error_of_bindAll {Γ : Context} {bs : List (Token × Ty)} {e : Fault}
    (h : bindAll Γ bs = .error e) : ∃ y, e = .duplicate y := by
  induction bs generalizing Γ with
  | nil => cases h
  | cons b bs ih =>
    rw [bindAll] at h
    split at h
    case isTrue => exact ⟨b.1, (Except.error.inj h).symm⟩
    case isFalse => exact ih h

/-- What comes in a context after its opening brace. -/
def contents (K : Language TokenKind) : Language TokenKind :=
  ahead [rbrace] K + ahead [ident, colon, ty] (moreBindings K)

theorem mem_contents {w : List TokenKind} : w ∈ contents K ↔
    w ∈ ahead [rbrace] K ∨ w ∈ ahead [ident, colon, ty] (moreBindings K) := Language.mem_add _ _ _

theorem live_contents (hK : Live K) : Live (contents K) := by
  obtain ⟨w, hw⟩ : Live (ahead [rbrace] K) := live_ahead hK
  exact ⟨w, mem_contents.mpr (.inl hw)⟩

theorem awaits_lbrace {ts : List Token} : Awaits lbrace (context.sentences * K) (contents K) ts where
  step := by
    refine leftQuotient_eq fun w => ?_
    rw [mem_context, mem_contents, ← bindings_mul]
    simp
  ending := by simp [mem_context]
  token t _ ht w hw := by simp [mem_context, ht] at hw

/-- A context that does not close at once starts with a binding. -/
theorem awaits_binding {t : Token} {m : List Token} (ht : t.kind ≠ rbrace) :
    Awaits ident (contents K) (ahead [colon, ty] (moreBindings K)) (t :: m) where
  step := by
    refine leftQuotient_eq fun w => ?_
    rw [mem_contents]
    simp
  ending := by simp [mem_contents]
  token := by
    rintro _ ⟨⟩ hident w hw
    obtain h | h := mem_contents.mp hw
    exacts [ht (cons_mem_ahead.mp h).1, hident (cons_mem_ahead.mp h).1]

theorem reads_readContext {ts : List Token} (hK : Live K) :
    Reads (context.sentences * K) K ts (readContext ts) := by
  have hlive := live_contents hK
  rw [readContext]
  refine (reads_expect awaits_lbrace hlive).bind fun _ r₁ _ _ => ?_
  cases r₁ with
  | nil => exact .refuse_nil hlive (by simp [mem_contents])
  | cons t m =>
    simp only [next_bind]
    split
    case isTrue ht =>
      refine .take (leftQuotient_eq fun w => ?_)
      rw [mem_contents, ht]
      simp
    case isFalse ht =>
      refine (reads_readBindings (Nat.lt_succ_self _) hK (awaits_binding ht)).bind fun _ _ _ _ => ?_
      exact .lift (fun _ => error_of_bindAll) fun _ => .refl

theorem reads_readSequent {ts : List Token} (hK : Live K) :
    Reads (sequent.sentences * K) K ts (readSequent ts) := by
  rw [sequent_mul, readSequent]
  refine (reads_readContext (live_ahead hK)).bind fun _ r₁ _ _ => ?_
  refine (reads_token hK).bind fun _ r₂ _ _ => ?_
  refine (reads_readTerm (Nat.lt_succ_self _) (live_ahead hK)).bind fun _ r₃ _ _ => ?_
  refine (reads_token hK).bind fun _ r₄ _ _ => ?_
  exact (reads_readTy (Nat.lt_succ_self _) hK).bind fun _ _ _ _ => .refl

/-! ## derivations -/

/-- What comes after a derivation starts with a parenthesis, if there is anything. -/
def Bracketed (K : Language TokenKind) : Prop := ∀ k w, k :: w ∈ K → k = lparen ∨ k = rparen

theorem reads_resolveRule {β : Type} {x : Token} {r : List Token} {f : Rule → β} {P : List Token → Prop}
    {h : P r} (hK : Live K) (hb : Bracketed K) :
    Reads K K r (resolveRule x r >>= fun R => .ok (f R, (⟨r, h⟩ : { r // P r }))) := by
  unfold resolveRule
  split
  case h_1 R hR => exact .refl
  case h_2 =>
    split
    case h_1 => exact .unknown hK
    case h_2 t m =>
      split
      case isTrue => exact .unknown hK
      case isFalse ht =>
        refine .refuse_cons hK fun w hw => ?_
        exact ht (hb _ _ hw)

theorem bracketed_premises {K' : Language TokenKind} :
    Bracketed (premises.sentences * ahead [rparen] K') := by
  intro k w hw
  rw [mem_premises, derivation_mul] at hw
  obtain h | h := hw
  exacts [.inr (cons_mem_ahead.mp h).1, .inl (cons_mem_ahead.mp h).1]

/-- After the premises that the reader takes there comes no other. -/
theorem head_of_readPremises {n : Nat} {ts r : List Token} {ds : List Derivation}
    (hn : ts.length < n) (h : Yields (readPremises ts) ds r) : ∀ t ∈ r.head?, t.kind ≠ lparen := by
  induction n generalizing ts ds with
  | zero => exact absurd hn (Nat.not_lt_zero _)
  | succ n ih =>
    rw [readPremises.eq_def] at h
    split at h
    case h_1 =>
      obtain ⟨-, rfl⟩ := yields_ok_iff.mp h
      exact fun _ ht => absurd ht (Option.not_mem_none _)
    case h_2 t m =>
      split at h
      case isTrue ht =>
        simp only [yields_bind_iff, yields_ok_iff, exists_prop] at h
        obtain ⟨d, m', -, hm', ds, _, hds, -, rfl, rfl⟩ := h
        exact ih (by omega) hds
      case isFalse ht =>
        obtain ⟨-, rfl⟩ := yields_ok_iff.mp h
        rintro _ ⟨⟩
        exact ht

theorem awaits_rparen {ts : List Token} (h : ∀ t ∈ ts.head?, t.kind ≠ lparen) :
    Awaits rparen (premises.sentences * ahead [rparen] K) K ts where
  step := by
    refine leftQuotient_eq fun w => ?_
    rw [mem_premises, derivation_mul]
    simp
  ending := by
    rw [mem_premises, derivation_mul]
    simp
  token t ht hr w hw := by
    obtain e | e := bracketed_premises t.kind w hw
    exacts [h t ht e, hr e]

/-- A parenthesis that opens among premises opens a derivation. -/
theorem premises_lparen {t : Token} (ht : t.kind = lparen) :
    (premises.sentences * ahead [rparen] K).leftQuotient [t.kind] =
      (derivation.sentences * (premises.sentences * ahead [rparen] K)).leftQuotient [t.kind] := by
  ext w
  rw [Language.mem_leftQuotient, Language.mem_leftQuotient, mem_premises, ht]
  simp

theorem live_derivation_lparen {t : Token} (ht : t.kind = lparen) (hK : Live K) :
    Live ((derivation.sentences * K).leftQuotient [t.kind]) := by
  obtain ⟨w, hw⟩ : Live (ahead [ident, sequent, premises, rparen] K) := live_ahead hK
  refine ⟨w, ?_⟩
  rw [Language.mem_leftQuotient, derivation_mul, ht]
  exact cons_mem_ahead.mpr ⟨rfl, hw⟩

/-- The two readers of derivations call each other; a list of premises may start with a derivation that
takes all of its tokens. -/
theorem reads_readDerivation (n : Nat) :
    (∀ (ts : List Token) (K : Language TokenKind), ts.length < n → Live K → Bracketed K →
      Reads (derivation.sentences * K) K ts (readDerivation ts)) ∧
    ∀ (ts : List Token) (K : Language TokenKind), ts.length < n → Live K →
      Reads (premises.sentences * ahead [rparen] K) (premises.sentences * ahead [rparen] K) ts
        (readPremises ts) := by
  induction n with
  | zero => constructor <;> exact fun _ _ hn => absurd hn (Nat.not_lt_zero _)
  | succ n ih =>
    have step : ∀ (ts : List Token) (K : Language TokenKind), ts.length < n + 1 → Live K →
        Bracketed K → Reads (derivation.sentences * K) K ts (readDerivation ts) := by
      intro ts K hn hK hb
      rw [derivation_mul, readDerivation]
      refine (reads_token hK).bind fun _ r₁ _ _ => ?_
      refine (reads_token hK).bind fun x r₂ _ _ => ?_
      refine (reads_readSequent (live_ahead hK)).bind fun _ r₃ _ _ => ?_
      refine (ih.2 r₃ K (by omega) hK).bind fun _ r₄ _ h₄ => ?_
      have hr₄ := head_of_readPremises (Nat.lt_succ_self _) ⟨_, h₄⟩
      refine (reads_expect (awaits_rparen hr₄) hK).bind fun _ r₅ _ _ => ?_
      exact reads_resolveRule hK hb
    refine ⟨step, fun ts K hn hK => ?_⟩
    rw [readPremises.eq_def]
    split
    case h_1 => exact .refl
    case h_2 t m =>
      split
      case isTrue ht =>
        have hS : Live (premises.sentences * ahead [rparen] K) := live_sentences_mul (live_ahead hK)
        have hd := (step (t :: m) _ hn hS bracketed_premises).congr_head
          (premises_lparen ht) (live_derivation_lparen ht hS)
        refine hd.bind fun _ r₁ h₁ _ => ?_
        rw [List.length_cons] at hn h₁
        exact (ih.2 r₁ K (by omega) hK).bind fun _ _ _ _ => .refl
      case isFalse => exact .refl

end

/-! ## whole texts -/

/-- The tokens start a sentence of `n`, or are one. -/
def Nonterminal.Begins (n : Nonterminal) (us : List Token) : Prop :=
  ∃ w, us.map Token.kind ++ w ∈ n.sentences

/-- The errors that a parser for `n` reports at a place in the text are at the earliest one. -/
structure EarliestErrors (n : Nonterminal) (parse : String → Except SyntaxError n.Value) : Prop where
  /-- the tokens before an unexpected one start a sentence, and with it they do not -/
  token : ∀ src e, parse src = .error e → e.cause = .token →
    ∃ us t r, (lex src.toList).tokens = us ++ t :: r ∧ e.span = t.span ∧
      n.Begins us ∧ ¬ n.Begins (us ++ [t])
  /-- where the text ends too early, its tokens are no sentence but start a longer one -/
  ending : ∀ src e, parse src = .error e → e.cause = .ending →
    ∃ pos, (lex src.toList).ending = .eof pos ∧ e.span = ⟨pos, pos⟩ ∧
      (lex src.toList).tokens.map Token.kind ∉ n.sentences ∧
      ∃ w ≠ [], (lex src.toList).tokens.map Token.kind ++ w ∈ n.sentences
  /-- the tokens before an unexpected character start a sentence or are one -/
  character : ∀ src e c, parse src = .error e → e.cause = .character c →
    ∃ pos, (lex src.toList).ending = .bad c pos ∧ e.span = ⟨pos, pos + 1⟩ ∧
      n.Begins (lex src.toList).tokens

section
variable {n : Nonterminal} {read : (ts : List Token) → Read n.Value ts} {src : String}

theorem refuses_one {t : Token} {r : List Token} : Refuses 1 (t :: r) :=
  ⟨⟨[], Language.nil_mem_one⟩, nofun, fun _ _ w hw => by cases hw⟩

/-- Why a text with these tokens is refused: at a token that cannot come, where the tokens end, or for a
name. -/
inductive Stops (S : Language TokenKind) (l : Lexed) : SyntaxError → Prop
  | token {T : Language TokenKind} {t : Token} {r : List Token} (h : Reaches S l.tokens T (t :: r))
      (hT : Refuses T (t :: r)) : Stops S l ⟨.token, t.span⟩
  | ending {T : Language TokenKind} {pos : Nat} (h : Reaches S l.tokens T []) (hT : Refuses T [])
      (hend : l.ending = .eof pos) : Stops S l ⟨.ending, pos, pos⟩
  | character {T : Language TokenKind} {c : Char} {pos : Nat} (h : Reaches S l.tokens T [])
      (hT : Live T) (hend : l.ending = .bad c pos) : Stops S l ⟨.character c, pos, pos + 1⟩
  | duplicate {x : String} {s : Span} : Stops S l ⟨.duplicate x, s⟩
  | rule {x : String} {s : Span} : Stops S l ⟨.rule x, s⟩

theorem stops_of_refuses {S T : Language TokenKind} {l : Lexed} {r : List Token}
    (h : Reaches S l.tokens T r) (hT : Refuses T r) :
    Stops S l ((Fault.unexpected r).error l.ending) := by
  cases r with
  | cons t r => exact .token h hT
  | nil =>
    obtain ⟨ts, ⟨pos⟩ | ⟨c, pos⟩⟩ := l
    · exact .ending h hT rfl
    · exact .character h hT.live rfl

theorem stops_of_parseWith {e : SyntaxError}
    (h : Reads n.sentences 1 (lex src.toList).tokens (read (lex src.toList).tokens))
    (he : parseWith read src = .error e) : Stops n.sentences (lex src.toList) e := by
  rw [parseWith] at he
  generalize lex src.toList = l at h he ⊢
  split at he
  case h_1 f hf =>
    obtain rfl := Except.error.inj he
    cases f with
    | unexpected r =>
      obtain ⟨T, hT, hrefuse⟩ := h.stuck r hf
      exact stops_of_refuses hT hrefuse
    | duplicate x => exact .duplicate
    | unknownRule x r =>
      obtain ⟨T, hT, hlive⟩ := h.late x r hf
      cases r with
      | cons t r => exact .rule
      | nil =>
        obtain ⟨ts, ⟨pos⟩ | ⟨c, pos⟩⟩ := l
        · exact .rule
        · exact .character hT hlive rfl
  case h_2 v hr hread =>
    split at he
    case h_1 => cases he
    case h_2 c pos hend =>
      obtain rfl := Except.error.inj he
      exact .character (h.ok v [] ⟨_, hread⟩) ⟨[], Language.nil_mem_one⟩ hend
  case h_3 v t r hr hread =>
    obtain rfl := Except.error.inj he
    exact stops_of_refuses (h.ok v _ ⟨_, hread⟩) refuses_one

theorem earliestErrors_of_reads (h : ∀ ts, Reads (n.sentences * 1) 1 ts (read ts)) :
    EarliestErrors n (parseWith read) := by
  rw [mul_one] at h
  refine ⟨fun src e he hc => ?_, fun src e he hc => ?_, fun src e c he hc => ?_⟩
  · cases stops_of_parseWith (h _) he with
    | @token T t r hT hrefuse =>
      obtain ⟨us, hus, rfl⟩ := hT
      refine ⟨us, t, r, hus, rfl, hrefuse.live, ?_⟩
      rintro ⟨w, hw⟩
      refine hrefuse.token t rfl w ?_
      rw [List.map_append, List.append_assoc] at hw
      exact hw
    | _ => cases hc
  · cases stops_of_parseWith (h _) he with
    | ending hT hrefuse hend =>
      obtain ⟨us, hus, rfl⟩ := hT
      rw [List.append_nil] at hus
      have hnil := hrefuse.ending rfl
      obtain ⟨w, hw⟩ := hrefuse.live
      rw [← hus] at hnil hw
      refine ⟨_, hend, rfl, ?_, w, ?_, hw⟩
      · rw [Language.mem_leftQuotient, List.append_nil] at hnil
        exact hnil
      · rintro rfl
        exact hnil hw
    | _ => cases hc
  · cases stops_of_parseWith (h _) he with
    | character hT hlive hend =>
      cases hc
      obtain ⟨us, hus, rfl⟩ := hT
      rw [List.append_nil] at hus
      rw [← hus] at hlive
      exact ⟨_, hend, rfl, hlive⟩
    | _ => cases hc

end

/-- **Syntax errors are reported at the earliest place.** -/
theorem parse_error_earliest :
    EarliestErrors .ty parseTy ∧ EarliestErrors .term parseTerm ∧
      EarliestErrors .context parseContext ∧ EarliestErrors .sequent parseSequent ∧
      EarliestErrors .derivation parseDerivation := by
  have hlive : Live 1 := ⟨[], Language.nil_mem_one⟩
  have hb : Bracketed 1 := fun k w hw => by cases hw
  exact ⟨earliestErrors_of_reads fun _ => reads_readTy (Nat.lt_succ_self _) hlive,
    earliestErrors_of_reads fun _ => reads_readTerm (Nat.lt_succ_self _) hlive,
    earliestErrors_of_reads fun _ => reads_readContext hlive,
    earliestErrors_of_reads fun _ => reads_readSequent hlive,
    earliestErrors_of_reads fun ts => (reads_readDerivation _).1 ts 1 (Nat.lt_succ_self _) hlive hb⟩

end NaturalDeduction.Source

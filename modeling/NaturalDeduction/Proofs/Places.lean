import NaturalDeduction.Source.Parser
import NaturalDeduction.Proofs.Lexing

/-!
# The places of tokens

* `Span.Inside`          a span that lies in a text;
* `Token.StandsIn`       a token whose characters are those of the text at its position;
* `StartsNothing`        what a text may not go on with: no token, blank or comment starts so;
* `Ending.StandsIn`      the tokens of a text end where it ends, or before something that starts nothing;
* `lex_places`           the tokens that are found in a text, and their end, stand in it.
-/

namespace NaturalDeduction.Source

/-- The span lies in the text. -/
structure Span.Inside (s : Span) (src : List Char) : Prop where
  start : 0 ≤ s.start
  order : s.start ≤ s.stop
  stop : s.stop ≤ src.length

theorem Span.inside_nat {a b : Nat} {src : List Char} (hab : a ≤ b) (hb : b ≤ src.length) :
    Span.Inside ⟨a, b⟩ src := by
  refine ⟨?_, ?_, ?_⟩
  · show (0 : Int) ≤ a
    omega
  · show (a : Int) ≤ b
    omega
  · show (b : Int) ≤ src.length
    omega

/-- The characters of a span in the middle of a text. -/
theorem Span.extract_middle (pre mid post : List Char) :
    Span.extract ⟨pre.length, (pre.length + mid.length : Nat)⟩ (pre ++ (mid ++ post)) = mid := by
  show Text.slice _ (pre.length : Int) ((pre.length + mid.length : Nat) : Int) = mid
  have hle : pre.length + mid.length ≤ (pre ++ (mid ++ post)).length := by
    rw [List.length_append, List.length_append]
    omega
  rw [Text.slice, Text.takeTo_natCast _ hle, Text.offset_natCast (by omega), ← List.append_assoc,
    ← List.length_append, List.take_left, List.drop_left]

/-- The characters of the text at the position of the token are those of the token. -/
def Token.StandsIn (t : Token) (src : List Char) : Prop :=
  ∃ pre post, src = pre ++ (t.text.toList ++ post) ∧ pre.length = t.pos

theorem Token.span_eq (t : Token) : t.span = ⟨t.pos, (t.pos + t.text.toList.length : Nat)⟩ := by
  rw [Token.span, String.length_toList]
  congr 1

theorem Token.StandsIn.inside {t : Token} {src : List Char} (h : t.StandsIn src) :
    t.span.Inside src := by
  obtain ⟨pre, post, rfl, hpos⟩ := h
  rw [t.span_eq]
  refine Span.inside_nat (by omega) ?_
  rw [List.length_append, List.length_append]
  omega

theorem Token.StandsIn.extract {t : Token} {src : List Char} (h : t.StandsIn src) :
    t.span.extract src = t.text.toList := by
  obtain ⟨pre, post, rfl, hpos⟩ := h
  rw [t.span_eq, ← hpos]
  exact Span.extract_middle pre t.text.toList post

/-- No blank, no comment, no word and no symbol starts like this. -/
structure StartsNothing (cs : List Char) : Prop where
  blank : ∀ c ∈ cs.head?, isSpacing c = false ∧ c ≠ '\n'
  comment : ∀ c ∈ cs.head?, c ≠ '#'
  word : ∀ c ∈ cs.head?, isWordStart c = false
  symbol : ∀ p ∈ symbols, ¬ p.1 <+: cs

/-- The place where the tokens of a text end. -/
inductive Ending.StandsIn (src : List Char) : Ending → Prop
  | eof : StandsIn src (.eof src.length)
  | bad {pre r : List Char} {c : Char} (h : src = pre ++ c :: r) (hr : StartsNothing (c :: r)) :
      StandsIn src (.bad c pre.length)

theorem isWordStart_of_lexeme? {c : Char} {r : List Char} (h : lexeme? c r = none) :
    isWordStart c = false := by
  unfold lexeme? at h
  cases hc : isWordStart c with
  | false => rfl
  | true =>
    rw [hc] at h
    cases h

theorem startsNothing_of_lexeme? {c : Char} {r : List Char} (hn : (c == '\n') = false)
    (hs : isSpacing c = false) (hh : (c == '#') = false) (h : lexeme? c r = none) :
    StartsNothing (c :: r) := by
  have hd : ∀ d ∈ (c :: r).head?, d = c := fun d hd => (Option.some.inj hd).symm
  refine ⟨fun d hd' => ?_, fun d hd' => ?_, fun d hd' => ?_, fun p hp hpre => ?_⟩
  · rw [hd d hd']
    exact ⟨hs, ne_of_beq_false hn⟩
  · rw [hd d hd']
    exact ne_of_beq_false hh
  · rw [hd d hd']
    exact isWordStart_of_lexeme? h
  · obtain ⟨cs, hcs⟩ := hpre
    obtain ⟨d, w, hw, -, hl⟩ := lexeme?_symbol hp cs
    rw [hw, List.cons_append] at hcs
    obtain ⟨rfl, rfl⟩ := List.cons.inj hcs
    rw [h] at hl
    cases hl

/-- A token takes no more than there is. -/
theorem le_of_lexeme? {c : Char} {r : List Char} {k : TokenKind} {n : Nat}
    (h : lexeme? c r = some (k, n)) : n ≤ r.length := by
  have two : ∀ d e : Char, (c == d && r.head? == some e) = true → 1 ≤ r.length := by
    intro d e hde
    obtain ⟨-, he⟩ := Bool.and_eq_true_iff.mp hde
    obtain ⟨r', rfl⟩ := List.head?_eq_some_iff.mp (beq_iff_eq.mp he)
    exact Nat.succ_le_succ (Nat.zero_le _)
  unfold lexeme? at h
  split at h
  case isTrue =>
    obtain ⟨-, rfl⟩ := Prod.mk.inj (Option.some.inj h)
    exact (List.takeWhile_prefix _).length_le
  case isFalse =>
    split at h
    case isTrue ha =>
      obtain ⟨-, rfl⟩ := Prod.mk.inj (Option.some.inj h)
      exact two _ _ ha
    case isFalse =>
      split at h
      case isTrue ht =>
        obtain ⟨-, rfl⟩ := Prod.mk.inj (Option.some.inj h)
        exact two _ _ ht
      case isFalse =>
        obtain ⟨k', -, he⟩ := Option.map_eq_some_iff.mp h
        obtain ⟨-, rfl⟩ := Prod.mk.inj he
        exact Nat.zero_le _

theorem lexFrom_places {src pre cs : List Char} {pos line : Nat} {acc : List Token}
    (hsrc : src = pre ++ cs) (hpos : pre.length = pos) (hacc : ∀ t ∈ acc, t.StandsIn src) :
    (∀ t ∈ (lexFrom cs pos line acc).tokens, t.StandsIn src) ∧
      (lexFrom cs pos line acc).ending.StandsIn src := by
  -- what is scanned already is `pre`
  induction cs, pos, line, acc using lexFrom.induct generalizing pre with
  | case1 pos line acc =>
    rw [lexFrom]
    refine ⟨fun t ht => hacc t (List.mem_reverse.mp ht), ?_⟩
    rw [List.append_nil] at hsrc
    rw [← hpos, ← hsrc]
    exact .eof
  | case2 pos line acc c r hc ih =>
    rw [lexFrom, if_pos hc]
    refine ih (hsrc.trans (List.append_cons pre c r)) ?_ hacc
    rw [List.length_append, hpos, List.length_singleton]
  | case3 pos line acc c r hn hc ih =>
    rw [lexFrom, if_neg hn, if_pos hc]
    refine ih (hsrc.trans (List.append_cons pre c r)) ?_ hacc
    rw [List.length_append, hpos, List.length_singleton]
  | case4 pos line acc c r hn hs hc n =>
    rename_i ih
    rw [lexFrom, if_neg hn, if_neg hs, if_pos hc]
    have hrest : src = (pre ++ c :: r.takeWhile (· != '\n')) ++ r.drop n := by
      rw [hsrc, List.append_assoc, List.cons_append]
      show _ = pre ++ c :: (_ ++ r.drop (r.takeWhile (· != '\n')).length)
      rw [drop_length_takeWhile, List.takeWhile_append_dropWhile]
    refine ih hrest ?_ hacc
    show _ = pos + 1 + (r.takeWhile (· != '\n')).length
    rw [List.length_append, List.length_cons, hpos]
    omega
  | case5 pos line acc c r hn hs hc hl =>
    rw [lexFrom, if_neg hn, if_neg hs, if_neg hc, hl]
    refine ⟨fun t ht => hacc t (List.mem_reverse.mp ht), ?_⟩
    rw [← hpos]
    exact .bad hsrc (startsNothing_of_lexeme? (by simpa using hn) (by simpa using hs)
      (by simpa using hc) hl)
  | case6 pos line acc c r hn hs hc k n hl text =>
    rename_i ih
    have hle := le_of_lexeme? hl
    rw [lexFrom_lexeme ⟨by simpa using hn, by simpa using hs, by simpa using hc⟩ hl]
    have htext : src = pre ++ ((c :: r.take n) ++ r.drop n) := by
      rw [hsrc, List.cons_append, List.take_append_drop]
    have hrest : src = (pre ++ c :: r.take n) ++ r.drop n := by
      rw [htext, List.append_assoc]
    refine ih hrest ?_ (List.forall_mem_cons.mpr ⟨?_, hacc⟩)
    · rw [List.length_append, List.length_cons, List.length_take, hpos]
      omega
    · exact ⟨pre, r.drop n, by rw [String.toList_ofList]; exact htext, hpos⟩

/-- The tokens of a text stand in it, and so does their end. -/
theorem lex_places (src : List Char) :
    (∀ t ∈ (lex src).tokens, t.StandsIn src) ∧ (lex src).ending.StandsIn src :=
  lexFrom_places (show src = [] ++ src from rfl) rfl nofun

end NaturalDeduction.Source

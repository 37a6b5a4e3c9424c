import NaturalDeduction.Source.Token
import Mathlib.Data.List.TakeWhile

/-!
# What a text is made of

A text is cut into lexemes with blanks, line feeds and comments between them. The cut is described here
without a scanner: symbols have fixed spellings, and a word ends where the next character cannot go on
with it.

* `symbols`          the spellings of the symbols;
* `Layout cs ls`     the text `cs` is made of the lexemes `ls`;
* `layout_iff`       the scanner reaches the end of a text and finds the lexemes `ls` exactly if the
                     text is made of them.
-/

namespace NaturalDeduction.Source

/-- A token without its place. -/
structure Lexeme where
  kind : TokenKind
  text : String
  deriving DecidableEq, Repr

def Token.lexeme (t : Token) : Lexeme := ⟨t.kind, t.text⟩

/-- The spellings of the symbols. -/
def symbols : List (List Char × TokenKind) :=
  [(['-', '>'], .arrow), (['→'], .arrow), (['*'], .times), (['×'], .times), (['+'], .plus),
   (['|', '-'], .turnstile), (['⊢'], .turnstile), ([':'], .colon), ([','], .comma),
   (['('], .lparen), ([')'], .rparen), (['\x7b'], .lbrace), (['\x7d'], .rbrace),
   (['λ'], .lambda), (['⊥'], .bot)]

/-- The text starts with no character that could go on with a word. -/
def EndsWord (cs : List Char) : Prop := ∀ d ∈ cs.head?, isWordChar d = false

/-- The text `cs` is made of the lexemes `ls`, apart from blanks, line feeds and comments. -/
inductive Layout : List Char → List Lexeme → Prop
  | done : Layout [] []
  | blank {c : Char} {cs : List Char} {ls : List Lexeme} (hc : isSpacing c = true ∨ c = '\n')
      (h : Layout cs ls) : Layout (c :: cs) ls
  | comment {w cs : List Char} {ls : List Lexeme} (hw : '\n' ∉ w)
      (hcs : ∀ d ∈ cs.head?, d = '\n') (h : Layout cs ls) : Layout ('#' :: (w ++ cs)) ls
  | symbol {s cs : List Char} {k : TokenKind} {ls : List Lexeme} (hs : (s, k) ∈ symbols)
      (h : Layout cs ls) : Layout (s ++ cs) (⟨k, String.ofList s⟩ :: ls)
  | word {c : Char} {w cs : List Char} {ls : List Lexeme} (hc : isWordStart c = true)
      (hw : ∀ d ∈ w, isWordChar d = true) (hcs : EndsWord cs) (h : Layout cs ls) :
      Layout (c :: (w ++ cs))
        (⟨.ofWord (String.ofList (c :: w)), String.ofList (c :: w)⟩ :: ls)

section
variable {α : Type} {p : α → Bool} {w r : List α}

theorem takeWhile_append_of_head (hw : ∀ a ∈ w, p a = true) (hr : ∀ a ∈ r.head?, p a = false) :
    (w ++ r).takeWhile p = w := by
  rw [List.takeWhile_append_of_pos hw]
  cases r with
  | nil => simp
  | cons a r => rw [List.takeWhile_cons_of_neg (by simp [hr a rfl]), List.append_nil]

theorem drop_length_takeWhile (l : List α) : l.drop (l.takeWhile p).length = l.dropWhile p := by
  conv => lhs; arg 2; rw [← List.takeWhile_append_dropWhile (p := p) (l := l)]
  exact List.drop_left

theorem head_dropWhile (l : List α) : ∀ a ∈ (l.dropWhile p).head?, p a = false := by
  intro a ha
  have h := List.head?_dropWhile_not p l
  rw [Option.mem_def.mp ha] at h
  exact h

end

/-! ## one step of the scanner -/

section
variable {c : Char} {cs r : List Char} {pos line : Nat} {acc : List Token}

theorem isWordStart_ne {c d : Char} (hc : isWordStart c = true) (hd : isWordStart d = false) :
    c ≠ d := by
  rintro rfl
  rw [hc] at hd
  cases hd

/-- A character that starts a lexeme is no blank and starts no comment. -/
structure Inked (c : Char) : Prop where
  feed : (c == '\n') = false
  spacing : isSpacing c = false
  hash : (c == '#') = false

theorem Inked.of_wordStart (hc : isWordStart c = true) : Inked c := by
  have hne : ∀ d, isWordStart d = false → (c == d) = false := fun d hd =>
    beq_false_of_ne (isWordStart_ne hc hd)
  refine ⟨hne _ (by decide), ?_, hne _ (by decide)⟩
  rw [isSpacing, hne ' ' (by decide), hne '\t' (by decide), hne '\r' (by decide)]
  rfl

theorem lexFrom_blank (hc : isSpacing c = true ∨ c = '\n') :
    ∃ line', lexFrom (c :: cs) pos line acc = lexFrom cs (pos + 1) line' acc := by
  by_cases hn : c = '\n'
  · subst hn
    exact ⟨line + 1, by rw [lexFrom]; simp⟩
  · have hs : isSpacing c = true := hc.resolve_right hn
    exact ⟨line, by rw [lexFrom]; simp [hn, hs]⟩

theorem lexFrom_comment {w : List Char} (hw : '\n' ∉ w) (hcs : ∀ d ∈ cs.head?, d = '\n') :
    lexFrom ('#' :: (w ++ cs)) pos line acc = lexFrom cs (pos + 1 + w.length) line acc := by
  have htake : (w ++ cs).takeWhile (· != '\n') = w := by
    refine takeWhile_append_of_head (fun d hd => ?_) (fun d hd => ?_)
    · exact bne_iff_ne.mpr fun e => hw (e ▸ hd)
    · rw [hcs d hd]
      rfl
  rw [lexFrom]
  simp [isSpacing, htake]

theorem lexFrom_lexeme {k : TokenKind} {n : Nat} (hc : Inked c) (h : lexeme? c r = some (k, n)) :
    lexFrom (c :: r) pos line acc =
      lexFrom (r.drop n) (pos + 1 + n) line
        (⟨k, String.ofList (c :: r.take n), pos, line⟩ :: acc) := by
  rw [lexFrom]
  simp [hc.feed, hc.spacing, hc.hash, h]

theorem lexeme?_word {w : List Char} (hc : isWordStart c = true)
    (hw : ∀ d ∈ w, isWordChar d = true) (hcs : EndsWord cs) :
    lexeme? c (w ++ cs) = some (.ofWord (String.ofList (c :: w)), w.length) := by
  simp [lexeme?, hc, takeWhile_append_of_head hw hcs]

theorem lexeme?_symbol {s : List Char} {k : TokenKind} (hs : (s, k) ∈ symbols) (cs : List Char) :
    ∃ c w, s = c :: w ∧ Inked c ∧ lexeme? c (w ++ cs) = some (k, w.length) := by
  simp only [symbols, List.mem_cons, Prod.mk.injEq, List.not_mem_nil, or_false] at hs
  obtain ⟨rfl, rfl⟩ | ⟨rfl, rfl⟩ | ⟨rfl, rfl⟩ | ⟨rfl, rfl⟩ | ⟨rfl, rfl⟩ | ⟨rfl, rfl⟩ | ⟨rfl, rfl⟩ |
    ⟨rfl, rfl⟩ | ⟨rfl, rfl⟩ | ⟨rfl, rfl⟩ | ⟨rfl, rfl⟩ | ⟨rfl, rfl⟩ | ⟨rfl, rfl⟩ | ⟨rfl, rfl⟩ |
    ⟨rfl, rfl⟩ := hs
  all_goals
    exact ⟨_, _, rfl, ⟨by decide, by decide, by decide⟩, by simp [lexeme?, isWordStart, symbol?]⟩

theorem mem_symbols_of_symbol? {k : TokenKind} (h : symbol? c = some k) : ([c], k) ∈ symbols := by
  unfold symbol? at h
  split at h
  case h_14 => cases h
  all_goals
    cases Option.some.inj h
    decide

/-- A lexeme is a whole word or a symbol. -/
theorem lexeme?_cases {k : TokenKind} {n : Nat} (h : lexeme? c r = some (k, n)) :
    (isWordStart c = true ∧ n = (r.takeWhile isWordChar).length ∧
      k = .ofWord (String.ofList (c :: r.takeWhile isWordChar))) ∨
    (c :: r.take n, k) ∈ symbols := by
  unfold lexeme? at h
  split at h
  case isTrue hc =>
    obtain ⟨rfl, rfl⟩ := Prod.mk.inj (Option.some.inj h)
    exact .inl ⟨hc, rfl, rfl⟩
  case isFalse =>
    right
    have two : ∀ d e : Char, (c == d && r.head? == some e) = true → c :: r.take 1 = [d, e] := by
      intro d e hde
      obtain ⟨hd, he⟩ := Bool.and_eq_true_iff.mp hde
      obtain ⟨r', rfl⟩ := List.head?_eq_some_iff.mp (beq_iff_eq.mp he)
      rw [beq_iff_eq.mp hd]
      rfl
    split at h
    case isTrue ha =>
      obtain ⟨rfl, rfl⟩ := Prod.mk.inj (Option.some.inj h)
      rw [two _ _ ha]
      decide
    case isFalse =>
      split at h
      case isTrue ht =>
        obtain ⟨rfl, rfl⟩ := Prod.mk.inj (Option.some.inj h)
        rw [two _ _ ht]
        decide
      case isFalse =>
        obtain ⟨k', hk, he⟩ := Option.map_eq_some_iff.mp h
        obtain ⟨rfl, rfl⟩ := Prod.mk.inj he
        exact mem_symbols_of_symbol? hk

end

/-! ## whole texts -/

/-- The scanner takes a text apart as it is laid out. -/
theorem Layout.lexFrom {cs : List Char} {ls : List Lexeme} (h : Layout cs ls) (pos line : Nat)
    (acc : List Token) :
    ∃ ts p, ts.map Token.lexeme = ls ∧ lexFrom cs pos line acc = ⟨acc.reverse ++ ts, .eof p⟩ := by
  induction h generalizing pos line acc with
  | done => exact ⟨[], pos, rfl, by rw [Source.lexFrom, List.append_nil]⟩
  | blank hc _ ih =>
    obtain ⟨line', h'⟩ := lexFrom_blank hc
    rw [h']
    exact ih _ _ _
  | comment hw hcs _ ih =>
    rw [lexFrom_comment hw hcs]
    exact ih _ _ _
  | @symbol s cs k ls hs _ ih =>
    obtain ⟨c, w, rfl, hc, hl⟩ := lexeme?_symbol hs cs
    obtain ⟨ts, p, hts, h'⟩ := ih (pos + 1 + w.length) line
      (⟨k, String.ofList (c :: w), pos, line⟩ :: acc)
    refine ⟨⟨k, String.ofList (c :: w), pos, line⟩ :: ts, p, by rw [List.map_cons, hts]; rfl, ?_⟩
    rw [List.cons_append, lexFrom_lexeme hc hl, List.take_left, List.drop_left, h']
    simp
  | @word c w cs ls hc hw hcs _ ih =>
    obtain ⟨ts, p, hts, h'⟩ := ih (pos + 1 + w.length) line
      (⟨.ofWord (String.ofList (c :: w)), String.ofList (c :: w), pos, line⟩ :: acc)
    refine ⟨⟨.ofWord (String.ofList (c :: w)), String.ofList (c :: w), pos, line⟩ :: ts, p,
      by rw [List.map_cons, hts]; rfl, ?_⟩
    rw [lexFrom_lexeme (.of_wordStart hc) (lexeme?_word hc hw hcs), List.take_left, List.drop_left, h']
    simp

/-- A text that the scanner takes apart up to its end is laid out so. -/
theorem layout_of_lexFrom {cs : List Char} {pos line p : Nat} {acc : List Token}
    (h : (lexFrom cs pos line acc).ending = .eof p) : ∃ ls, Layout cs ls := by
  induction cs, pos, line, acc using lexFrom.induct with
  | case1 pos line acc => exact ⟨[], .done⟩
  | case2 pos line acc c r hc ih =>
    rw [lexFrom] at h
    simp only [hc, if_true] at h
    obtain ⟨ls, hl⟩ := ih h
    exact ⟨ls, .blank (.inr (beq_iff_eq.mp hc)) hl⟩
  | case3 pos line acc c r hn hc ih =>
    rw [lexFrom] at h
    simp only [hn, hc, if_true] at h
    obtain ⟨ls, hl⟩ := ih h
    exact ⟨ls, .blank (.inl hc) hl⟩
  | case4 pos line acc c r hn hs hc n ih =>
    rw [lexFrom] at h
    simp only [hn, hs, hc, if_true] at h
    obtain ⟨ls, hl⟩ := ih h
    refine ⟨ls, ?_⟩
    rw [drop_length_takeWhile] at hl
    rw [beq_iff_eq.mp hc, ← List.takeWhile_append_dropWhile (p := (· != '\n')) (l := r)]
    refine .comment (fun hmem => ?_) (fun d hd => ?_) hl
    · exact absurd (List.mem_takeWhile_imp hmem) (by decide)
    · simpa using head_dropWhile r d hd
  | case5 pos line acc c r hn hs hc hl =>
    rw [lexFrom] at h
    simp [hn, hs, hc, hl] at h
  | case6 pos line acc c r hn hs hc k n hl text ih =>
    rw [lexFrom_lexeme ⟨by simpa using hn, by simpa using hs, by simpa using hc⟩ hl] at h
    obtain ⟨ls, hlay⟩ := ih h
    obtain ⟨hc, rfl, -⟩ | hmem := lexeme?_cases hl
    · -- the scanner takes the longest word, so no character after it could go on with it
      rw [drop_length_takeWhile] at hlay
      have hw := Layout.word (w := r.takeWhile isWordChar) hc
        (fun d hd => List.mem_takeWhile_imp hd) (head_dropWhile r) hlay
      rw [List.takeWhile_append_dropWhile] at hw
      exact ⟨_, hw⟩
    · have hw := Layout.symbol hmem hlay
      rw [List.cons_append, List.take_append_drop] at hw
      exact ⟨_, hw⟩

/-- **The scanner finds exactly the lexemes of a text.** -/
theorem layout_iff {cs : List Char} {ls : List Lexeme} :
    Layout cs ls ↔ (∃ p, (lex cs).ending = .eof p) ∧ (lex cs).tokens.map Token.lexeme = ls := by
  constructor
  · intro h
    obtain ⟨ts, p, hts, hlex⟩ := h.lexFrom 0 1 []
    rw [lex, hlex]
    exact ⟨⟨p, rfl⟩, hts⟩
  · rintro ⟨⟨p, hp⟩, rfl⟩
    -- some lexemes make up the text, and the scanner finds these
    obtain ⟨ls, h⟩ := layout_of_lexFrom hp
    obtain ⟨ts, q, hts, hlex⟩ := h.lexFrom 0 1 []
    rw [lex, hlex]
    show Layout cs (ts.map Token.lexeme)
    rw [hts]
    exact h

theorem Layout.unique {cs : List Char} {ls ls' : List Lexeme} (h : Layout cs ls)
    (h' : Layout cs ls') : ls = ls' :=
  (layout_iff.mp h).2.symm.trans (layout_iff.mp h').2

end NaturalDeduction.Source

import NaturalDeduction.Proofs.Places
import NaturalDeduction.Proofs.RoundTrip

/-!
# Tokens and the gaps between them

The scanner takes a text apart from the front, with a count of the line feeds that it has passed. What
it finds is described here by positions in the whole text.

* `Gap`                  what may stand between tokens: blanks, line feeds and comments;
* `TokenKind.ofText?`    the kind of token that a text is;
* `Cut`                  a text as gaps and tokens in turn, up to where its tokens end;
* `lexFrom_cut`          the scanner cuts a text so;
* `Lexed.Lossless`       what this says about positions, characters and lines of the text;
* `lex_lossless`         nothing of a text is lost, and its lines are counted as spans count them.
-/

namespace NaturalDeduction.Source

/-- What may stand between tokens, with `rest` after it. A comment runs from its mark to before the
next line feed, or to the end of the text. -/
inductive Gap (rest : List Char) : List Char → Prop
  | nil : Gap rest []
  | blank {c : Char} {g : List Char} (hc : isSpacing c = true ∨ c = '\n') (h : Gap rest g) :
      Gap rest (c :: g)
  | comment {w g : List Char} (hw : '\n' ∉ w) (hend : ∀ d ∈ (g ++ rest).head?, d = '\n')
      (h : Gap rest g) : Gap rest ('#' :: (w ++ g))

/-- A gap before a gap makes one gap. -/
theorem Gap.append {g h rest : List Char} (hg : Gap (h ++ rest) g) (hh : Gap rest h) :
    Gap rest (g ++ h) := by
  induction hg with
  | nil => exact hh
  | blank hc _ ih => exact .blank hc ih
  | comment hw hend _ ih =>
    rw [List.cons_append, List.append_assoc]
    refine .comment hw ?_ ih
    rwa [List.append_assoc]

/-- The kind of token that a text is, if it is one. -/
def TokenKind.ofText? (s : String) : Option TokenKind :=
  if isWord s then some (ofWord s) else symbols.lookup s.toList

/-- A lexeme of kind `k` is spelled `w`, where `rest` comes after it. -/
structure IsLexeme (k : TokenKind) (w rest : List Char) : Prop where
  kind : TokenKind.ofText? (String.ofList w) = some k
  ne_nil : w ≠ []
  feed : '\n' ∉ w
  word : isWord (String.ofList w) = true → EndsWord rest

theorem isWord_ofList (c : Char) (w : List Char) :
    isWord (String.ofList (c :: w)) = (isWordStart c && w.all isWordChar) := by
  rw [isWord, String.toList_ofList]

/-- Identifiers and reserved words are words. -/
theorem isWord_of_ofText? {s : String} {k : TokenKind} (h : TokenKind.ofText? s = some k)
    (hk : k = .ident ∨ s ∈ TokenKind.reserved.map Prod.fst) : isWord s = true := by
  have hreserved : ∀ x ∈ TokenKind.reserved.map Prod.fst, isWord x = true := by decide
  rcases hk with rfl | hs
  · rw [TokenKind.ofText?] at h
    split at h
    case isTrue hs => exact hs
    case isFalse =>
      -- no symbol is an identifier
      have hsymbols : ∀ p ∈ symbols, p.2 ≠ .ident := by decide
      obtain ⟨l₁, l₂, hsplit, -⟩ := List.lookup_eq_some_iff.mp h
      exact absurd rfl (hsymbols (s.toList, .ident) (by rw [hsplit]; simp))
  · exact hreserved s hs

theorem isLexeme_symbol {s : List Char} {k : TokenKind} (h : (s, k) ∈ symbols) (rest : List Char) :
    IsLexeme k s rest := by
  have hall : ∀ p ∈ symbols, p.1 ≠ [] ∧ '\n' ∉ p.1 ∧ symbols.lookup p.1 = some p.2 ∧
      p.1.head?.any isWordStart = false := by decide
  obtain ⟨hne, hfeed, hlookup, hstart⟩ := hall _ h
  have hword : isWord (String.ofList s) = false := by
    cases s with
    | nil => exact absurd rfl hne
    | cons c w =>
      have hc : isWordStart c = false := hstart
      rw [isWord_ofList, hc, Bool.false_and]
  refine ⟨?_, hne, hfeed, fun hw => ?_⟩
  · rw [TokenKind.ofText?, hword, String.toList_ofList]
    exact hlookup
  · rw [hword] at hw
    cases hw

theorem isLexeme_word {c : Char} {w rest : List Char} (hc : isWordStart c = true)
    (hw : ∀ d ∈ w, isWordChar d = true) (hrest : EndsWord rest) :
    IsLexeme (.ofWord (String.ofList (c :: w))) (c :: w) rest := by
  have hword : isWord (String.ofList (c :: w)) = true := by
    rw [isWord_ofList, hc, List.all_eq_true.mpr hw]
    rfl
  refine ⟨?_, List.cons_ne_nil c w, fun hmem => ?_, fun _ => hrest⟩
  · rw [TokenKind.ofText?, if_pos hword]
  · rcases List.mem_cons.mp hmem with rfl | hmem
    · exact absurd hc (by decide)
    · exact absurd (hw _ hmem) (by decide)

/-- What the scanner takes for a token is one. -/
theorem isLexeme_of_lexeme? {c : Char} {r : List Char} {k : TokenKind} {n : Nat}
    (h : lexeme? c r = some (k, n)) : IsLexeme k (c :: r.take n) (r.drop n) := by
  obtain ⟨hc, rfl, rfl⟩ | hmem := lexeme?_cases h
  · rw [drop_length_takeWhile]
    have htake : r.take (r.takeWhile isWordChar).length = r.takeWhile isWordChar :=
      (List.prefix_iff_eq_take.mp (List.takeWhile_prefix isWordChar)).symm
    rw [htake]
    exact isLexeme_word hc (fun d hd => List.mem_takeWhile_imp hd) (head_dropWhile r)
  · exact isLexeme_symbol hmem _

/-! ## the cut of a text -/

/-- The text `cs`, which starts at position `pos` on line `line`, is made of gaps and of tokens in
turn, up to where its tokens end. -/
inductive Cut : (pos line : Nat) → List Char → List Token → Ending → Prop
  | eof {pos line : Nat} {g : List Char} (hg : Gap [] g) : Cut pos line g [] (.eof (pos + g.length))
  | bad {pos line : Nat} {g r : List Char} {c : Char} (hg : Gap (c :: r) g)
      (hr : StartsNothing (c :: r)) : Cut pos line (g ++ c :: r) [] (.bad c (pos + g.length))
  | token {pos line : Nat} {g w post : List Char} {k : TokenKind} {ts : List Token} {e : Ending}
      (hg : Gap (w ++ post) g) (hw : IsLexeme k w post)
      (h : Cut (pos + g.length + w.length) (line + g.count '\n') post ts e) :
      Cut pos line (g ++ (w ++ post))
        (⟨k, String.ofList w, pos + g.length, line + g.count '\n'⟩ :: ts) e

/-- A gap in front of a text belongs to the gap that it starts with. -/
theorem Cut.after_gap {pos line : Nat} {g cs : List Char} {ts : List Token} {e : Ending}
    (hg : Gap cs g) (h : Cut (pos + g.length) (line + g.count '\n') cs ts e) :
    Cut pos line (g ++ cs) ts e := by
  cases h with
  | @eof _ _ g' hg' =>
    rw [Nat.add_assoc, ← List.length_append]
    exact .eof (Gap.append (by rwa [List.append_nil]) hg')
  | @bad _ _ g' r c hg' hr =>
    rw [Nat.add_assoc, ← List.length_append, ← List.append_assoc]
    exact .bad (hg.append hg') hr
  | @token _ _ g' w post k ts e hg' hw h =>
    rw [Nat.add_assoc pos, ← List.length_append] at h ⊢
    rw [Nat.add_assoc line, ← List.count_append] at h ⊢
    rw [← List.append_assoc]
    exact .token (hg.append hg') hw h

/-- **The scanner cuts a text.** -/
theorem lexFrom_cut (cs : List Char) (pos line : Nat) (acc : List Token) :
    ∃ ts e, lexFrom cs pos line acc = ⟨acc.reverse ++ ts, e⟩ ∧ Cut pos line cs ts e := by
  induction cs, pos, line, acc using lexFrom.induct with
  | case1 pos line acc =>
    refine ⟨[], .eof pos, ?_, .eof .nil⟩
    rw [lexFrom, List.append_nil]
  | case2 pos line acc c r hc ih =>
    rw [lexFrom, if_pos hc]
    obtain ⟨ts, e, hlex, hcut⟩ := ih
    obtain rfl := beq_iff_eq.mp hc
    exact ⟨ts, e, hlex, Cut.after_gap (g := ['\n']) (.blank (.inr rfl) .nil) hcut⟩
  | case3 pos line acc c r hn hc ih =>
    rw [lexFrom, if_neg hn, if_pos hc]
    obtain ⟨ts, e, hlex, hcut⟩ := ih
    refine ⟨ts, e, hlex, Cut.after_gap (g := [c]) (.blank (.inl hc) .nil) ?_⟩
    have hcount : [c].count '\n' = 0 :=
      List.count_eq_zero_of_not_mem fun h => hn (beq_iff_eq.mpr (List.mem_singleton.mp h).symm)
    rwa [hcount]
  | case4 pos line acc c r hn hs hc n =>
    rename_i ih
    rw [lexFrom, if_neg hn, if_neg hs, if_pos hc]
    obtain ⟨ts, e, hlex, hcut⟩ := ih
    obtain rfl := beq_iff_eq.mp hc
    refine ⟨ts, e, hlex, ?_⟩
    -- the comment is all up to the next line feed
    have hfree : '\n' ∉ r.takeWhile (· != '\n') := fun hmem =>
      absurd (List.mem_takeWhile_imp hmem) (by decide)
    have hgap : Gap (r.drop n) ('#' :: (r.takeWhile (· != '\n') ++ [])) := by
      refine .comment hfree (fun d hd => ?_) .nil
      rw [List.nil_append, show r.drop n = _ from drop_length_takeWhile r] at hd
      simpa using head_dropWhile r d hd
    rw [List.append_nil] at hgap
    have hsplit : '#' :: r = ('#' :: r.takeWhile (· != '\n')) ++ r.drop n := by
      rw [List.cons_append, show r.drop n = _ from drop_length_takeWhile r,
        List.takeWhile_append_dropWhile]
    have hcount : ('#' :: r.takeWhile (· != '\n')).count '\n' = 0 := by
      rw [List.count_cons_of_ne (by decide), List.count_eq_zero_of_not_mem hfree]
    rw [hsplit]
    refine Cut.after_gap hgap ?_
    rw [hcount, List.length_cons, Nat.add_comm _ 1, ← Nat.add_assoc]
    exact hcut
  | case5 pos line acc c r hn hs hc hl =>
    rw [lexFrom, if_neg hn, if_neg hs, if_neg hc, hl]
    refine ⟨[], .bad c pos, by rw [List.append_nil], ?_⟩
    exact .bad (g := []) .nil (startsNothing_of_lexeme? (by simpa using hn) (by simpa using hs)
      (by simpa using hc) hl)
  | case6 pos line acc c r hn hs hc k n hl text =>
    rename_i ih
    rw [lexFrom_lexeme ⟨by simpa using hn, by simpa using hs, by simpa using hc⟩ hl]
    obtain ⟨ts, e, hlex, hcut⟩ := ih
    refine ⟨⟨k, text, pos, line⟩ :: ts, e, ?_, ?_⟩
    · rw [hlex, List.reverse_cons, List.append_assoc]
      rfl
    · have hlen : (c :: r.take n).length = 1 + n := by
        rw [List.length_cons, List.length_take, Nat.min_eq_left (le_of_lexeme? hl), Nat.add_comm]
      have hsplit : c :: r = (c :: r.take n) ++ r.drop n := by
        rw [List.cons_append, List.take_append_drop]
      rw [hsplit]
      refine Cut.token (g := []) .nil (isLexeme_of_lexeme? hl) ?_
      rw [hlen, ← Nat.add_assoc]
      exact hcut

/-! ## positions -/

/-- The position just after a token. -/
def Token.stop (t : Token) : Nat := t.pos + t.text.length

/-- The position at which the tokens of a text end. -/
def Ending.pos : Ending → Nat
  | eof p => p
  | bad _ p => p

/-- What is found in the text `src` from position `start` on, and what is not, is all there is. -/
structure Lexed.Lossless (src : List Char) (start : Nat) (out : Lexed) : Prop where
  /-- a token holds the characters at its position -/
  text : ∀ t ∈ out.tokens, t.text ≠ "" ∧ t.span.extract src = t.text.toList
  /-- later tokens stand at later positions -/
  increasing : out.tokens.Pairwise fun t u => t.pos < u.pos
  /-- and have no character in common with those before -/
  disjoint : out.tokens.Pairwise fun t u => t.stop ≤ u.pos
  /-- before the first token, between two and after the last there are only gaps -/
  gaps : ∀ p ∈ (start :: out.tokens.map Token.stop).zip
    (out.tokens.map Token.pos ++ [out.ending.pos]),
    p.1 ≤ p.2 ∧ Gap (src.drop p.2) (Span.extract ⟨p.1, p.2⟩ src)
  /-- the tokens end at the end of the text, or at a character that starts nothing -/
  ending : out.ending.StandsIn src
  /-- an identifier or a reserved word is a word, and it is not broken off -/
  words : ∀ t ∈ out.tokens, t.kind = .ident ∨ t.text ∈ TokenKind.reserved.map Prod.fst →
    isWord t.text = true ∧ ∀ c ∈ src[t.stop]?, isWordChar c = false
  /-- the kind of a token is the one that its text has -/
  kinds : ∀ t ∈ out.tokens, TokenKind.ofText? t.text = some t.kind
  /-- the line of a token is the line of its span -/
  lines : ∀ t ∈ out.tokens, t.line = t.span.line src

section
variable {pre g w rest : List Char}

theorem Gap.middle (pre : List Char) (hg : Gap rest g) :
    Gap ((pre ++ (g ++ rest)).drop (pre.length + g.length))
      (Span.extract ⟨pre.length, (pre.length + g.length : Nat)⟩ (pre ++ (g ++ rest))) := by
  rw [Span.extract_middle, ← List.append_assoc, ← List.length_append, List.drop_left]
  exact hg

/-- The line of a token is one more than the line feeds before it. -/
theorem Token.line_span {t : Token} {src : List Char} (hsrc : src = pre ++ rest)
    (hpos : t.pos = pre.length) : t.span.line src = pre.count '\n' + 1 := by
  have htake : Text.takeTo src t.span.start = pre := by
    show Text.takeTo src (t.pos : Int) = pre
    rw [hsrc, hpos, Text.takeTo_natCast _ (by rw [List.length_append]; omega), List.take_left]
  rw [Span.line, htake]

/-- What comes after a token in the middle of a text. -/
theorem Token.head?_stop {t : Token} {src : List Char} (hsrc : src = pre ++ (w ++ rest))
    (hpos : t.pos = pre.length) (hw : t.text.length = w.length) : src[t.stop]? = rest.head? := by
  have hstop : t.stop = (pre ++ w).length := by rw [stop, hpos, hw, List.length_append]
  rw [hsrc, ← List.append_assoc, hstop, List.getElem?_append_right (Nat.le_refl _), Nat.sub_self,
    List.head?_eq_getElem?]

end

/-- A token in front of what is found after it. -/
theorem Lexed.Lossless.cons {src : List Char} {start : Nat} {t : Token} {ts : List Token} {e : Ending}
    (h : Lossless src t.stop ⟨ts, e⟩) (hafter : ∀ u ∈ ts, t.stop ≤ u.pos)
    (hgap : start ≤ t.pos ∧ Gap (src.drop t.pos) (Span.extract ⟨start, t.pos⟩ src))
    (htext : t.text ≠ "" ∧ t.span.extract src = t.text.toList)
    (hkind : TokenKind.ofText? t.text = some t.kind)
    (hword : isWord t.text = true → ∀ c ∈ src[t.stop]?, isWordChar c = false)
    (hline : t.line = t.span.line src) :
    Lossless src start ⟨t :: ts, e⟩ where
  text := List.forall_mem_cons.mpr ⟨htext, h.text⟩
  increasing := by
    have hlen : 0 < t.text.length := by
      rw [Nat.pos_iff_ne_zero]
      exact fun h0 => htext.1 (String.length_eq_zero_iff.mp h0)
    refine List.pairwise_cons.mpr ⟨fun u hu => ?_, h.increasing⟩
    have := hafter u hu
    rw [Token.stop] at this
    omega
  disjoint := List.pairwise_cons.mpr ⟨hafter, h.disjoint⟩
  gaps := by
    show ∀ p ∈ (start, t.pos) :: (t.stop :: ts.map Token.stop).zip (ts.map Token.pos ++ [e.pos]), _
    exact List.forall_mem_cons.mpr ⟨hgap, h.gaps⟩
  ending := h.ending
  words := by
    refine List.forall_mem_cons.mpr ⟨fun hk => ?_, h.words⟩
    have hw := isWord_of_ofText? hkind hk
    exact ⟨hw, hword hw⟩
  kinds := List.forall_mem_cons.mpr ⟨hkind, h.kinds⟩
  lines := List.forall_mem_cons.mpr ⟨hline, h.lines⟩

/-- Where nothing is found, there is one gap up to the end. -/
theorem Lexed.lossless_nil {src : List Char} {start : Nat} {e : Ending} (he : e.StandsIn src)
    (hgap : start ≤ e.pos ∧ Gap (src.drop e.pos) (Span.extract ⟨start, e.pos⟩ src)) :
    Lossless src start ⟨[], e⟩ where
  text := nofun
  increasing := .nil
  disjoint := .nil
  gaps := List.forall_mem_cons.mpr ⟨hgap, nofun⟩
  ending := he
  words := nofun
  kinds := nofun
  lines := nofun

namespace Cut
variable {src cs : List Char} {pos line : Nat} {ts : List Token} {e : Ending}

theorem le_pos (h : Cut pos line cs ts e) : ∀ t ∈ ts, pos ≤ t.pos := by
  induction h with
  | eof => exact nofun
  | bad => exact nofun
  | token _ _ _ ih =>
    refine List.forall_mem_cons.mpr ⟨Nat.le_add_right _ _, fun t ht => ?_⟩
    have := ih t ht
    omega

/-- What is cut so, at the end of a text, is told by positions in the whole text. -/
theorem lossless (h : Cut pos line cs ts e) (pre : List Char) (hsrc : src = pre ++ cs)
    (hpos : pre.length = pos) (hline : line = pre.count '\n' + 1) :
    Lexed.Lossless src pos ⟨ts, e⟩ := by
  induction h generalizing pre with
  | @eof pos line g hg =>
    subst hpos hsrc
    have hg := Gap.middle pre hg
    rw [List.append_nil] at hg
    refine Lexed.lossless_nil ?_ ⟨Nat.le_add_right _ _, hg⟩
    rw [← List.length_append]
    exact .eof
  | @bad pos line g r c hg hr =>
    subst hpos hsrc
    refine Lexed.lossless_nil ?_ ⟨Nat.le_add_right _ _, hg.middle pre⟩
    rw [← List.length_append]
    exact .bad (List.append_assoc pre g (c :: r)).symm hr
  | @token pos line g w post k ts e hg hw h ih =>
    subst hpos
    have hlen : (String.ofList w).length = w.length := String.length_ofList
    have hfront : src = (pre ++ g) ++ (w ++ post) := by rw [hsrc, List.append_assoc]
    have hplace : pre.length + g.length = (pre ++ g).length := List.length_append.symm
    -- the text after the token is cut in the same way
    have hrest : Lexed.Lossless src (pre.length + g.length + w.length) ⟨ts, e⟩ := by
      refine ih (pre ++ g ++ w) (by rw [hfront, ← List.append_assoc]) ?_ ?_
      · rw [List.length_append, List.length_append]
      · rw [hline, List.count_append, List.count_append, List.count_eq_zero_of_not_mem hw.feed]
        omega
    have hstop : ∀ l, Token.stop ⟨k, String.ofList w, pre.length + g.length, l⟩ =
        pre.length + g.length + w.length := fun l => by rw [Token.stop, hlen]
    refine Lexed.Lossless.cons (by rwa [hstop]) (by rw [hstop]; exact h.le_pos)
      ⟨Nat.le_add_right _ _, hsrc ▸ hg.middle pre⟩ ⟨fun h0 => ?_, ?_⟩ hw.kind (fun hword c hc => ?_) ?_
    · exact hw.ne_nil (List.length_eq_zero_iff.mp (by rw [← hlen, String.length_eq_zero_iff]; exact h0))
    · refine Token.StandsIn.extract ⟨pre ++ g, post, ?_, hplace.symm⟩
      rw [String.toList_ofList]
      exact hfront
    · rw [Token.head?_stop hfront hplace hlen] at hc
      exact hw.word hword c hc
    · show line + g.count '\n' = _
      rw [Token.line_span hfront hplace, hline, List.count_append]
      omega

end Cut

/-- **The scanner loses nothing and counts lines right.** The tokens of a text stand in it one after
the other and hold the characters that stand there; before, between and after them, up to the end of
the text or to the first character that starts nothing, there are only blanks, line feeds and
comments. No word is broken off, a token is of the kind that its text has, and its line is the one that
its span has in the text. -/
theorem lex_lossless (src : List Char) : Lexed.Lossless src 0 (lex src) := by
  obtain ⟨ts, e, hlex, hcut⟩ := lexFrom_cut src 0 1 []
  rw [lex, hlex]
  exact hcut.lossless [] rfl rfl rfl

end NaturalDeduction.Source

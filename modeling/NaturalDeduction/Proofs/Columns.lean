import Mathlib.Data.List.Basic
import Mathlib.Data.Prod.Lex
import NaturalDeduction.Source.Span

/-!
# Lines and columns

The line of a position counts the line feeds before it, and its column looks for the last of them.
Together they give the position back.

* `lineFront`               where a line starts, found from the front of the text;
* `exists_last_feed`        a text has no line feed, or there is a last one;
* `StartsIn.exists_front`   the text before a position: whole lines, then a part of one;
* `Span.Determined`         how line and column determine a position;
* `line_column_determine`   they do, and they are in the order of the positions.
-/

namespace NaturalDeduction.Source

open Text

/-- Where a line starts, lines counted from one: the first at the front of the text, any other just
after the line feed that ends the line before it. -/
def lineFront (src : List Char) (line : Nat) : Nat :=
  if line = 1 then 0 else src.idxOfNth '\n' (line - 2) + 1

/-! ## the last line feed -/

section
variable {α : Type} {p : α → Bool}

theorem lastIndexOf?_of_forall {l : List α} (h : ∀ a ∈ l, p a = false) :
    lastIndexOf? p l = none := by
  have hrev : l.reverse.findIdx? p = none := by
    rw [List.findIdx?_eq_none_iff]
    exact fun a ha => h a (List.mem_reverse.mp ha)
  rw [lastIndexOf?, hrev]
  rfl

theorem lastIndexOf?_append_cons (a : List α) {c : α} {w : List α} (hc : p c = true)
    (hw : ∀ d ∈ w, p d = false) : lastIndexOf? p (a ++ c :: w) = some a.length := by
  -- seen from the back, the element stands just after `w`
  have hback : (a ++ c :: w).reverse = w.reverse ++ (c :: a.reverse) := by simp
  have hnone : w.reverse.findIdx? p = none := by
    rw [List.findIdx?_eq_none_iff]
    exact fun d hd => hw d (List.mem_reverse.mp hd)
  have hfind : (a ++ c :: w).reverse.findIdx? p = some w.length := by
    rw [hback, List.findIdx?_append, hnone, List.findIdx?_cons, hc]
    simp
  rw [lastIndexOf?, hfind, Option.map_some, List.length_append, List.length_cons]
  congr 1
  omega

end

theorem exists_last_feed (l : List Char) :
    '\n' ∉ l ∨ ∃ a w, l = a ++ '\n' :: w ∧ '\n' ∉ w := by
  induction l with
  | nil => exact .inl List.not_mem_nil
  | cons c l ih =>
    obtain h | ⟨a, w, rfl, hw⟩ := ih
    · by_cases hc : c = '\n'
      · exact .inr ⟨[], l, by rw [hc]; rfl, h⟩
      · refine .inl fun hmem => ?_
        rcases List.mem_cons.mp hmem with he | hmem
        · exact hc he.symm
        · exact h hmem
    · exact .inr ⟨c :: a, w, rfl, hw⟩

/-- The line feed after `a` is the one with as many line feeds before it as there are in `a`. -/
theorem idxOfNth_append_cons (x : Char) (a r : List Char) :
    (a ++ x :: r).idxOfNth x (a.count x) = a.length := by
  induction a with
  | nil => simp
  | cons c a ih =>
    by_cases hc : c = x
    · subst hc
      simp [ih]
    · have hne : (c == x) = false := beq_false_of_ne hc
      rw [List.cons_append, List.idxOfNth_cons_of_not_beq hne, List.count_cons_of_ne hc, ih]
      rfl

/-! ## positions -/

namespace Span
variable {s t : Span} {src : List Char}

/-- The span starts in the text, or at its end. -/
structure StartsIn (s : Span) (src : List Char) : Prop where
  nonneg : 0 ≤ s.start
  le : s.start ≤ src.length

instance (s : Span) (src : List Char) : Decidable (s.StartsIn src) :=
  decidable_of_iff (0 ≤ s.start ∧ s.start ≤ src.length)
    ⟨fun h => ⟨h.1, h.2⟩, fun h => ⟨h.nonneg, h.le⟩⟩

theorem StartsIn.exists_nat (h : s.StartsIn src) :
    ∃ n : Nat, s.start = n ∧ n ≤ src.length ∧ takeTo src s.start = src.take n := by
  obtain ⟨n, hn⟩ := Int.eq_ofNat_of_zero_le h.nonneg
  have hle : n ≤ src.length := by
    have := h.le
    omega
  exact ⟨n, hn, hle, by rw [hn]; exact takeTo_natCast src hle⟩

/-- Before a position there are whole lines, up to where its line starts, and then a part of its
line. -/
theorem StartsIn.exists_front (h : s.StartsIn src) :
    ∃ a w, takeTo src s.start = a ++ w ∧ '\n' ∉ w ∧ s.line src = a.count '\n' + 1 ∧
      s.lineStart src = a.length ∧ lineFront src (s.line src) = a.length := by
  obtain ⟨n, -, -, htake⟩ := h.exists_nat
  obtain hnone | ⟨a, w, hl, hw⟩ := exists_last_feed (takeTo src s.start)
  · have hline : s.line src = 1 := by rw [line, List.count_eq_zero_of_not_mem hnone]
    refine ⟨[], takeTo src s.start, rfl, hnone, hline, ?_, ?_⟩
    · rw [lineStart, lastIndexOf?_of_forall fun c hc => ?_]
      · rfl
      · exact beq_false_of_ne fun e => hnone (e ▸ hc)
    · rw [hline]
      rfl
  · have hcount : (takeTo src s.start).count '\n' = a.count '\n' + 1 := by
      rw [hl, List.count_append, List.count_cons_self, List.count_eq_zero_of_not_mem hw]
    have hline : s.line src = a.count '\n' + 2 := by rw [line, hcount]
    have hsrc : src = a ++ '\n' :: (w ++ src.drop n) := by
      conv_lhs => rw [← List.take_append_drop n src, ← htake, hl]
      rw [List.append_assoc, List.cons_append]
    refine ⟨a ++ ['\n'], w, by rw [hl, List.append_assoc]; rfl, hw, ?_, ?_, ?_⟩
    · rw [hline, List.count_append, List.count_singleton_self]
    · rw [lineStart, hl, lastIndexOf?_append_cons a (by decide) fun c hc => ?_]
      · rw [List.length_append]
        rfl
      · exact beq_false_of_ne fun e => hw (e ▸ hc)
    · have hfeed : src.idxOfNth '\n' (a.count '\n') = a.length := by
        conv_lhs => rw [hsrc]
        exact idxOfNth_append_cons _ _ _
      rw [hline, lineFront, if_neg (by omega), Nat.add_sub_cancel, hfeed, List.length_append]
      rfl

/-- How line and column determine where the span starts. -/
structure Determined (s : Span) (src : List Char) : Prop where
  line_pos : 1 ≤ s.line src
  column_pos : 1 ≤ s.column src
  /-- before every line but the first there is a line feed that ends the line before -/
  feed : s.line src ≠ 1 → src[src.idxOfNth '\n' (s.line src - 2)]? = some '\n'
  start : s.start = lineFront src (s.line src) + s.column src - 1
  /-- no line ends between the front of the line and the position -/
  within : '\n' ∉ slice src (lineFront src (s.line src)) s.start

theorem StartsIn.determined (h : s.StartsIn src) : s.Determined src := by
  obtain ⟨n, hn, hle, htake⟩ := h.exists_nat
  obtain ⟨a, w, hl, hw, hline, hstart, hfront⟩ := h.exists_front
  have hlen : a.length + w.length = n := by
    rw [← List.length_append, ← hl, htake, List.length_take]
    omega
  have hcol : s.column src = s.start - a.length + 1 := by rw [column, hstart]
  refine ⟨by omega, by omega, fun hne => ?_, by omega, ?_⟩
  · have hcount : src.count '\n' = a.count '\n' + (src.drop n).count '\n' := by
      conv_lhs => rw [← List.take_append_drop n src, ← htake, hl]
      rw [List.count_append, List.count_append, List.count_eq_zero_of_not_mem hw]
      rfl
    have hlt : src.idxOfNth '\n' (s.line src - 2) < src.length :=
      List.idxOfNth_lt_length_of_lt_count (by omega)
    rw [List.getElem?_eq_getElem hlt, List.getElem_idxOfNth_eq]
  · have hdrop : slice src (lineFront src (s.line src)) s.start = w := by
      rw [slice, offset_natCast (by omega), hfront, hl, List.drop_left]
    rw [hdrop]
    exact hw

/-- A later position is on a later line, or on the same line in a later column. -/
theorem StartsIn.lex_lt (hs : s.StartsIn src) (ht : t.StartsIn src) (h : s.start < t.start) :
    toLex (s.line src, s.column src) < toLex (t.line src, t.column src) := by
  obtain ⟨n, hn, -, hsn⟩ := hs.exists_nat
  obtain ⟨m, hm, -, htm⟩ := ht.exists_nat
  have hle : s.line src ≤ t.line src := by
    have hpre : src.take n <+: src.take m := List.take_prefix_take_left (by omega)
    rw [line, line, hsn, htm]
    exact Nat.succ_le_succ (hpre.sublist.count_le _)
  rw [Prod.Lex.toLex_lt_toLex]
  rcases Nat.lt_or_eq_of_le hle with hlt | heq
  · exact .inl hlt
  · -- both columns are counted from the front of one line
    have h₁ := hs.determined.start
    have h₂ := ht.determined.start
    rw [← heq] at h₂
    exact .inr ⟨heq, by simp only; omega⟩

theorem line_column_congr (h : s.start = t.start) :
    (s.line src, s.column src) = (t.line src, t.column src) := by
  rw [line, line, column, column, lineStart, lineStart, h]

end Span

/-- **Line and column determine the position.** The position is so many columns after the front of
its line, and the line has no end between them. Positions on a text are told apart by line and
column, and ordered by them: first by the line, then by the column. -/
theorem line_column_determine {src : List Char} {s t : Span} (hs : s.StartsIn src)
    (ht : t.StartsIn src) :
    s.Determined src ∧
      ((s.line src, s.column src) = (t.line src, t.column src) ↔ s.start = t.start) ∧
      (toLex (s.line src, s.column src) < toLex (t.line src, t.column src) ↔
        s.start < t.start) := by
  refine ⟨hs.determined, ⟨fun h => ?_, Span.line_column_congr⟩, fun h => ?_, hs.lex_lt ht⟩
  · rcases lt_trichotomy s.start t.start with hlt | heq | hgt
    · exact absurd (congrArg toLex h) (hs.lex_lt ht hlt).ne
    · exact heq
    · exact absurd (congrArg toLex h) (ht.lex_lt hs hgt).ne'
  · rcases lt_trichotomy s.start t.start with hlt | heq | hgt
    · exact hlt
    · exact absurd (congrArg toLex (Span.line_column_congr heq)) h.ne
    · exact absurd h (ht.lex_lt hs hgt).asymm

/-- A text of three lines, the first of them empty. -/
def threeLines : List Char := ['\n', 'a', '\n', 'b']

/-- A line feed stands at the end of its line, and what follows it starts the next one. -/
theorem line_column_threeLines :
    Span.StartsIn ⟨2, 3⟩ threeLines ∧ Span.StartsIn ⟨3, 3⟩ threeLines ∧
      Span.Determined ⟨2, 3⟩ threeLines ∧
      Span.line ⟨2, 3⟩ threeLines = 2 ∧ Span.column ⟨2, 3⟩ threeLines = 2 ∧
      toLex (Span.line ⟨2, 3⟩ threeLines, Span.column ⟨2, 3⟩ threeLines) <
        toLex (Span.line ⟨3, 3⟩ threeLines, Span.column ⟨3, 3⟩ threeLines) := by
  have hs : Span.StartsIn ⟨2, 3⟩ threeLines := by decide
  have ht : Span.StartsIn ⟨3, 3⟩ threeLines := by decide
  obtain ⟨hdet, -, hlex⟩ := line_column_determine hs ht
  exact ⟨hs, ht, hdet, by decide, by decide, hlex.mpr (by decide)⟩

end NaturalDeduction.Source

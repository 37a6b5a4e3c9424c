import NaturalDeduction.Text.Slice
import NaturalDeduction.Text.Quoted

/-!
# Places in a source text

* `Span`               a part of a source text, from `start` up to `stop`, in characters;
* `Span.extract`       the characters of a span;
* `Span.line`, `Span.column`   where a span starts, counted from one;
* `Diagnostic.text`    a message with the place it is about.

Offsets are signed, as `Text.slice` reads them.
-/

namespace NaturalDeduction.Source

open Text

structure Span where
  start : Int
  stop : Int
  deriving DecidableEq, Repr

namespace Span

def extract (s : Span) (src : List Char) : List Char := slice src s.start s.stop

/-- The line on which the span starts: one more than the line feeds before it. -/
def line (s : Span) (src : List Char) : Nat := (takeTo src s.start).count '\n' + 1

/-- The position just after the last line feed before the span. -/
def lineStart (s : Span) (src : List Char) : Nat :=
  match lastIndexOf? (· == '\n') (takeTo src s.start) with
  | some k => k + 1
  | none => 0

/-- The column at which the span starts, counted from one. -/
def column (s : Span) (src : List Char) : Int := s.start - s.lineStart src + 1

end Span

/-- A message about a span, with the source text if it is known. -/
structure Diagnostic where
  message : String
  span : Span
  source : Option String

/-- The message, then line, column and quoted text of its place; without a source, its offsets. -/
def Diagnostic.text (d : Diagnostic) : String :=
  match d.source with
  | none => s!"{d.message} @ {d.span.start}:{d.span.stop}"
  | some s =>
    let cs := s.toList
    let line := d.span.line cs
    let column := d.span.column cs
    let snippet := quote (String.ofList (d.span.extract cs))
    s!"{d.message} @ {line}:{column}: {snippet}"

end NaturalDeduction.Source

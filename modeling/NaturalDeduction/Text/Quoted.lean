import NaturalDeduction.Text.Printable

/-!
# Quoted text and bytes

Text is quoted with single quotes, or with double quotes when it holds a single quote and no
double one. The backslash, the chosen quote, line feed, carriage return and tab are escaped by a
backslash; any other character that is not printable is written by its code point.

* `quoteMark`    the quote that a text gets;
* `escape`       one character inside quotes;
* `quote`        quoted text;
* `quoteBytes`   quoted bytes, with the mark `b` in front.
-/

namespace NaturalDeduction.Text

/-- The last `width` hexadecimal digits of `n`, in lower case. -/
def hex (width n : Nat) : List Char :=
  (List.range width).reverse.map fun k => Nat.digitChar (n / Nat.pow 16 k % 16)

/-- The quote around a text: the single one, unless only the double one is free. -/
def quoteMark (cs : List Char) : Char :=
  if cs.contains '\'' && !cs.contains '"' then '"' else '\''

/-- The escape of the characters that are escaped by a letter or by themselves. -/
def shortEscape? (mark c : Char) : Option (List Char) :=
  if c == mark || c == '\\' then some ['\\', c]
  else if c == '\n' then some ['\\', 'n']
  else if c == '\r' then some ['\\', 'r']
  else if c == '\t' then some ['\\', 't']
  else none

/-- The escape of a character by its code point. -/
def codeEscape (n : Nat) : List Char :=
  if n < 0x100 then '\\' :: 'x' :: hex 2 n
  else if n < 0x10000 then '\\' :: 'u' :: hex 4 n
  else '\\' :: 'U' :: hex 8 n

def escape (mark c : Char) : List Char :=
  match shortEscape? mark c with
  | some e => e
  | none => if isPrintable c then [c] else codeEscape c.toNat

def quote (s : String) : String :=
  let cs := s.toList
  let mark := quoteMark cs
  String.ofList (mark :: cs.flatMap (escape mark) ++ [mark])

/-- One byte of quoted bytes: an ASCII character, or its code. -/
def escapeByte (mark : Char) (b : UInt8) : List Char :=
  let c := Char.ofNat b.toNat
  match shortEscape? mark c with
  | some e => e
  | none => if 0x20 ≤ b.toNat && b.toNat < 0x7f then [c] else codeEscape b.toNat

def quoteBytes (bs : List UInt8) : String :=
  let mark := quoteMark (bs.map fun b => Char.ofNat b.toNat)
  String.ofList ('b' :: mark :: bs.flatMap (escapeByte mark) ++ [mark])

end NaturalDeduction.Text

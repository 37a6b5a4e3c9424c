/-!
# Slices with signed offsets

An offset into a text of length `n` counts characters from the front, or from the back when it is
negative; offsets outside the text mean its nearest end.

* `offset n i`        the position that the offset `i` means;
* `slice l i j`       the characters from offset `i` up to offset `j`;
* `takeTo l j`        the characters up to offset `j`;
* `lastIndexOf? p l`  the position of the last character with property `p`.
-/

namespace NaturalDeduction.Text

/-- The position that a signed offset means in a text of `n` characters. -/
def offset (n : Nat) (i : Int) : Nat :=
  if i < 0 then (i + n).toNat else min i.toNat n

def takeTo {α : Type} (l : List α) (j : Int) : List α := l.take (offset l.length j)

/-- The characters from offset `i` up to offset `j`; none when `j` comes first. -/
def slice {α : Type} (l : List α) (i j : Int) : List α := (takeTo l j).drop (offset l.length i)

def lastIndexOf? {α : Type} (p : α → Bool) (l : List α) : Option Nat :=
  (l.reverse.findIdx? p).map fun k => l.length - 1 - k

theorem offset_natCast {n k : Nat} (h : k ≤ n) : offset n k = k := by
  unfold offset
  split <;> omega

theorem takeTo_natCast {α : Type} (l : List α) {k : Nat} (h : k ≤ l.length) :
    takeTo l k = l.take k := by rw [takeTo, offset_natCast h]

end NaturalDeduction.Text

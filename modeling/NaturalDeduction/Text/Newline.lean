/-!
# Line ends

* `unifyNewlines`   every line end, whether line feed, carriage return or both, as one line feed.
-/

namespace NaturalDeduction.Text

/-- Every line end as a single line feed. -/
def unifyNewlines : List Char → List Char
  | [] => []
  | '\r' :: '\n' :: r => '\n' :: unifyNewlines r
  | '\r' :: r => '\n' :: unifyNewlines r
  | c :: r => c :: unifyNewlines r

theorem not_mem_unifyNewlines (cs : List Char) : '\r' ∉ unifyNewlines cs := by
  fun_induction unifyNewlines cs with
  | case1 => simp
  | case2 r ih => simpa using ih
  | case3 r _ ih => simpa using ih
  | case4 c r h₁ h₂ ih => grind

end NaturalDeduction.Text

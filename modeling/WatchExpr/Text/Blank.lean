/-!
# Blanks

The characters that separate tokens: those with the Unicode property White_Space.
-/

namespace WatchExpr.Text

/-- The code points of the property White_Space, as closed ranges in increasing order. -/
def blankRanges : List (Nat × Nat) :=
  [(0x0009, 0x000D), (0x0020, 0x0020), (0x0085, 0x0085), (0x00A0, 0x00A0), (0x1680, 0x1680),
   (0x2000, 0x200A), (0x2028, 0x2029), (0x202F, 0x202F), (0x205F, 0x205F), (0x3000, 0x3000)]

/-- The property White_Space. -/
def isBlank (c : Char) : Bool :=
  blankRanges.any fun (lo, hi) => lo ≤ c.toNat && c.toNat ≤ hi

example : (blankRanges.map fun (lo, hi) => hi + 1 - lo).sum = 25 := by decide

end WatchExpr.Text

/-!
Blank characters and caseless comparison. A type name may be surrounded by blanks and may be
written in any mixture of ASCII cases; nothing else in the language is trimmed or folded.
-/

namespace BraceLang.Text

/-- The closed ranges of code points with the `White_Space` property. -/
def blankRanges : List (Nat × Nat) :=
  [(0x09, 0x0D), (0x20, 0x20), (0x85, 0x85), (0xA0, 0xA0), (0x1680, 0x1680),
   (0x2000, 0x200A), (0x2028, 0x2029), (0x202F, 0x202F), (0x205F, 0x205F), (0x3000, 0x3000)]

/-- `c` has the `White_Space` property. -/
def isBlank (c : Char) : Bool := blankRanges.any fun (lo, hi) => lo ≤ c.toNat && c.toNat ≤ hi

/-- The property has twenty-five members. -/
example : (blankRanges.map fun (lo, hi) => hi + 1 - lo).sum = 25 := rfl

/-- Drops the blanks at both ends. -/
def trim (cs : List Char) : List Char :=
  ((cs.dropWhile isBlank).reverse.dropWhile isBlank).reverse

/-- Equality up to ASCII case; other characters stand for themselves. -/
def sameFolded (s t : List Char) : Bool := s.map Char.toLower == t.map Char.toLower

theorem isBlank_of_isWhitespace {c : Char} (h : c.isWhitespace = true) : isBlank c = true := by
  simp only [Char.isWhitespace, Bool.or_eq_true, decide_eq_true_eq] at h
  rcases h with ((h | h) | h) | h <;> subst h <;> decide

end BraceLang.Text

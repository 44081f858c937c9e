/-! # Blank characters

A character is blank when Unicode gives it the property White_Space. Fields of the written forms
are trimmed of blanks at both ends, and lists of words are cut at them.

* `isBlank`: the property.
* `trim`: a text without the blanks at its ends. -/

namespace LatticeWalk.Text

/-- The characters with the Unicode property White_Space. -/
def isBlank (c : Char) : Bool :=
  let n := c.toNat
  (9 ≤ n && n ≤ 13) || n == 0x20 || n == 0x85 || n == 0xA0 || n == 0x1680 ||
    (0x2000 ≤ n && n ≤ 0x200A) || n == 0x2028 || n == 0x2029 || n == 0x202F || n == 0x205F ||
    n == 0x3000

/-- Blanks dropped at both ends. -/
def trimChars (cs : List Char) : List Char :=
  ((cs.dropWhile isBlank).reverse.dropWhile isBlank).reverse

/-- Blanks dropped at both ends of a text. -/
def trim (s : String) : String := String.ofList (trimChars s.toList)

theorem isBlank_of_isWhitespace (c : Char) (h : c.isWhitespace = true) : isBlank c = true := by
  simp only [Char.isWhitespace, Bool.or_eq_true, decide_eq_true_eq] at h
  rcases h with ((h | h) | h) | h <;> subst h <;> decide

theorem trimChars_nil : trimChars [] = [] := rfl

end LatticeWalk.Text

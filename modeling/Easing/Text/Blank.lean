/-! # Blank characters

The blanks are the characters of the Unicode property White_Space together with
the four information separators U+001C to U+001F. The zero-width space, the
Mongolian vowel separator and the byte order mark are not blanks.
-/

namespace Easing.Text

/-- The blanks as closed ranges of code points, ascending and apart. -/
def blankRanges : List (Nat × Nat) :=
  [(0x09, 0x0D), (0x1C, 0x20), (0x85, 0x85), (0xA0, 0xA0), (0x1680, 0x1680), (0x2000, 0x200A),
    (0x2028, 0x2029), (0x202F, 0x202F), (0x205F, 0x205F), (0x3000, 0x3000)]

/-- Whether a code point lies in one of a list of closed ranges. -/
def inRanges (ranges : List (Nat × Nat)) (code : Nat) : Bool :=
  ranges.any fun range => range.1 ≤ code && code ≤ range.2

def isBlank (c : Char) : Bool := inRanges blankRanges c.toNat

/-- The ASCII blanks are among the blanks. -/
theorem isBlank_of_isWhitespace {c : Char} (h : c.isWhitespace = true) : isBlank c = true := by
  simp only [Char.isWhitespace, Bool.or_eq_true, decide_eq_true_eq] at h
  rcases h with ((rfl | rfl) | rfl) | rfl <;> rfl

/-- A text without the characters of a class at its front. -/
def dropFront (p : Char → Bool) (text : List Char) : List Char := text.dropWhile p

/-- A text without the characters of a class at its back. -/
def dropBack (p : Char → Bool) (text : List Char) : List Char :=
  (text.reverse.dropWhile p).reverse

/-- A text without the characters of a class at either end. -/
def trim (p : Char → Bool) (text : List Char) : List Char := dropBack p (dropFront p text)

end Easing.Text

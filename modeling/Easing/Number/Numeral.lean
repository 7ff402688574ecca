import Easing.Decimal.Reading

/-! # Numbers that are written and read

Definitions and messages show numbers, and definitions are read back. The class
asks for a text, a short text and a reader; that a text reads back as the
number it came from is a law that doubles satisfy, not part of the class.
-/

namespace Easing

/-- Numbers with a written form. -/
class Numeral (α : Type) where
  /-- The text that identifies a number. -/
  text : α → String
  brief : α → String
  /-- The number that a token spells, if it spells one. -/
  read? : String → Option α

instance : Numeral Float where
  text := Float64.text
  brief := Float64.briefText
  read? := Float64.read?

end Easing

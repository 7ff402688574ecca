import Easing.Decimal.Rounding
import Easing.Number.Binary64

/-! # How doubles are written

The digits of a double are chosen by `Decimal`; a `Layout` decides how they are
set out. Two layouts are in use: the full one identifies a double, the brief
one shows four significant digits.
-/

namespace Easing

/-- How the digits of a number are set out. -/
structure Layout where
  /-- Whether a whole number ends in a point and a zero. -/
  wholePoint : Bool
  /-- Numbers whose leading digit has a place from -4 to below this one are
  written out; others have an exponent. -/
  writtenBelow : Int

namespace Layout

def digits (n : Nat) : List Char := Nat.toDigits 10 n

/-- An exponent has a sign and at least two digits. -/
def exponent (e : Int) : List Char :=
  let magnitude := digits e.natAbs
  'e' :: (if e < 0 then '-' else '+') ::
    (if magnitude.length < 2 then '0' :: magnitude else magnitude)

/-- The text of a decimal without trailing zeros. -/
def decimal (layout : Layout) (d : Decimal) : List Char :=
  let shown := digits d.digits
  let leading : Int := shown.length - 1 + d.exponent
  if -4 ≤ leading ∧ leading < layout.writtenBelow then
    if 0 ≤ d.exponent then
      shown ++ List.replicate d.exponent.toNat '0' ++ (if layout.wholePoint then ['.', '0'] else [])
    else if 0 ≤ leading then
      shown.take (leading + 1).toNat ++ '.' :: shown.drop (leading + 1).toNat
    else '0' :: '.' :: List.replicate (-leading - 1).toNat '0' ++ shown
  else
    match shown with
    | [only] => only :: exponent leading
    | first :: rest => first :: '.' :: rest ++ exponent leading
    | [] => exponent leading

/-- The text of a double whose digits are chosen by `choose`. -/
def text (layout : Layout) (choose : Nat → Int → Decimal) : Binary64 → List Char
  | .nan => "nan".toList
  | .infinite negative => (if negative then ['-'] else []) ++ "inf".toList
  | .finite negative significand exponent =>
    (if negative then ['-'] else []) ++
      layout.decimal (if significand = 0 then ⟨0, 0⟩ else choose significand exponent)

/-- Whole numbers show their point, and numbers from `10 ^ 16` on an exponent. -/
def full : Layout := ⟨true, 16⟩

/-- Whole numbers are bare, and numbers from `10 ^ 4` on have an exponent. -/
def brief : Layout := ⟨false, 4⟩

end Layout

namespace Float64

/-- The text that identifies a double: the fewest digits that read back. -/
def text (x : Float) : String :=
  String.ofList (Layout.full.text Decimal.shortest (Binary64.ofFloat x))

/-- A double with four significant digits. -/
def briefText (x : Float) : String :=
  String.ofList (Layout.brief.text (Decimal.significant 4) (Binary64.ofFloat x))

end Float64

end Easing

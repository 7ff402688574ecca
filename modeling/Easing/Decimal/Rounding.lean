/-! # Decimals close to a binary number

A positive binary number `significand * 2 ^ exponent` is compared with decimals
in exact integer arithmetic. `shortest` takes the fewest digits that read back
as the same double, `significant` a given number of digits.
-/

namespace Easing

/-- The number `digits * 10 ^ exponent`. -/
structure Decimal where
  digits : Nat
  /-- The power of ten that counts the last digit. -/
  exponent : Int
deriving DecidableEq, Repr

namespace Decimal

/-- Moves the zeros at the end of the digits into the exponent. -/
def strip (digits : Nat) (exponent : Int) : Decimal :=
  if digits = 0 then ⟨0, 0⟩
  else if digits % 10 = 0 then strip (digits / 10) (exponent + 1)
  else ⟨digits, exponent⟩

/-- The factors by which a multiple of `2 ^ exponent` and a multiple of
`10 ^ place` become naturals that compare as the numbers do. -/
def common (exponent place : Int) : Nat × Nat :=
  (Nat.pow 10 (-place).toNat <<< exponent.toNat, Nat.pow 10 place.toNat <<< (-exponent).toNat)

/-- The power of ten of the leading digit of a positive binary number. The
logarithm to base two fixes it up to one, and a comparison decides. -/
def leadingPlace (significand : Nat) (exponent : Int) : Int :=
  let estimate := ((significand.log2 : Int) + exponent) * 30103 / 100000
  let (binary, decimal) := common exponent (estimate + 1)
  if significand * binary < decimal then estimate else estimate + 1

/-- A quotient of naturals rounded to the nearest one, a half to the even one. -/
def nearest (dividend divisor : Nat) : Nat :=
  let quotient := dividend / divisor
  match compare (2 * (dividend % divisor)) divisor with
  | .lt => quotient
  | .gt => quotient + 1
  | .eq => if quotient % 2 = 0 then quotient else quotient + 1

/-- The best decimal with a given number of significant digits. -/
def significant (count : Nat) (significand : Nat) (exponent : Int) : Decimal :=
  let place := leadingPlace significand exponent + 1 - count
  let (binary, decimal) := common exponent place
  strip (nearest (significand * binary) decimal) place

/-- The decimal on the grid of `10 ^ place` that rounds to the double and lies
nearest to it, if there is one. The reals that round to a double reach halfway
to its neighbours, ends included exactly if the significand is even; below a
power of two, which has the significand `2 ^ 52`, the neighbour is only half as
far. -/
def onGrid? (significand : Nat) (exponent place : Int) : Option Decimal :=
  let (binary, decimal) := common (exponent - 2) place
  let narrow := significand = 0x10000000000000 ∧ -1074 < exponent
  let value := 4 * significand * binary
  let least := (if narrow then 4 * significand - 1 else 4 * significand - 2) * binary
  let greatest := (4 * significand + 2) * binary
  let readsBack (multiple : Nat) : Bool :=
    if significand % 2 = 0 then
      least ≤ multiple * decimal && multiple * decimal ≤ greatest
    else least < multiple * decimal && multiple * decimal < greatest
  let below := value / decimal
  match readsBack below, readsBack (below + 1) with
  | true, true => some (strip (nearest value decimal) place)
  | true, false => some (strip below place)
  | false, true => some (strip (below + 1) place)
  | false, false => none

/-- The fewest digits that read back as the same double, and the nearest
decimal among those. Seventeen digits are enough for every double. -/
def shortest (significand : Nat) (exponent : Int) : Decimal :=
  let leading := leadingPlace significand exponent
  let found := (List.range 17).findSome? fun (more : Nat) =>
    onGrid? significand exponent (leading - more)
  found.getD (significant 17 significand exponent)

end Decimal

end Easing

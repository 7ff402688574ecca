import Easing.Decimal.Rounding

/-! # How many points fit

A table and a grid hold all their points at once, at eight bytes each, and a
gibibyte of points is the most that is computed. Larger counts are refused
before anything is evaluated, in words that depend on what they are too large
for. They are judged as doubles: a count above `2 ^ 53` is refused as the nearest
one with 53 bits, and one that becomes `2 ^ 63` in this way reads as negative.
-/

namespace Easing

/-- The reasons for which points are too many. -/
inductive CapacityFault where
  /-- The memory does not hold so many numbers. -/
  | memory (count : Nat)
  /-- The bytes are more than 63 bits can count. -/
  | bytes
  /-- The samples are more than 63 bits can count. -/
  | dimension
  /-- The count reads as negative, so that no point is there to become the last. -/
  | noLastPoint
  /-- The count is too large to read even as negative. -/
  | size
deriving DecidableEq, Repr

namespace Capacity

/-- The most points that are computed: they fill a gibibyte. -/
def limit : Nat := 0x8000000

/-- The least count that reads as negative, `2 ^ 63`. -/
def signBit : Nat := 0x8000000000000000

/-- A count as a double holds it: the nearest number with 53 bits. -/
def held (count : Nat) : Nat :=
  let spare := count.log2 - 52
  Decimal.nearest count (1 <<< spare) <<< spare

/-- Why a count is refused, if it is. What becomes of a count that reads as
negative depends on what is done with the points. -/
def fault? (count : Nat) (negative : CapacityFault) : Option CapacityFault :=
  if count ≤ limit then none
  else
    let count := held count
    if signBit < count then some .size
    else if count = signBit then some negative
    else if signBit ≤ 8 * count then some .bytes
    else some (.memory count)

/-- No count up to the limit is refused. -/
theorem fault?_eq_none {count : Nat} (negative : CapacityFault) (h : count ≤ limit) :
    fault? count negative = none :=
  if_pos h

/-- Why a grid of so many points is refused, if it is. -/
def gridFault? (count : Nat) : Option CapacityFault := fault? count .noLastPoint

/-- Why a table of so many places is refused, if it is. A table has one sample
more than it has places. -/
def tableFault? (places : Nat) : Option CapacityFault :=
  fault? places (if places + 1 < signBit then .bytes else .dimension)

/-- A quotient with three significant digits, or all digits before the point if
those are more. -/
def threeDigits (dividend divisor : Nat) : String :=
  let hundredths := Decimal.nearest (100 * dividend) divisor
  let tenths := Decimal.nearest (10 * dividend) divisor
  if hundredths < 1000 then
    toString (hundredths / 100) ++ "." ++ toString (hundredths / 10 % 10)
      ++ toString (hundredths % 10)
  else if tenths < 1000 then toString (tenths / 10) ++ "." ++ toString (tenths % 10)
  else toString (Decimal.nearest dividend divisor) ++ "."

/-- A number of bytes in gibibytes or, if there are 1024 of those once rounded,
in a larger unit. -/
def describeBytes (bytes : Nat) : String :=
  let unit (level : Nat) : Nat := 1 <<< (30 + 10 * level)
  let level := (bytes.log2 - 30) / 10
  let level := if Decimal.nearest bytes (unit level) = 1024 then level + 1 else level
  threeDigits bytes (unit level) ++ " "
    ++ (["GiB", "TiB", "PiB", "EiB"][level]?).getD ""

end Capacity

def CapacityFault.message : CapacityFault → String
  | memory count =>
    "Unable to allocate " ++ Capacity.describeBytes (8 * count) ++ " for an array with shape ("
      ++ toString count ++ ",) and data type float64"
  | bytes =>
    "array is too big; `arr.size * arr.dtype.itemsize` is larger than the maximum possible size."
  | dimension => "Maximum allowed dimension exceeded"
  | noLastPoint => "index -1 is out of bounds for axis 0 with size 0"
  | size => "Maximum allowed size exceeded"

end Easing

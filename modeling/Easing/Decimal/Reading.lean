import Easing.Decimal.Layout
import Easing.Text.DecimalDigit
import Easing.Text.Blank

/-! # How numbers are read

A number is an optional sign followed by `inf`, `infinity`, `nan` or a decimal
with an optional point and an optional exponent. A whole number is an optional
sign followed by digits alone. Digits of every script count, one underscore may
stand between two digits, and blanks may surround either kind of number.
-/

namespace Easing

/-- What a numeral says, before any rounding. -/
inductive Spelling where
  /-- Not a number, whatever the sign in front of it. -/
  | nan
  | infinite (negative : Bool)
  /-- The number `digits * 10 ^ exponent`, negated if so marked. -/
  | decimal (negative : Bool) (digits : Nat) (exponent : Int)
deriving DecidableEq, Repr

namespace Spelling

open Text

/-- Whether a text starts with a digit. -/
def startsWithDigit : List Char → Bool
  | [] => false
  | c :: _ => (digitValue? c).isSome

/-- The digits at the front of a text and what follows them, given whether a
digit stands before the text. -/
def digitsFrom (afterDigit : Bool) : List Char → List Nat × List Char
  | [] => ([], [])
  | c :: rest =>
    match digitValue? c with
    | some d =>
      let (run, left) := digitsFrom true rest
      (d :: run, left)
    | none =>
      if afterDigit && c == '_' && startsWithDigit rest then digitsFrom false rest
      else ([], c :: rest)

/-- The longest run of digits at the front of a text, and what follows it. An
underscore belongs to the run if it stands between two digits. -/
def digitRun (text : List Char) : List Nat × List Char := digitsFrom false text

/-- The natural number that a run of digits spells. -/
def natural (run : List Nat) : Nat := run.foldl (10 * · + ·) 0

/-- The sign in front of a text, if any: whether it is a minus, and the rest. -/
def sign : List Char → Bool × List Char
  | '-' :: rest => (true, rest)
  | '+' :: rest => (false, rest)
  | text => (false, text)

/-- A power of ten after the letter `e`; no text at all is the power zero. -/
def exponent? : List Char → Option Int
  | [] => some 0
  | mark :: rest =>
    if mark = 'e' ∨ mark = 'E' then
      let (negative, magnitude) := sign rest
      match digitRun magnitude with
      | (d :: run, []) =>
        let power : Int := natural (d :: run)
        some (if negative then -power else power)
      | _ => none
    else none

/-- The digits before and after a point, then the exponent. -/
def decimal? (negative : Bool) (text : List Char) : Option Spelling :=
  let (whole, rest) := digitRun text
  let (fraction, rest) :=
    match rest with
    | '.' :: more => digitRun more
    | _ => ([], rest)
  match whole ++ fraction with
  | [] => none
  | run => (exponent? rest).map fun power =>
      .decimal negative (natural run) (power - (fraction.length : Int))

/-- Blanks that may surround a number: all but the information
separators. -/
def isPadding (c : Char) : Bool := isBlank c && !(0x1C ≤ c.toNat && c.toNat ≤ 0x1F)

def read? (text : List Char) : Option Spelling :=
  let (negative, unsigned) := sign (trim isPadding text)
  let word := unsigned.map Char.toLower
  if word = "inf".toList ∨ word = "infinity".toList then some (.infinite negative)
  else if word = "nan".toList then some .nan
  else decimal? negative unsigned

/-- Reads a whole number of at most 4300 digits. -/
def integer? (text : List Char) : Option Int :=
  let (negative, magnitude) := sign (trim isPadding text)
  match digitRun magnitude with
  | (d :: run, []) =>
    if (d :: run).length ≤ 4300 then
      let value : Int := natural (d :: run)
      some (if negative then -value else value)
    else none
  | _ => none

end Spelling

namespace Float64

/-- The double nearest to a decimal. Powers of ten far outside the range of
doubles are decided by the size of the number alone. -/
def ofDecimal (digits : Nat) (exponent : Int) : Float :=
  if digits = 0 then 0.0
  else
    let leading := Decimal.leadingPlace digits 0 + exponent
    if 400 < leading then 1.0 / 0.0
    else if leading < -400 then 0.0
    else Float.ofScientific digits (exponent < 0) exponent.natAbs

/-- The double that a numeral stands for. -/
def ofSpelling : Spelling → Float
  | .nan => 0.0 / 0.0
  | .infinite negative => if negative then -(1.0 / 0.0) else 1.0 / 0.0
  | .decimal negative digits exponent =>
    let magnitude := ofDecimal digits exponent
    if negative then -magnitude else magnitude

def read? (text : String) : Option Float := (Spelling.read? text.toList).map ofSpelling

end Float64

end Easing

import Easing.Number.Scalar
import Easing.Random.Seed

/-! # Random numbers

A permuted congruential generator: the state of 128 bits takes affine steps,
and each state yields 64 bits by folding its halves and rotating them by its
top six bits. From these come words of 32 bits, numbers between zero and one,
and evenly distributed naturals below a bound.
-/

namespace Easing

/-- Why a seed is refused. -/
inductive SeedFault where
  | negative
deriving DecidableEq, Repr

def SeedFault.message : SeedFault → String
  | negative => "expected non-negative integer"

/-- The state of a random number generator. -/
structure Generator where
  /-- The number that takes the steps. -/
  state : BitVec 128
  /-- What every step adds; it is odd. -/
  increment : BitVec 128
  /-- The half of the last draw that is still to be given out as a word. -/
  spare : Option (BitVec 32)
deriving DecidableEq, Repr

namespace Generator

/-- The factor of every step. -/
def factor : BitVec 128 := 0x2360ED051FC65DA44385DF649FCCF645#128

/-- One affine step of the state. -/
def step (g : Generator) : Generator := { g with state := g.state * factor + g.increment }

/-- Joins four words of 32 bits, pairwise low word first and the higher pair first. -/
def joined : List Random.Word → BitVec 128
  | [a, b, c, d] => (b ++ a) ++ (d ++ c)
  | _ => 0

def ofSeed (seed : Nat) : Generator :=
  let words := (Random.Pool.ofSeed seed).output 8
  let start : Generator := ⟨0, (joined (words.drop 4) <<< 1) ||| 1, none⟩
  let stepped := start.step
  { stepped with state := stepped.state + joined (words.take 4) }.step

/-- The generator for a seed, which must not be negative. Without a seed the one
that is given serves. -/
def make (seed : Option Int) (unseeded : Generator := ofSeed 0) : Except SeedFault Generator :=
  match seed with
  | none => .ok unseeded
  | some (.ofNat seed) => .ok (ofSeed seed)
  | some (.negSucc _) => .error .negative

def next64 (g : Generator) : BitVec 64 × Generator :=
  let g := g.step
  let folded := (g.state >>> 64).setWidth 64 ^^^ g.state.setWidth 64
  (folded.rotateRight (g.state >>> 122).toNat, g)

/-- The next 32 bits: the halves of a draw, the low one first. -/
def next32 (g : Generator) : BitVec 32 × Generator :=
  match g.spare with
  | some word => (word, { g with spare := none })
  | none =>
    let (bits, g) := g.next64
    (bits.setWidth 32, { g with spare := some ((bits >>> 32).setWidth 32) })

/-- The number of different draws between zero and one, `2 ^ 53`. -/
def unitCount : Nat := 0x20000000000000

/-- A natural below `unitCount`. -/
def next53 (g : Generator) : Nat × Generator :=
  let (bits, g) := g.next64
  (bits.toNat >>> 11, g)

/-- A number from zero up to but not including one, a multiple of `2 ^ -53`. -/
def unit {α : Type} [Scalar α] (g : Generator) : α × Generator :=
  let (k, g) := g.next53
  ((k : α) / (unitCount : α), g)

/-- A list of successive numbers from zero up to but not including one. -/
def units {α : Type} [Scalar α] : Nat → Generator → List α × Generator
  | 0, g => ([], g)
  | count + 1, g =>
    let (x, g) : α × Generator := g.unit
    let (xs, g) := units count g
    (x :: xs, g)

/-- As many numbers are drawn as were asked for. -/
@[simp] theorem length_units {α : Type} [Scalar α] (count : Nat) (g : Generator) :
    (units count g : List α × Generator).1.length = count := by
  induction count generalizing g with
  | zero => rfl
  | succ count ih => exact congrArg (· + 1) (ih _)

/-- A natural below a bound, by scaling a word: the high part of the product is
the answer, and a word whose low part would favour some answers is drawn again,
at most as often as the number of retries says. -/
def scaled {width : Nat} (draw : Generator → BitVec width × Generator) (bound : Nat) :
    Nat → Generator → Nat × Generator
  | 0, g =>
    let (word, g) := draw g
    (word.toNat * bound / (1 <<< width), g)
  | retries + 1, g =>
    let (word, g) := draw g
    let product := word.toNat * bound
    let words := 1 <<< width
    if product % words < (words - bound) % bound then scaled draw bound retries g
    else (product / words, g)

/-- A natural below a positive bound of at most 64 bits. The only natural below
one takes no draw, up to `2 ^ 32` the words have 32 bits, and beyond 64. The chance
of a word being drawn again is below one half. -/
def below (bound : Nat) (g : Generator) : Nat × Generator :=
  if bound ≤ 1 then (0, g)
  else if bound ≤ Random.wordCount then scaled next32 bound 1000 g
  else scaled next64 bound 1000 g

end Generator

end Easing

import Easing.Text.Case

/-! # Definitions and their parts

A definition is a text of parallel chains divided by `&`; a chain is a sequence
of steps divided by `>`; a step is a name and its arguments divided by blanks
or commas. `normalize` brings a definition into normal form, and the other
functions cut a text into parts without normalizing it first.
-/

namespace Easing.Definition

open Text

/-- The character between parallel chains. -/
def chainSeparator : Char := '&'

/-- The character between successive steps. -/
def stepSeparator : Char := '>'

/-- Whether a character divides chains or steps. -/
def isSeparator (c : Char) : Bool := c == chainSeparator || c == stepSeparator

/-- Whether a character may stand around a definition without being part of it. -/
def isMargin (c : Char) : Bool := isBlank c || isSeparator c

/-- Whether a character divides the tokens of a step. -/
def isGap (c : Char) : Bool := isBlank c || c == ','

/-- A space in the place of a tab or a line break. -/
def flatten (c : Char) : Char :=
  if c = '\t' ∨ c = '\n' ∨ c = '\r' then ' ' else c

/-- What a separator says together with the next one, when only blanks stand
between them: two that divide steps divide steps, all others divide chains. -/
def joint (c d : Char) : Char :=
  if c = stepSeparator ∧ d = stepSeparator then stepSeparator else chainSeparator

/-- Replaces separators with only blanks between them by a single one. -/
def collapse : List Char → List Char
  | [] => []
  | c :: rest =>
    let collapsed := collapse rest
    if isSeparator c then
      match collapsed.dropWhile isBlank with
      | d :: more => if isSeparator d then joint c d :: more else c :: collapsed
      | [] => c :: collapsed
    else c :: collapsed

/-- The definition of the curve that changes nothing. -/
def identity : List Char := ['x']

/-- The normal form of a definition: on one line, without margins, with single
separators and small letters. An empty one stands for the identity. -/
def normalize (text : List Char) : List Char :=
  match lower (collapse (trim isMargin (text.map flatten))) with
  | [] => identity
  | normal => normal

/-- The pieces of a text between the characters of a class. There is always one
piece more than there are such characters. -/
def cut (divides : Char → Bool) : List Char → List (List Char)
  | [] => [[]]
  | c :: rest =>
    if divides c then [] :: cut divides rest
    else
      match cut divides rest with
      | [] => [[c]]
      | piece :: pieces => (c :: piece) :: pieces

/-- There is always a piece, if only an empty one. -/
theorem cut_ne_nil (divides : Char → Bool) (text : List Char) : cut divides text ≠ [] := by
  cases text with
  | nil => simp [cut]
  | cons c rest =>
    unfold cut
    split
    · simp
    · split <;> simp

/-- Pieces that follow a separator, without the blanks next to a separator. -/
def tidyAfter : List (List Char) → List (List Char)
  | [] => []
  | [last] => [dropFront isBlank last]
  | piece :: pieces => trim isBlank piece :: tidyAfter pieces

/-- The pieces of a text at a separator that takes the blanks next to it with
it. Blanks at either end of the text belong to its outer pieces. -/
def split (separator : Char) (text : List Char) : List (List Char) :=
  match cut (· == separator) text with
  | [] => []
  | [only] => [only]
  | first :: pieces => dropBack isBlank first :: tidyAfter pieces

def chains (text : List Char) : List (List Char) := split chainSeparator text

def steps (text : List Char) : List (List Char) := split stepSeparator text

/-- The tokens of a step, which are its longest runs of characters other than
blanks and commas. A step without any has one empty token. -/
def tokens (text : List Char) : List (List Char) :=
  match (cut isGap text).filter (!·.isEmpty) with
  | [] => [[]]
  | found => found

/-- There is always a token, if only an empty one. -/
theorem tokens_ne_nil (text : List Char) : tokens text ≠ [] := by
  unfold tokens
  split
  · simp
  · assumption

end Easing.Definition

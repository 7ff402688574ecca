import Easing.Text.Blank
import Easing.Text.CaseTable

/-! # Letter case of whole texts

Capital and small forms by the full Unicode mappings, under which a character
may become several. One mapping looks at its surroundings: a capital sigma
becomes the final small sigma where a word ends, and the medial one elsewhere.
-/

namespace Easing.Text

/-- The form of a character by an expansion or else by a run; a character in
neither table stands for itself. -/
def caseForm (expansions : List (Nat × List Nat)) (runs : List CaseRun) (c : Char) : List Char :=
  match expansions.lookup c.toNat with
  | some codes => codes.map Char.ofNat
  | none =>
    match partner? runs c.toNat with
    | some code => [Char.ofNat code]
    | none => [c]

def upperForm (c : Char) : List Char := caseForm upperExpansions upperRuns c

/-- The small form of a character, apart from its surroundings. -/
def lowerForm (c : Char) : List Char := caseForm lowerExpansions lowerRuns c

/-- Whether the next letter that is not passed over is a letter with case. -/
def meetsCased (text : List Char) : Bool :=
  match text.dropWhile fun c => inRanges caseIgnorableRanges c.toNat with
  | [] => false
  | c :: _ => inRanges casedRanges c.toNat

/-- The small form of each character, given the characters before the text in
reverse order. -/
def lowerAfter (before : List Char) : List Char → List Char
  | [] => []
  | c :: rest =>
    (if c = 'Σ' then [if meetsCased before && !meetsCased rest then 'ς' else 'σ']
      else lowerForm c) ++ lowerAfter (c :: before) rest

def lower (text : List Char) : List Char := lowerAfter [] text

def upper (text : List Char) : List Char := text.flatMap upperForm

end Easing.Text

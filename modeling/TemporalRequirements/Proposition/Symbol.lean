import TemporalRequirements.OrderedMap
import TemporalRequirements.Text.Parentheses
import TemporalRequirements.Text.Search

/-!
# Symbols for propositions

The distinct propositions of a requirement get short symbols, the longest text first: a few letters
and then numbered names.  Counting starts anew with every requirement.
-/

namespace TemporalRequirements

/-- The symbols given out first. -/
def baseSymbols : List String := ["Q", "R", "P", "S", "T", "Z"]

def numberedLetter : Char := 'Y'

/-- The decimal digits of a number, with zeros in front of fewer than four. -/
def fourDigits (n : Nat) : List Char :=
  let digits := Nat.toDigits 10 n
  List.replicate (4 - digits.length) '0' ++ digits

/-- The symbol given out after `n` others. -/
def symbolAt (n : Nat) : String :=
  match baseSymbols[n]? with
  | some s => s
  | none => String.ofList (numberedLetter :: fourDigits (n - baseSymbols.length))

def isSymbol (name : String) : Bool :=
  name ∈ baseSymbols ||
    match name.toList with
    | c :: digits => c = numberedLetter && 4 ≤ digits.length && digits.all Char.isDigit
    | [] => false

/-- The distinct texts, those with more bytes first and equally long ones in their order. -/
def longestFirst (texts : List String) : List String :=
  texts.eraseDups.mergeSort fun a b ↦ b.utf8ByteSize ≤ a.utf8ByteSize

/-- Every distinct text under its symbol, in order of the symbols. -/
def assignSymbols (texts : List String) : OrderedMap String String :=
  .ofList ((longestFirst texts).mapIdx fun n t ↦ (symbolAt n, t))

end TemporalRequirements

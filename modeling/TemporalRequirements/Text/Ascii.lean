/-!
# ASCII character classes

The classes that identifiers and numbers of formulas are made of.  They know ASCII only, as the
notation of formulas and of the generated programs does.
-/

namespace TemporalRequirements.Text

/-- The ASCII letters and the underscore, with which a name starts. -/
def isNameStart (c : Char) : Bool := c.isAlpha || c == '_'

/-- The ASCII letters, the digits and the underscore, of which a plain name consists. -/
def isNamePart (c : Char) : Bool := c.isAlphanum || c == '_'

/-- The characters of a name that may be qualified by dots. -/
def isPathPart (c : Char) : Bool := isNamePart c || c == '.'

theorem isPathPart_of_isNameStart {c : Char} (h : isNameStart c = true) :
    isPathPart c = true := by
  simp only [isNameStart, isPathPart, isNamePart, Char.isAlphanum, Bool.or_eq_true] at h ⊢
  rcases h with h | h
  · exact .inl (.inl (.inl h))
  · exact .inl (.inr h)

/-- The text with its ASCII capitals made small. -/
def lowercase (s : List Char) : List Char := s.map Char.toLower

def decimalValue (digits : List Char) : Nat :=
  digits.foldl (fun value c ↦ value * 10 + (c.toNat - '0'.toNat)) 0

/-- A number: digits, and perhaps a point and further digits.  The rest of the text follows. -/
def takeNumber (s : List Char) : List Char × List Char :=
  let whole := s.takeWhile Char.isDigit
  match s.dropWhile Char.isDigit with
  | '.' :: rest =>
    if (rest.takeWhile Char.isDigit).isEmpty then (whole, '.' :: rest)
    else (whole ++ '.' :: rest.takeWhile Char.isDigit, rest.dropWhile Char.isDigit)
  | rest => (whole, rest)

/-- A bare name or number: as an operand it needs no parentheses. -/
def isSimple (s : List Char) : Bool :=
  match s with
  | [] => false
  | c :: rest =>
    if isNameStart c then rest.all isPathPart
    else c.isDigit && (takeNumber s).2.isEmpty

end TemporalRequirements.Text

import TemporalRequirements.Text.Ascii

/-!
# Names inside a text

A text is read as a list of pieces: names of greatest length, and single characters between them.
Which characters start a name and which continue it is a parameter.  `spell` of the pieces is the
text again.
-/

namespace TemporalRequirements.Text

/-- A name inside a text, or one character outside every name. -/
inductive Piece where
  | name (letters : List Char)
  | other (c : Char)
  deriving DecidableEq, Repr

def Piece.spell : Piece → List Char
  | .name letters => letters
  | .other c => [c]

/-- The pieces of a text that continues the name `current`, which is kept backwards and is empty
outside names. -/
def piecesFrom (starts continues : Char → Bool) : List Char → List Char → List Piece
  | [], [] => []
  | current, [] => [.name current.reverse]
  | [], c :: rest =>
    if starts c then piecesFrom starts continues [c] rest
    else .other c :: piecesFrom starts continues [] rest
  | d :: current, c :: rest =>
    if continues c then piecesFrom starts continues (c :: d :: current) rest
    else if starts c then
      .name (d :: current).reverse :: piecesFrom starts continues [c] rest
    else .name (d :: current).reverse :: .other c :: piecesFrom starts continues [] rest

/-- The pieces of a text whose names may hold dots. -/
def pathPieces (s : List Char) : List Piece := piecesFrom isNameStart isPathPart [] s

/-- The pieces of a text whose names hold no dots. -/
def namePieces (s : List Char) : List Piece := piecesFrom isNameStart isNamePart [] s

theorem flatMap_spell_piecesFrom (starts continues : Char → Bool) (current s : List Char) :
    (piecesFrom starts continues current s).flatMap Piece.spell = current.reverse ++ s := by
  fun_induction piecesFrom starts continues current s <;> simp_all [Piece.spell]

/-- The pieces of a text spell the text. -/
theorem flatMap_spell_pathPieces (s : List Char) :
    (pathPieces s).flatMap Piece.spell = s := by
  simp [pathPieces, flatMap_spell_piecesFrom]

end TemporalRequirements.Text

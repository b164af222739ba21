import TemporalRequirements.Interface.Basic
import TemporalRequirements.Text.Parentheses
import TemporalRequirements.Text.Piece
import TemporalRequirements.Text.Search

/-!
# Normal form of propositions

The normal form of a proposition has identifiers in place of names and no arrows.  Its tokens, the
identifiers in it, tell which propositions depend on each other.
-/

namespace TemporalRequirements

/-- The words that are truth values wherever they stand. -/
def truthNames : List String := ["true", "false", "TRUE", "FALSE"]

/-- Whether an open parenthesis comes next, perhaps after blanks. -/
def opensCall : List Text.Piece → Bool
  | .other c :: rest => c = '(' || (Text.isBlank c && opensCall rest)
  | _ => false

/-- The text of pieces, with every name that is neither called nor a truth value made an
identifier. -/
def spellRenamed (identifier : String → String) : List Text.Piece → List Char
  | [] => []
  | .other c :: rest => c :: spellRenamed identifier rest
  | .name letters :: rest =>
    let name := String.ofList letters
    let spelled :=
      if opensCall rest || name ∈ truthNames then letters else (identifier name).toList
    spelled ++ spellRenamed identifier rest

/-! ## Arrows -/

/-- Applies a function to the inside of every outermost group of at most `n` groups; from an opener
that nothing closes on, the text stays as it is. -/
def mapGroups (f : List Char → List Char) : Nat → List Char → List Char
  | 0, s => s
  | _ + 1, [] => []
  | n + 1, c :: rest =>
    if c = '(' then
      match Text.splitClose 1 rest with
      | some (inner, after) => '(' :: f inner ++ ')' :: mapGroups f n after
      | none => c :: rest
    else c :: mapGroups f n rest

/-- Cuts a text at the first occurrence of `op` outside parentheses, of which `depth` more are open
than closed. -/
def cutOutside (op : List Char) (depth : Int) : List Char → Option (List Char × List Char)
  | [] => none
  | c :: rest =>
    if c = '(' then (cutOutside op (depth + 1) rest).map (Text.consFirst c)
    else if c = ')' then (cutOutside op (depth - 1) rest).map (Text.consFirst c)
    else
      match if depth = 0 then Text.after? op (c :: rest) else none with
      | some after => some ([], after)
      | none => (cutOutside op depth rest).map (Text.consFirst c)

/-- Removes arrows from a text, at most `n` groups and arrows deep. -/
def linearizeUpTo : Nat → List Char → List Char
  | 0, s => Text.trim s
  | n + 1, s =>
    let grouped := mapGroups (linearizeUpTo n) s.length (Text.trim s)
    match cutOutside "<->".toList 0 grouped with
    | some (l, r) =>
      "!((".toList ++ Text.trim l ++ ")^(".toList ++ linearizeUpTo n r ++ "))".toList
    | none =>
      match cutOutside "->".toList 0 grouped with
      | some (l, r) =>
        "!(".toList ++ Text.trim l ++ ")||(".toList ++ linearizeUpTo n r ++ ")".toList
      | none => grouped

/-- The text with an equivalence `a <-> b` outside parentheses written `!((a)^(b))` and an
implication `a -> b` written `!(a)||(b)`, inner groups first.  Every step spends an opener or an
arrow, so the length of the text bounds their number. -/
def linearize (s : List Char) : List Char := linearizeUpTo (s.length + 1) s

/-! ## Normal forms and tokens -/

def normalizeProposition (i : Interface) (text : String) : String :=
  String.ofList (linearize (spellRenamed i.identifier (Text.pathPieces text.toList)))

/-- The names in a normal form that are neither truth values nor literals, without repetition. -/
def dependencyTokens (isLiteral : String → Bool) (normal : String) : List String :=
  ((Text.pathPieces normal.toList).filterMap fun piece ↦
    match piece with
    | .name letters =>
      let name := String.ofList letters
      if name ∈ truthNames || isLiteral name then none else some name
    | .other _ => none).eraseDups

end TemporalRequirements

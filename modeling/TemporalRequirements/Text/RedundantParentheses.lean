import TemporalRequirements.Text.Alphanumeric
import TemporalRequirements.Text.Ascii
import TemporalRequirements.Text.Blank
import TemporalRequirements.Text.Search

/-!
# Redundant parentheses

A group of parentheses is redundant when it opens the text or follows an open parenthesis, is not
empty, and has no name or number directly inside.  One walk from left to right decides every group
at its closing parenthesis.  `removeRedundant` then shortens runs of spaces and, if a group went,
attaches a last bare operand to the operator before it.  Only matched pairs ever go.
-/

namespace TemporalRequirements.Text

/-! ## The walk over groups -/

/-- The characters of a name or number as this rule knows them. -/
def isOperandPart (c : Char) : Bool := isAlphanumeric c || c == '_' || c == '.'

/-- An open group: what it holds so far, backwards, and whether its parentheses may still go. -/
structure OpenGroup where
  content : List Char
  removable : Bool

/-- The walk's state: the text outside all groups, backwards, the open groups from the innermost
outwards, and whether any group has gone. -/
structure GroupWalk where
  outer : List Char
  groups : List OpenGroup
  removed : Bool

namespace GroupWalk

def start : GroupWalk := ⟨[], [], false⟩

/-- Adds characters, given backwards, to the innermost open group. -/
def append (cs : List Char) (w : GroupWalk) : GroupWalk :=
  match w.groups with
  | [] => { w with outer := cs ++ w.outer }
  | g :: rest => { w with groups := { g with content := cs ++ g.content } :: rest }

/-- The characters since the innermost open parenthesis, backwards. -/
def recent (w : GroupWalk) : List Char :=
  match w.groups with
  | [] => w.outer
  | g :: _ => g.content

/-- Whether a group that opens here stands at the start of the text or after another opener. -/
def leads (w : GroupWalk) : Bool :=
  match w.recent.find? (fun c ↦ !isBlank c) with
  | none => true
  | some c => c == '('

/-- Marks the innermost open group as one that holds an operand. -/
def keep (w : GroupWalk) : GroupWalk :=
  match w.groups with
  | [] => w
  | g :: rest => { w with groups := { g with removable := false } :: rest }

/-- Closes the innermost open group, without its parentheses if it is redundant. -/
def close (w : GroupWalk) : GroupWalk :=
  match w.groups with
  | [] => w.append [')']
  | g :: rest =>
    let parent := { w with groups := rest }
    if g.removable && !g.content.isEmpty then
      { parent.append g.content with removed := true }
    else parent.append (')' :: g.content ++ ['('])

def step (w : GroupWalk) (c : Char) : GroupWalk :=
  if c = '(' then { w with groups := ⟨[], w.leads⟩ :: w.groups }
  else if c = ')' then w.close
  else if isOperandPart c then w.keep.append [c]
  else w.append [c]

/-- The text walked over: groups still open keep their parenthesis. -/
def result (w : GroupWalk) : List Char :=
  (w.groups.flatMap (fun g ↦ g.content ++ ['(']) ++ w.outer).reverse

end GroupWalk

/-! ## Spaces and the last operand -/

/-- Every run of spaces shortened, one space for each four or part of four; `run` spaces of the
present run are already passed. -/
def shortenSpaces : Nat → List Char → List Char
  | _, [] => []
  | run, c :: rest =>
    if c = ' ' then
      if run % 4 = 0 then ' ' :: shortenSpaces (run + 1) rest else shortenSpaces (run + 1) rest
    else c :: shortenSpaces 0 rest

/-- The operators to which a last operand may be attached, written backwards. -/
def attachingOperators : List (List Char) := ["&&", "||", ">-"].map String.toList

/-- The text without the blanks between an operator and a bare operand that ends the text. -/
def attachLastOperand (s : List Char) : List Char :=
  let back := s.reverse.dropWhile isBlank
  let operand := back.takeWhile isPathPart
  let before := back.dropWhile isPathPart
  let kept := before.dropWhile isBlank
  if !operand.isEmpty && before.head?.any isBlank &&
      attachingOperators.any (fun op ↦ op.isPrefixOf kept) then
    (operand ++ kept).reverse
  else s

def removeRedundant (s : List Char) : List Char :=
  let walk := s.foldl GroupWalk.step GroupWalk.start
  let text := trim (shortenSpaces 0 walk.result)
  if walk.removed then attachLastOperand text else text

end TemporalRequirements.Text

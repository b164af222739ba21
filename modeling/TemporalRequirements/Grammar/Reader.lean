import TemporalRequirements.Text.Ascii
import TemporalRequirements.Text.Search

/-!
# Readers

A reader takes something off the front of a text and returns it with the rest, or fails.  Blanks
are skipped before a token, never after it.  A chain of operands joined by operators ends before an
operator that no operand follows; loops carry a number that bounds their rounds, for which the
length of the text is always enough.
-/

namespace TemporalRequirements.Grammar

/-- Reads from the front of a text; the rest is returned with the result. -/
abbrev Reader (α : Type) := List Char → Option (α × List Char)

def isGap (c : Char) : Bool := c == ' ' || c == '\t' || c == '\r' || c == '\n'

/-- The text without the blanks it starts with. -/
def skipGaps (s : List Char) : List Char := s.dropWhile isGap

variable {α β γ : Type}

/-- Reads the first symbol of a table with which the text starts. -/
def oneOf : List (String × α) → Reader (String × α)
  | [], _ => none
  | entry :: table, s =>
    match Text.after? entry.1.toList s with
    | some rest => some (entry, rest)
    | none => oneOf table s

/-- Reads the first symbol of a table, after blanks, as what it stands for. -/
def symbol (table : List (String × α)) : Reader α := fun s ↦
  (oneOf table (skipGaps s)).map fun (entry, rest) ↦ (entry.2, rest)

def mark (c : Char) (s : List Char) : Option (List Char) :=
  match skipGaps s with
  | [] => none
  | d :: rest => if d = c then some rest else none

/-- Reads a name of greatest length, which may be qualified by dots, after blanks. -/
def word : Reader (List Char) := fun s ↦
  match skipGaps s with
  | [] => none
  | c :: rest =>
    if Text.isNameStart c then
      some (c :: rest.takeWhile Text.isPathPart, rest.dropWhile Text.isPathPart)
    else none

/-- Reads a whole word of a table, as what it stands for. -/
def wordOf (table : List (String × α)) : Reader α := fun s ↦ do
  let (w, rest) ← word s
  let entry ← table.find? (fun entry ↦ entry.1.toList = w)
  return (entry.2, rest)

/-- Reads as often as possible, at most `n` times. -/
def many (read : Reader α) : Nat → List Char → List α × List Char
  | 0, s => ([], s)
  | n + 1, s =>
    match read s with
    | none => ([], s)
    | some (a, rest) =>
      let (others, rest) := many read n rest
      (a :: others, rest)

/-- Reads operators, each with the operand after it, at most `n` times. -/
def links (op : Reader β) (operand : Reader α) : Nat → List Char → List (β × α) × List Char
  | 0, s => ([], s)
  | n + 1, s =>
    match op s with
    | none => ([], s)
    | some (o, afterOp) =>
      match operand afterOp with
      | none => ([], s)
      | some (a, rest) =>
        let (others, rest) := links op operand n rest
        ((o, a) :: others, rest)

/-- Reads a first operand and the operators and operands joined to it. -/
def chain (op : Reader β) (operand : Reader α) (n : Nat) : Reader (α × List (β × α)) := fun s ↦ do
  let (first, rest) ← operand s
  let (others, rest) := links op operand n rest
  return ((first, others), rest)

/-- A chain grouped from the right. -/
def joinRight (join : β → α → α → α) : α → List (β × α) → α
  | a, [] => a
  | a, (o, b) :: rest => join o a (joinRight join b rest)

/-- A chain grouped from the left. -/
def joinLeft (join : β → α → α → α) : α → List (β × α) → α
  | a, [] => a
  | a, (o, b) :: rest => joinLeft join (join o a b) rest

end TemporalRequirements.Grammar

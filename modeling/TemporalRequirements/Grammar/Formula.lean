import TemporalRequirements.Formula
import TemporalRequirements.Grammar.Term
import TemporalRequirements.Text.Parentheses

/-!
# Reading formulas

The binary operators have six levels, all grouped from the right, and bind less tightly than the
operators before an operand.  A relation of terms is tried before a formula in parentheses, so that
`(x + 1) > 2` is one atom.  The text must be well formed as a whole before the bound of any
operator is looked at; bounds are then judged from the inside out and from left to right.
-/

namespace TemporalRequirements

/-- Why a text is not a formula. -/
inductive ParseError where
  | empty
  | ungrammatical
  | unsupportedBound (text : String)
  | emptyBound (text : String)
  | boundOverflow (text : String)
  | tooDeep (depth : Nat)
  deriving DecidableEq, Repr

def maxNesting : Nat := 64

/-- The text of a parse error.  What the parser generator reports about an ungrammatical text, its
place and what was expected there, would follow after a colon and is left out. -/
def ParseError.message : ParseError → String
  | .empty => "empty formula"
  | .ungrammatical => "syntax error"
  | .unsupportedBound text =>
    "unsupported bound `" ++ text ++ "`: only upper bounds are allowed"
  | .emptyBound text => "bound `" ++ text ++ "` leaves no step to check"
  | .boundOverflow text => "bound `" ++ text ++ "` is too large"
  | .tooDeep depth =>
    "parentheses nested " ++ toString depth ++ " deep, at most " ++ toString maxNesting ++
      " allowed"

/-- The text of an atom: blanks are single and outer parentheses are gone. -/
def normalizeAtomText (s : List Char) : List Char := Text.unwrap (Text.squeeze (Text.trim s))

namespace Grammar

/-- A formula whose bounds may still turn out to be wrong. -/
abbrev Judged := Except ParseError Formula

inductive BoundRelation where
  | atMost
  | atLeast
  | exactly
  | below
  | above
  deriving DecidableEq, Repr

def BoundRelation.spellings : List (String × BoundRelation) :=
  [("<=", .atMost), ("≤", .atMost), (">=", .atLeast), ("≥", .atLeast), ("=", .exactly),
    ("<", .below), (">", .above)]

structure WrittenBound where
  /-- Whether the letter asks for every step of the window. -/
  always : Bool
  relation : BoundRelation
  digits : List Char
  text : String

/-- The operator and bound meant: only an upper bound of at least one step has a meaning. -/
def WrittenBound.meaning (b : WrittenBound) : Except ParseError (BoundedOp × UInt32) :=
  let bound := Text.decimalValue b.digits
  let windowed : BoundedOp := if b.always then .alwaysWithin else .eventuallyWithin
  if bound ≥ UInt32.size then .error (.boundOverflow b.text)
  else
    match b.relation with
    | .exactly => .ok (.exactly, bound.toUInt32)
    | .atMost => .ok (windowed, bound.toUInt32)
    | .below =>
      if bound = 0 then .error (.emptyBound b.text) else .ok (windowed, (bound - 1).toUInt32)
    | .atLeast | .above => .error (.unsupportedBound b.text)

inductive LeadingOp where
  | plain (op : UnaryOp)
  | bounded (written : WrittenBound)

/-- The formula of an operator and its operand, which is judged first. -/
def LeadingOp.apply (op : LeadingOp) (f : Judged) : Judged := do
  let f ← f
  match op with
  | .plain op => return .unary op f
  | .bounded written =>
    let (op, bound) ← written.meaning
    return .bounded op bound f

/-! ## Operands -/

def boundAfter (letter : String) (always : Bool) : Reader LeadingOp := fun s ↦ do
  let ((sign, relation), rest) ← oneOf BoundRelation.spellings (skipGaps s)
  let s := skipGaps rest
  let digits := s.takeWhile Char.isDigit
  if digits.isEmpty then none
  else
    return (.bounded ⟨always, relation, digits, letter ++ sign ++ String.ofList digits⟩,
      s.dropWhile Char.isDigit)

def leadingOp : Reader LeadingOp := fun s ↦
  match skipGaps s with
  | '!' :: rest =>
    if (skipGaps rest).head? = some '=' then none else some (.plain .not, rest)
  | s => do
    let (w, rest) ← word s
    match w with
    | ['X'] => return (.plain .next, rest)
    | ['F'] => boundAfter "F" false rest <|> some (.plain .eventually, rest)
    | ['G'] => boundAfter "G" true rest <|> some (.plain .always, rest)
    | _ => none

/-- Reads a comparison.  The start of an equivalence arrow is none. -/
def relationOp : Reader RelOp := fun s ↦
  match Text.after? "<->".toList (skipGaps s) with
  | some _ => none
  | none => symbol RelOp.spellings s

/-- The atom text of what was read between two points of a text. -/
def textBetween (s rest : List Char) : String :=
  String.ofList (normalizeAtomText (s.take (s.length - rest.length)))

/-- The formula of a term that stands alone: a truth value is no atom. -/
def lone (text : String) : Term → Formula
  | .truth b => .const b
  | t => .atom ⟨text, .holds t⟩

def relation (term : Reader Term) : Reader Formula := fun s ↦ do
  let (l, rest) ← term s
  let compared := do
    let (op, rest) ← relationOp rest
    let (r, rest) ← term rest
    return (Formula.atom ⟨textBetween s rest, .compare l op r⟩, rest)
  compared <|> some (lone (textBetween s rest) l, rest)

/-! ## Binary operators and whole formulas -/

/-- Reads a relation or, failing that, a formula in parentheses. -/
def primary (term : Reader Term) (inner : Reader Judged) : Reader Judged := fun s ↦
  match relation term s with
  | some (f, rest) => some (.ok f, rest)
  | none => do
    let s ← mark '(' s
    let (f, rest) ← inner s
    return (f, ← mark ')' rest)

/-- Reads an operand of a binary operator with the operators before it. -/
def factor (read : Reader Judged) (n : Nat) : Reader Judged := fun s ↦ do
  let (ops, rest) := many leadingOp n s
  let (f, rest) ← read rest
  return (ops.foldr LeadingOp.apply f, rest)

/-- Joins two judged formulas; the left one is judged first. -/
def joinJudged (op : BinaryOp) (l r : Judged) : Judged := do
  let l ← l
  let r ← r
  return .binary op l r

/-- Reads one level of binary operators over the next tighter level. -/
def level (op : Reader BinaryOp) (read : Reader Judged) (n : Nat) : Reader Judged := fun s ↦ do
  let ((first, others), rest) ← chain op read n s
  return (joinRight joinJudged first others, rest)

def levelOps : List (Reader BinaryOp) :=
  [wordOf [("U", .strongUntil), ("V", .release), ("R", .release), ("W", .weakUntil)],
    symbol [("&&", .and), ("&", .and)],
    symbol [("^", .xor)],
    symbol [("||", .or), ("|", .or)],
    symbol [("->", .implies)],
    symbol [("<->", .iff)]]

def allLevels (read : Reader Judged) (n : Nat) : Reader Judged :=
  levelOps.foldl (fun read op ↦ level op read n) read

/-- Reads a formula whose parentheses nest less than `n` deep. -/
def formulaUpTo : Nat → Reader Judged
  | 0 => fun _ ↦ none
  | n + 1 =>
    allLevels (factor (primary (termUpTo (n + 1)) (formulaUpTo n)) (n + 1)) (n + 1)

/-- Reads a text that is one formula from end to end. -/
def wholeFormula (s : List Char) : Judged :=
  match formulaUpTo (s.length + 1) s with
  | some (f, rest) => if (skipGaps rest).isEmpty then f else .error .ungrammatical
  | none => .error .ungrammatical

end Grammar

def Formula.parse (text : String) : Except ParseError Formula :=
  let s := text.toList
  if s.all Text.isBlank then .error .empty
  else if Text.nesting s > maxNesting then .error (.tooDeep (Text.nesting s))
  else Grammar.wholeFormula s

end TemporalRequirements

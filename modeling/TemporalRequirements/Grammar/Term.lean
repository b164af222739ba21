import TemporalRequirements.Grammar.Reader
import TemporalRequirements.Term

/-!
# Reading terms

Sums of products of signed operands.  An operand is a number, a truth value, a call, a name or a
sum in parentheses.  `termUpTo n` reads terms whose parentheses nest less than `n` deep, so the
recursion is on that number alone.
-/

namespace TemporalRequirements.Grammar

def truthWords : List (String × Bool) :=
  [("true", true), ("false", false), ("TRUE", true), ("FALSE", false)]

/-- The temporal letters, which are no names. -/
def temporalWords : List String := ["X", "F", "G", "U", "V", "R", "W"]

/-- Whether a minus sign before this text is one: it must not be part of an arrow. -/
def isMinusBefore (s : List Char) : Bool := (skipGaps s).head? != some '>'

/-- Reads a sign of addition.  A minus sign with a blank after it asks for the remainder. -/
def additiveOp : Reader ArithOp := fun s ↦
  match skipGaps s with
  | '+' :: rest => some (.add, rest)
  | '-' :: rest =>
    if isMinusBefore rest then some (if rest.head?.any isGap then .mod else .sub, rest) else none
  | _ => none

def multiplicativeOp : Reader ArithOp := symbol [("*", .mul), ("/", .div), ("%", .mod)]

def negativeSign : Reader Unit := fun s ↦
  match skipGaps s with
  | '-' :: rest => if isMinusBefore rest then some ((), rest) else none
  | _ => none

def arguments (inner : Reader Term) (n : Nat) : Reader (List Term) := fun s ↦ do
  let s ← mark '(' s
  match chain (symbol [(",", ())]) inner n s with
  | some ((first, others), rest) => return (first :: others.map Prod.snd, ← mark ')' rest)
  | none => return ([], ← mark ')' s)

/-- Reads what a word starts: a truth value, a call or a variable. -/
def named (inner : Reader Term) (n : Nat) : Reader Term := fun s ↦ do
  let (w, rest) ← word s
  let name := String.ofList w
  match truthWords.find? (fun entry ↦ entry.1 = name) with
  | some entry => return (.truth entry.2, rest)
  | none =>
    if name ∈ temporalWords then none
    else
      match arguments inner n rest with
      | some (args, rest) => return (.call name args, rest)
      | none => return (.var name, rest)

def operand (inner : Reader Term) (n : Nat) : Reader Term := fun s ↦
  match skipGaps s with
  | [] => none
  | c :: rest =>
    if c = '(' then do
      let (t, rest) ← inner rest
      return (t, ← mark ')' rest)
    else if c.isDigit then
      let (text, rest) := Text.takeNumber (c :: rest)
      some (.number (String.ofList text), rest)
    else named inner n (c :: rest)

def signed (inner : Reader Term) (n : Nat) : Reader Term := fun s ↦ do
  let (signs, rest) := many negativeSign n s
  let (t, rest) ← operand inner n rest
  return (signs.foldr (fun _ t ↦ .neg t) t, rest)

def termChain (op : Reader ArithOp) (read : Reader Term) (n : Nat) : Reader Term := fun s ↦ do
  let ((first, others), rest) ← chain op read n s
  return (joinLeft .arith first others, rest)

/-- Reads a term whose parentheses nest less than `n` deep. -/
def termUpTo : Nat → Reader Term
  | 0 => fun _ ↦ none
  | n + 1 =>
    termChain additiveOp (termChain multiplicativeOp (signed (termUpTo n) (n + 1)) (n + 1)) (n + 1)

end TemporalRequirements.Grammar

import TemporalRequirements.Formula
import TemporalRequirements.Text.Ascii

/-!
# Conditions of monitors

A monitor checks formulas without temporal operators as C conditions.  A condition that may look
one step ahead tells which of its atoms stand under the one `X` allowed: those are read now, the
others were read one step ago.
-/

namespace TemporalRequirements.Monitor

inductive ConditionOp where
  | and
  | or
  | equal
  | different
  deriving DecidableEq, Repr

def ConditionOp.symbol : ConditionOp → String
  | .and => "&&"
  | .or => "||"
  | .equal => "=="
  | .different => "!="

/-- A C condition over expressions that it does not look into. -/
inductive Condition where
  | truth (value : Bool)
  | leaf (text : String)
  | not (c : Condition)
  | binary (op : ConditionOp) (l r : Condition)
  deriving DecidableEq, Repr, Inhabited

namespace Condition

/-- The text of a condition.  As an operand, a binary one is parenthesized, and so is a leaf that is
not a bare name or number. -/
def print (operand : Bool) : Condition → String
  | truth b => if b then "true" else "false"
  | leaf text =>
    if operand && !Text.isSimple text.toList then "(" ++ text ++ ")" else text
  | not c => "!" ++ print true c
  | binary op l r =>
    let text := print true l ++ " " ++ op.symbol ++ " " ++ print true r
    if operand then "(" ++ text ++ ")" else text

def text (c : Condition) : String := c.print false

def isSimple (c : Condition) : Bool := Text.isSimple c.text.toList

def negated (c : Condition) : String :=
  if c.isSimple then "!" ++ c.text else "!(" ++ c.text ++ ")"

end Condition

/-- The condition of a formula, or the first subformula that has none.  `leaf ahead a` spells the
atom `a`, which stands under `X` if `ahead` holds; `mayLook` tells whether `X` is allowed. -/
def conditionOf (leaf : Bool → Atom → String) (mayLook ahead : Bool) :
    Formula → Except Formula Condition
  | .const b => .ok (.truth b)
  | .atom a => .ok (.leaf (leaf ahead a))
  | .unary op f =>
    match op with
    | .not => (conditionOf leaf mayLook ahead f).map .not
    | .next =>
      if mayLook && !ahead then conditionOf leaf mayLook true f else .error (.unary op f)
    | .eventually | .always => .error (.unary op f)
  | .bounded op n f => .error (.bounded op n f)
  | .binary op l r =>
    let joined (op : ConditionOp) := do
      let l ← conditionOf leaf mayLook ahead l
      let r ← conditionOf leaf mayLook ahead r
      return Condition.binary op l r
    match op with
    | .and => joined .and
    | .or => joined .or
    | .iff => joined .equal
    | .xor => joined .different
    | .implies => do
      let l ← conditionOf leaf mayLook ahead l
      let r ← conditionOf leaf mayLook ahead r
      return .binary .or (.not l) r
    | .strongUntil | .release | .weakUntil => .error (.binary op l r)

/-- The atoms of a formula that do not stand under `X`. -/
def presentAtoms : Formula → List Atom
  | .const _ => []
  | .atom a => [a]
  | .unary .next _ => []
  | .unary _ f | .bounded _ _ f => presentAtoms f
  | .binary _ l r => presentAtoms l ++ presentAtoms r

end TemporalRequirements.Monitor

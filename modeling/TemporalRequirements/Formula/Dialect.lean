import TemporalRequirements.Formula
import TemporalRequirements.Text.Ascii

/-!
# Notations of formulas

A `Dialect` is the notation of a target: its operators, and which of the less common ones it has.
An exclusive or or a weak until that it lacks is written with others, by `Dialect.lower`, which
changes no meaning.  `Formula.print` writes the canonical notation, which has every operator and
can be read back.
-/

namespace TemporalRequirements

/-- The notation of temporal formulas in a target language. -/
structure Dialect where
  unary : UnaryOp → String
  binary : BinaryOp → String
  truth : Bool → String
  hasXor : Bool
  hasWeakUntil : Bool
  hasBounded : Bool

namespace Dialect

def letters : UnaryOp → String
  | .not => "!"
  | .next => "X"
  | .eventually => "F"
  | .always => "G"

/-- The notation in which formulas are read and shown. -/
def canonical : Dialect where
  unary := letters
  binary
    | .and => "&&"
    | .or => "||"
    | .xor => "^"
    | .implies => "->"
    | .iff => "<->"
    | .strongUntil => "U"
    | .release => "V"
    | .weakUntil => "W"
  truth := truthText
  hasXor := true
  hasWeakUntil := true
  hasBounded := true

/-- The notation of the SMV model checkers. -/
def smv : Dialect where
  unary := letters
  binary
    | .and => "&"
    | .or => "|"
    | .xor => "xor"
    | .implies => "->"
    | .iff => "<->"
    | .strongUntil => "U"
    | .release => "V"
    | .weakUntil => "W"
  truth b := if b then "TRUE" else "FALSE"
  hasXor := true
  hasWeakUntil := false
  hasBounded := false

/-- The notation of the DIVINE model checker. -/
def divine : Dialect where
  unary := letters
  binary
    | .and => "&&"
    | .or => "||"
    | .xor => "^"
    | .implies => "->"
    | .iff => "<->"
    | .strongUntil => "U"
    | .release => "R"
    | .weakUntil => "W"
  truth := truthText
  hasXor := false
  hasWeakUntil := false
  hasBounded := false

/-! ## Lowering -/

def lowerBinary (d : Dialect) (op : BinaryOp) (l r : Formula) : Formula :=
  match op with
  | .xor => if d.hasXor then .binary .xor l r else .unary .not (.binary .iff l r)
  | .weakUntil =>
    if d.hasWeakUntil then .binary .weakUntil l r
    else .binary .or (.binary .strongUntil l r) (.unary .always l)
  | op => .binary op l r

/-- The formula in the operators that the dialect has, at every depth. -/
def lower (d : Dialect) : Formula → Formula
  | .const b => .const b
  | .atom a => .atom a
  | .unary op f => .unary op (lower d f)
  | .bounded op n f => .bounded op n (lower d f)
  | .binary op l r => d.lowerBinary op (lower d l) (lower d r)

end Dialect

/-! ## Printing -/

/-- A bounded operator in a formula for a notation that has none. -/
structure UnexpandedBound where
  op : BoundedOp
  bound : UInt32
  deriving DecidableEq, Repr

def UnexpandedBound.message (e : UnexpandedBound) : String :=
  "bounded operator " ++ e.op.spell e.bound ++ " must be expanded before rendering"

namespace Formula

/-- The text of a formula in a dialect, atoms spelled by `atom`.  As an operand, a binary formula
is parenthesized, and so is an atom that is not a bare name or number. -/
def printWith (d : Dialect) (atomText : Atom → String) (operand : Bool) : Formula → String
  | const b => d.truth b
  | atom a =>
    parenthesizedIf (operand && !Text.isSimple (atomText a).toList) (atomText a)
  | unary .not f => d.unary .not ++ printWith d atomText true f
  | unary op f => d.unary op ++ "(" ++ printWith d atomText false f ++ ")"
  | bounded op n f => op.spell n ++ "(" ++ printWith d atomText false f ++ ")"
  | binary op l r =>
    parenthesizedIf operand
      (printWith d atomText true l ++ " " ++ d.binary op ++ " " ++ printWith d atomText true r)

/-- The first bounded operator, outer before inner and left before right. -/
def firstBound? : Formula → Option UnexpandedBound
  | const _ | atom _ => none
  | unary _ f => firstBound? f
  | bounded op n _ => some ⟨op, n⟩
  | binary _ l r => (firstBound? l).or (firstBound? r)

/-- The text of a formula in a dialect, or the bounded operator that the dialect cannot write. -/
def render (d : Dialect) (atomText : Atom → String) (f : Formula) :
    Except UnexpandedBound String :=
  let lowered := d.lower f
  match if d.hasBounded then none else lowered.firstBound? with
  | some e => .error e
  | none => .ok (lowered.printWith d atomText false)

/-- The canonical text of a formula, with every atom as it was written. -/
def print (f : Formula) : String := f.printWith .canonical Atom.text false

end Formula

end TemporalRequirements

import Mathlib.Algebra.Field.Rat
import Mathlib.Data.List.TakeWhile
import TemporalRequirements.Proofs.Formula.Semantics
import TemporalRequirements.Proofs.Smt.Copy
import TemporalRequirements.Proofs.Smt.Sexp

/-!
# Values of formulas and of S-expressions

A reading says what the values of variables are and what arithmetic and comparisons do with them.
Under a reading a formula has a trace, once the values of its variables are given at every step, and
an S-expression has a value, once the values of its symbols are given.
-/

namespace TemporalRequirements.Smt

/-- What terms stand for.  Whole numbers may be written with a point, and equality of truth values
is equivalence. -/
structure Reading (D : Type) where
  truth : Bool → D
  isTrue : D → Bool
  number : String → D
  literal : (enumeration name : String) → D
  call : String → List Term → D
  negate : D → D
  operate : ArithOp → D → D → D
  compare : RelOp → D → D → Bool
  isTrue_truth : ∀ b, isTrue (truth b) = b
  number_point : ∀ text, '.' ∉ text.toList → number (text ++ ".0") = number text
  compare_ne : ∀ a b, compare .ne a b = !compare .eq a b
  compare_truth : ∀ a b, compare .eq (truth a) (truth b) = (a == b)

variable {D : Type} (R : Reading D)

def Op.all : List Op :=
  [.not, .and, .or, .xor, .implies, .equal, .less, .lessEqual, .greater, .greaterEqual, .add,
    .subtract, .multiply, .divide, .intDivide, .remainder]

def Op.ofSymbol? (text : String) : Option Op := Op.all.find? fun op ↦ op.symbol = text

theorem Op.ofSymbol?_symbol (op : Op) : Op.ofSymbol? op.symbol = some op := by
  cases op <;> decide

namespace Reading

/-- The value of a function, where it has one. -/
def apply : Op → List D → Option D
  | .not, [a] => some (R.truth (!R.isTrue a))
  | .and, [a, b] => some (R.truth (R.isTrue a && R.isTrue b))
  | .or, [a, b] => some (R.truth (R.isTrue a || R.isTrue b))
  | .xor, [a, b] => some (R.truth (R.isTrue a != R.isTrue b))
  | .implies, [a, b] => some (R.truth (!R.isTrue a || R.isTrue b))
  | .equal, [a, b] => some (R.truth (R.compare .eq a b))
  | .less, [a, b] => some (R.truth (R.compare .lt a b))
  | .lessEqual, [a, b] => some (R.truth (R.compare .le a b))
  | .greater, [a, b] => some (R.truth (R.compare .gt a b))
  | .greaterEqual, [a, b] => some (R.truth (R.compare .ge a b))
  | .add, [a, b] => some (R.operate .add a b)
  | .subtract, [a] => some (R.negate a)
  | .subtract, [a, b] => some (R.operate .sub a b)
  | .multiply, [a, b] => some (R.operate .mul a b)
  | .divide, [a, b] => some (R.operate .div a b)
  | .intDivide, [a, b] => some (R.operate .div a b)
  | .remainder, [a, b] => some (R.operate .mod a b)
  | _, _ => none

/-- The value of a symbol that is no function, where `names` tells the values of names. -/
def symbol (names : String → D) (text : String) : D :=
  if text = truthText true then R.truth true
  else if text = truthText false then R.truth false
  else if text.toList.head?.any Char.isDigit then R.number text
  else names text

end Reading

mutual

/-- The value of an S-expression, where `names` tells the values of names. -/
def Sexp.value (names : String → D) : Sexp → Option D
  | .symbol text => some (R.symbol names text)
  | .cons (.symbol text) args =>
    (Op.ofSymbol? text).bind fun op ↦ (Sexp.values names args).bind fun vs ↦ R.apply op vs
  | .nil | .cons _ _ => none

def Sexp.values (names : String → D) : Sexp → Option (List D)
  | .nil => some []
  | .cons head tail =>
    (Sexp.value names head).bind fun v ↦ (Sexp.values names tail).map fun vs ↦ v :: vs
  | .symbol _ => none

end

/-! ## Formulas -/

def hasLiteral (i : Interface) (enumeration literal : String) : Bool :=
  i.enums.values.any fun e ↦ e.name = enumeration && literal ∈ e.literals

/-- The enumeration to which a literal belongs, where `hint` may tell it. -/
def literalEnum (i : Interface) (literal : String) (hint : Option String) : String :=
  (hint.filter fun e ↦ hasLiteral i e literal).getD
    (((keeper? i literal).map Enumeration.name).getD "")

namespace Scope

variable (s : Scope)

/-- The value of a term, where `hint` is the enumeration of literals in this place. -/
def termValue (values : String → D) (hint : Option String) : Term → D
  | .var v =>
    if s.interface.readsAsLiteral v then R.literal (literalEnum s.interface v hint) v else values v
  | .number text => R.number text
  | .truth b => R.truth b
  | .neg t => R.negate (termValue values hint t)
  | .arith op l r => R.operate op (termValue values hint l) (termValue values hint r)
  | .call f args => R.call f args

def enumOf (t : Term) : Option String := (s.typeOf 0 t).enumName?

/-- Whether a predicate is true.  Literals on one side belong to the enumeration of the other. -/
def predicateHolds (values : String → D) : Predicate → Bool
  | .holds t => R.isTrue (s.termValue R values none t)
  | .compare l op r =>
    R.compare op (s.termValue R values (s.enumOf r) l) (s.termValue R values (s.enumOf l) r)

def trace (values : Nat → String → D) : Trace :=
  fun j a ↦ s.predicateHolds R (values j) a.predicate = true

/-- Values under which propositions that are no comparisons are true or false. -/
def AreTruthful (values : Nat → String → D) (f : Formula) : Prop :=
  ∀ a ∈ f.atoms, ∀ t, a.predicate = .holds t →
    ∀ j, ∃ b, s.termValue R (values j) none t = R.truth b

/-- The literals of a term, each with the enumeration to which it belongs. -/
def termLiterals (hint : Option String) (t : Term) : List (String × String) :=
  (t.variables.filter s.interface.readsAsLiteral).map fun v ↦ (literalEnum s.interface v hint, v)

def predicateLiterals : Predicate → List (String × String)
  | .holds t => s.termLiterals none t
  | .compare l _ r => s.termLiterals (s.enumOf r) l ++ s.termLiterals (s.enumOf l) r

/-- The literals of a formula, each with the enumeration to which it belongs. -/
def literalsOf (f : Formula) : List (String × String) :=
  f.atoms.flatMap fun a ↦ s.predicateLiterals a.predicate

def literalNameOf (l : String × String) : String := literalName s.interface l.1 l.2

end Scope

/-! ## Numbers and literals as values -/

/-- Truth values, numbers and literals. -/
inductive Value where
  | truth (b : Bool)
  | number (q : Rat)
  | literal (enumeration name : String)
  deriving DecidableEq

/-- The number that decimal digits with a point stand for. -/
def decimal (text : String) : Rat :=
  let fraction := (text.toList.dropWhile (· ≠ '.')).drop 1
  Text.decimalValue (text.toList.takeWhile (· ≠ '.')) +
    Text.decimalValue fraction / 10 ^ fraction.length

/-- A point with a zero behind it leaves the value of a number. -/
theorem decimal_point {text : String} (h : '.' ∉ text.toList) :
    decimal (text ++ ".0") = decimal text := by
  have hwhole : ∀ c ∈ text.toList, (decide (c ≠ '.')) = true := by
    intro c hc
    rw [decide_eq_true_eq]
    rintro rfl
    exact h hc
  have hpoint : ".0".toList = ['.', '0'] := rfl
  have hzero : Text.decimalValue ['0'] = 0 := rfl
  have hnone : Text.decimalValue [] = 0 := rfl
  have htake := List.takeWhile_eq_self_iff.mpr hwhole
  have hdrop := List.dropWhile_eq_nil_iff.mpr hwhole
  simp only [decimal, String.toList_append, hpoint, List.takeWhile_append_of_pos hwhole,
    List.dropWhile_append_of_pos hwhole, htake, hdrop]
  simp [hzero, hnone]

namespace Value

def operate : ArithOp → Rat → Rat → Rat
  | .add, a, b => a + b
  | .sub, a, b => a - b
  | .mul, a, b => a * b
  | .div, a, b => a / b
  | .mod, a, b => a - b * (a / b).floor

/-- How two numbers compare. -/
def compare : RelOp → Rat → Rat → Bool
  | .eq, a, b => a = b
  | .ne, a, b => a ≠ b
  | .lt, a, b => a < b
  | .le, a, b => a ≤ b
  | .gt, a, b => b < a
  | .ge, a, b => b ≤ a

/-- Terms read as truth values, numbers and literals. -/
def reading : Reading Value where
  truth := truth
  isTrue v := v = truth true
  number text := number (decimal text)
  literal := literal
  call _ _ := truth false
  negate
    | number q => number (-q)
    | v => v
  operate
    | op, number a, number b => number (operate op a b)
    | _, v, _ => v
  compare
    | .eq, v, w => v = w
    | .ne, v, w => v ≠ w
    | op, number a, number b => compare op a b
    | _, _, _ => false
  isTrue_truth b := by cases b <;> rfl
  number_point _ h := congrArg number (decimal_point h)
  compare_ne v w := by simp
  compare_truth a b := by cases a <;> cases b <;> rfl

end Value

end TemporalRequirements.Smt

import TemporalRequirements.Formula.Dialect
import TemporalRequirements.Smt.Literal
import TemporalRequirements.Smt.TypeTable

/-!
# Formulas as SMT terms

A formula without unbounded operators is encoded at one step: under `k` next steps a variable is
its `k`-th later copy.  The notes of a formula are what its comparisons and operands tell of the
types of its constants, in order of use.
-/

namespace TemporalRequirements.Smt

inductive Op where
  | not
  | and
  | or
  | xor
  | implies
  | equal
  | less
  | lessEqual
  | greater
  | greaterEqual
  | add
  | subtract
  | multiply
  | divide
  | intDivide
  | remainder
  deriving DecidableEq, Repr

def Op.symbol : Op → String
  | .not => "not"
  | .and => "and"
  | .or => "or"
  | .xor => "xor"
  | .implies => "=>"
  | .equal => "="
  | .less => "<"
  | .lessEqual => "<="
  | .greater => ">"
  | .greaterEqual => ">="
  | .add => "+"
  | .subtract => "-"
  | .multiply => "*"
  | .divide => "/"
  | .intDivide => "div"
  | .remainder => "mod"

inductive Expr where
  | truth (value : Bool)
  | number (text : String)
  | constant (name : String)
  | literal (name : String)
  | unary (op : Op) (e : Expr)
  | binary (op : Op) (l r : Expr)
  deriving DecidableEq, Repr, Inhabited

def Expr.print : Expr → String
  | .truth b => truthText b
  | .number text => text
  | .constant name => name
  | .literal name => name
  | .unary op e => "(" ++ op.symbol ++ " " ++ e.print ++ ")"
  | .binary op l r => "(" ++ op.symbol ++ " " ++ l.print ++ " " ++ r.print ++ ")"

/-! ## What uses tell of types -/

/-- What an encoding reads: the interface and the names of its literals. -/
structure Scope where
  interface : Interface
  literals : LiteralNames

abbrev Note := String × SmtType

namespace Scope

/-- The name of the copy of a variable `shift` steps later. -/
def constantName (s : Scope) (name : String) (shift : Nat) : String :=
  Nat.repeat shiftedOnce shift (s.interface.identifier name)

/-- What is known of the type of a term, `shift` steps later. -/
def typeOf (s : Scope) (shift : Nat) : Term → SmtType
  | .var v =>
    if s.interface.readsAsLiteral v then
      ((bareEnum? s.literals v).map SmtType.enumeration).getD .unknown
    else
      match s.interface.dataType? v with
      | some declared => .ofDataType declared
      | none => .sameAs (s.constantName v shift)
  | .number text => if '.' ∈ text.toList then .real else .int
  | .truth _ => .bool
  | .neg t => typeOf s shift t
  | .arith _ l r => (typeOf s shift l).merge (typeOf s shift r)
  | .call _ _ => .unknown

/-- What a use of a variable tells, where the use suggests a type. -/
def note (s : Scope) (shift : Nat) (v : String) (suggested : SmtType) : List Note :=
  if s.interface.readsAsLiteral v then []
  else
    let name := s.constantName v shift
    match s.interface.dataType? v with
    | some declared => [(name, .ofDataType declared)]
    | none => [(name, if suggested = .sameAs name then .unknown else suggested)]

/-- What a term tells that is a variable, where its use suggests a type. -/
def noteVariable (s : Scope) (shift : Nat) (suggested : SmtType) : Term → List Note
  | .var v => s.note shift v suggested
  | _ => []

def termNotes (s : Scope) (shift : Nat) : Term → List Note
  | .var v => s.note shift v .unknown
  | .number _ | .truth _ | .call _ _ => []
  | .neg t => termNotes s shift t
  | .arith _ l r => termNotes s shift l ++ termNotes s shift r

def predicateNotes (s : Scope) (shift : Nat) : Predicate → List Note
  | .holds t => s.noteVariable shift .bool t ++ s.termNotes shift t
  | .compare l _ r =>
    s.noteVariable shift (s.typeOf shift r) l ++ s.noteVariable shift (s.typeOf shift l) r ++
      s.termNotes shift l ++ s.termNotes shift r

def notes (s : Scope) (shift : Nat) : Formula → List Note
  | .const _ => []
  | .atom a => s.predicateNotes shift a.predicate
  | .unary .next f => notes s (shift + 1) f
  | .unary _ f | .bounded _ _ f => notes s shift f
  | .binary _ l r => notes s shift l ++ notes s shift r

/-! ## Terms, predicates and formulas -/

def arithOp (real : Bool) : ArithOp → Op
  | .add => .add
  | .sub => .subtract
  | .mul => .multiply
  | .div => if real then .divide else .intDivide
  | .mod => .remainder

/-- The encoding of a term, or the text of a call in it.  `hint` is the enumeration of literals
in this place, and `real` tells whether numbers are reals. -/
def term (s : Scope) (shift : Nat) (hint : Option String) (real : Bool) :
    Term → Except String Expr
  | .var v =>
    if s.interface.readsAsLiteral v then .ok (.literal (hintedName s.literals v hint))
    else .ok (.constant (s.constantName v shift))
  | .number text =>
    .ok (.number (if real && !('.' ∈ text.toList) then text ++ ".0" else text))
  | .truth b => .ok (.truth b)
  | .neg t => do
    let e ← term s shift hint real t
    return .unary .subtract e
  | .arith op l r => do
    let real := real || (s.typeOf shift (.arith op l r)) = .real
    let left ← term s shift hint real l
    let right ← term s shift hint real r
    return .binary (arithOp real op) left right
  | .call f args => .error (Term.print .source (.call f args))

def comparison (op : RelOp) (l r : Expr) : Expr :=
  match op with
  | .eq => .binary .equal l r
  | .ne => .unary .not (.binary .equal l r)
  | .lt => .binary .less l r
  | .le => .binary .lessEqual l r
  | .gt => .binary .greater l r
  | .ge => .binary .greaterEqual l r

def predicate (s : Scope) (shift : Nat) : Predicate → Except String Expr
  | .holds t => s.term shift none false t
  | .compare l op r => do
    let leftType := s.typeOf shift l
    let rightType := s.typeOf shift r
    let real : Bool := leftType.merge rightType = .real
    let left ← s.term shift rightType.enumName? real l
    let right ← s.term shift leftType.enumName? real r
    return comparison op left right

def binaryOp? : BinaryOp → Option Op
  | .and => some .and
  | .or => some .or
  | .xor => some .xor
  | .implies => some .implies
  | .iff => some .equal
  | .strongUntil | .release | .weakUntil => none

/-- The encoding of a formula `shift` steps later, or the text of the part that has none. -/
def formula (s : Scope) (shift : Nat) : Formula → Except String Expr
  | .const b => .ok (.truth b)
  | .atom a => s.predicate shift a.predicate
  | .unary op f =>
    match op with
    | .not => do
      let e ← formula s shift f
      return .unary .not e
    | .next => formula s (shift + 1) f
    | .eventually | .always => .error (Formula.print (.unary op f))
  | .bounded op n f => .error (Formula.print (.bounded op n f))
  | .binary op l r =>
    match binaryOp? op with
    | some o => do
      let left ← formula s shift l
      let right ← formula s shift r
      return .binary o left right
    | none => .error (Formula.print (.binary op l r))

end Scope

end TemporalRequirements.Smt

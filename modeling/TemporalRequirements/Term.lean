/-!
# Terms and atoms

An atom is a proposition that a formula does not look into: a boolean term or a comparison of two
terms.  It keeps the text it was read from beside its predicate.  `Term.print` writes a term with
the fewest parentheses that keep its tree, in the spelling that a `Style` gives to the leaves.
-/

namespace TemporalRequirements

inductive ArithOp where
  | add
  | sub
  | mul
  | div
  | mod
  deriving DecidableEq, Repr

def ArithOp.symbol : ArithOp → String
  | .add => "+"
  | .sub => "-"
  | .mul => "*"
  | .div => "/"
  | .mod => "%"

def ArithOp.precedence : ArithOp → Nat
  | .add | .sub => 1
  | .mul | .div | .mod => 2

inductive RelOp where
  | eq
  | ne
  | lt
  | le
  | gt
  | ge
  deriving DecidableEq, Repr

def RelOp.symbol : RelOp → String
  | .eq => "=="
  | .ne => "!="
  | .lt => "<"
  | .le => "<="
  | .gt => ">"
  | .ge => ">="

/-- Every spelling of a comparison, a longer one before those it starts with. -/
def RelOp.spellings : List (String × RelOp) :=
  [("==", .eq), ("!=", .ne), ("<=", .le), ("≤", .le), (">=", .ge), ("≥", .ge), ("<", .lt),
    (">", .gt), ("=", .eq)]

def RelOp.ofSymbol? (sign : String) : Option RelOp :=
  (RelOp.spellings.find? (fun spelling ↦ spelling.1 = sign)).map Prod.snd

inductive Term where
  | var (name : String)
  /-- A literal keeps its text. -/
  | number (text : String)
  | truth (value : Bool)
  | neg (t : Term)
  | arith (op : ArithOp) (l r : Term)
  | call (name : String) (args : List Term)
  deriving Repr, Inhabited

mutual

def Term.same : Term → Term → Bool
  | .var x, .var y => x = y
  | .number x, .number y => x = y
  | .truth x, .truth y => x = y
  | .neg s, .neg t => Term.same s t
  | .arith o s t, .arith p u v => o = p && Term.same s u && Term.same t v
  | .call f xs, .call g ys => f = g && Term.sameList xs ys
  | _, _ => false

/-- Whether two lists hold the same terms in the same order. -/
def Term.sameList : List Term → List Term → Bool
  | [], [] => true
  | s :: ss, t :: ts => Term.same s t && Term.sameList ss ts
  | _, _ => false

end

mutual

theorem Term.same_iff (s t : Term) : Term.same s t = true ↔ s = t := by
  cases s with
  | neg s => cases t <;> simp [Term.same, Term.same_iff s]
  | arith o s t' => cases t <;> simp [Term.same, Term.same_iff s, Term.same_iff t', and_assoc]
  | call f xs => cases t <;> simp [Term.same, Term.sameList_iff xs]
  | _ => cases t <;> simp [Term.same]

theorem Term.sameList_iff (ss ts : List Term) : Term.sameList ss ts = true ↔ ss = ts := by
  cases ss with
  | nil => cases ts <;> simp [Term.sameList]
  | cons s ss => cases ts <;> simp [Term.sameList, Term.same_iff s, Term.sameList_iff ss]

end

instance : DecidableEq Term := fun s t ↦ decidable_of_iff _ (Term.same_iff s t)

/-! ## Predicates and atoms -/

inductive Predicate where
  /-- The term is true. -/
  | holds (t : Term)
  | compare (l : Term) (op : RelOp) (r : Term)
  deriving DecidableEq, Repr, Inhabited

/-- An atomic proposition: the text it was read from and what it says. -/
structure Atom where
  text : String
  predicate : Predicate
  deriving DecidableEq, Repr, Inhabited

/-- The proposition that a boolean variable is true. -/
def Atom.var (name : String) : Atom := ⟨name, .holds (.var name)⟩

/-! ## Printing and variables -/

/-- How the leaves of a term and the comparisons are spelled in a notation. -/
structure Style where
  variableName : String → String
  number : String → String
  truth : Bool → String
  relation : RelOp → String

/-- The text of a truth value in formulas and in most generated notations. -/
def truthText : Bool → String
  | true => "true"
  | false => "false"

/-- The style that spells every leaf as it was written. -/
def Style.source : Style where
  variableName := id
  number := id
  truth := truthText
  relation := RelOp.symbol

def Term.precedence? : Term → Option Nat
  | .arith op _ _ => some op.precedence
  | _ => none

def parenthesizedIf (wanted : Bool) (text : String) : String :=
  if wanted then "(" ++ text ++ ")" else text

mutual

/-- The text of a term.  A left operand is parenthesized when it binds less tightly than the
operation, a right operand also when it binds equally. -/
def Term.print (style : Style) : Term → String
  | .var name => style.variableName name
  | .number text => style.number text
  | .truth b => style.truth b
  | .neg t => "-" ++ parenthesizedIf t.precedence?.isSome (Term.print style t)
  | .arith op l r =>
    parenthesizedIf (l.precedence?.any (· < op.precedence)) (Term.print style l) ++ " " ++
      op.symbol ++ " " ++
      parenthesizedIf (r.precedence?.any (· ≤ op.precedence)) (Term.print style r)
  | .call name args => name ++ "(" ++ ", ".intercalate (Term.printList style args) ++ ")"

def Term.printList (style : Style) : List Term → List String
  | [] => []
  | t :: ts => Term.print style t :: Term.printList style ts

end

def Predicate.print (style : Style) : Predicate → String
  | .holds t => t.print style
  | .compare l op r => l.print style ++ " " ++ style.relation op ++ " " ++ r.print style

mutual

/-- The variables of a term in order of appearance, without the names of called functions. -/
def Term.variables : Term → List String
  | .var name => [name]
  | .number _ | .truth _ => []
  | .neg t => Term.variables t
  | .arith _ l r => Term.variables l ++ Term.variables r
  | .call _ args => Term.variablesList args

def Term.variablesList : List Term → List String
  | [] => []
  | t :: ts => Term.variables t ++ Term.variablesList ts

end

def Predicate.variables : Predicate → List String
  | .holds t => t.variables
  | .compare l _ r => l.variables ++ r.variables

end TemporalRequirements

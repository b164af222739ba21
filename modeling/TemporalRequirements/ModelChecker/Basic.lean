import TemporalRequirements.Diagnostic
import TemporalRequirements.Store.Basic

/-!
# Properties as model checkers see them

A model checker has no scope keywords and no bounded operators: the first become temporal operators
and the second are unrolled.  A property that cannot be unrolled is reported and becomes a comment.
-/

namespace TemporalRequirements

/-- The style of C expressions: signals by their identifiers, enumeration literals as written. -/
def Style.program (i : Interface) : Style where
  variableName name := if i.readsAsLiteral name then name else i.identifier name
  number := id
  truth := truthText
  relation := RelOp.symbol

/-- The formula of a property with its scope in temporal operators. -/
def Chunk.scoped (c : Chunk) : Formula :=
  match c.tag with
  | some .afterInitialCondition => .unary .next (.unary .always c.formula)
  | _ => c.formula

def Chunk.unrolled (limit : UInt32) (c : Chunk) : Except UnrollError Formula :=
  c.scoped.unroll limit

def UnrollError.marker (e : UnrollError) : String := "Error: " ++ e.message

/-- The text in place of a formula that a notation cannot write. -/
def UnexpandedBound.marker (e : UnexpandedBound) : String := "Error: " ++ e.message

/-- The message about a property in whose place a marker stands. -/
def reportMarker (id : String) (k : Nat) (report : String) : Diagnostic :=
  .failure (some id) ("chunk " ++ toString k ++ ": " ++ report)

def Entry.numberedChunks (e : Entry) : List (Nat × Chunk) :=
  e.decomposition.chunks.mapIdx fun k c ↦ (k, c)

end TemporalRequirements

import TemporalRequirements.Formula.Dialect
import TemporalRequirements.Formula.Unroll
import TemporalRequirements.Grammar.Formula
import TemporalRequirements.Scope

/-!
# Properties of a requirement

The text of a requirement holds one or more properties, its chunks, with blank lines between them.
Each is a formula, perhaps after a scope keyword.
-/

namespace TemporalRequirements

/-- One property of a requirement: its scope keyword, if any, and its formula. -/
structure Chunk where
  tag : Option ScopeTag
  formula : Formula
  deriving DecidableEq, Repr, Inhabited

/-- What stands between the properties of a requirement. -/
def chunkSeparator : String := "\n\n"

/-- A text after the keyword of its scope, if there is one. -/
def tagged (tag : Option ScopeTag) (body : String) : String :=
  match tag with
  | some tag => tag.keyword ++ " " ++ body
  | none => body

def Chunk.print (chunk : Chunk) : String := tagged chunk.tag chunk.formula.print

def Chunk.parse (text : String) : Except ParseError Chunk := do
  let (tag, rest) := ScopeTag.split text.toList
  let formula ← Formula.parse (String.ofList rest)
  return ⟨tag, formula⟩

/-- The texts of the properties of a requirement; blank ones are left out. -/
def splitChunks (text : String) : List String :=
  let unixLines := Text.replaceAll "\r\n".toList "\n".toList text.toList
  ((Text.splitOn chunkSeparator.toList unixLines).map Text.trim).filterMap fun piece ↦
    if piece.isEmpty then none else some (String.ofList piece)

/-- The properties of a requirement, or the error of the first that cannot be read. -/
def parseChunks (text : String) : Except ParseError (List Chunk) :=
  (splitChunks text).mapM Chunk.parse

/-- The text of a property with its bounded operators unrolled.  A text that cannot be read stays
as it is; one that cannot be unrolled becomes the error. -/
def unrollChunkText (limit : UInt32) (text : String) : String :=
  match Chunk.parse text with
  | .error _ => text
  | .ok chunk =>
    match chunk.formula.unroll limit with
    | .ok formula => tagged chunk.tag formula.print
    | .error e => "Error: " ++ e.message

/-- The text of a requirement with the bounded operators of every property unrolled. -/
def unrollText (limit : UInt32) (text : String) : String :=
  chunkSeparator.intercalate ((splitChunks text).map (unrollChunkText limit))

end TemporalRequirements

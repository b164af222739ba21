import TemporalRequirements.ModelChecker.Basic
import TemporalRequirements.Smt.Encoding

/-!
# Consistency scripts

A script declares enumerations and constants and then checks every verification group on its own.
Each property is one assertion at a single step: a leading "always" is dropped.  A property that
cannot be unrolled or encoded is reported and leaves nothing behind.
-/

namespace TemporalRequirements.Smt

/-- An SMT-LIB script: declarations, and the assertions of each group. -/
structure Script where
  datatypes : List String
  constants : List String
  blocks : List (List String)
  types : TypeTable

/-- A property that is encoded: its assertion and what it tells of types. -/
structure Assertion where
  ref : ChunkRef
  text : String
  notes : List Note

/-- The assertion of a property, or the message why there is none. -/
def assertion (s : Scope) (limit : UInt32) (id : String) (k : Nat) (c : Chunk) :
    Except Diagnostic Assertion :=
  match c.formula.unroll limit with
  | .error e => .error (reportMarker id k e.marker)
  | .ok f =>
    let body := f.alwaysBody?.getD f
    match s.formula 0 body with
    | .error part =>
      .error (.warn (some id) ("chunk " ++ toString k ++ ": `" ++ part ++
        "` has no SMT-LIB translation, chunk skipped"))
    | .ok e =>
      let name := s.interface.identifier id ++ "_" ++ toString k
      .ok ⟨⟨id, k⟩, "(assert (! " ++ e.print ++ " :named " ++ name ++ "))", s.notes 0 body⟩

/-- The types that declarations and notes tell, before they are resolved. -/
def collectTypes (i : Interface) (notes : List Note) : TypeTable :=
  let declared := i.signals.values.foldl (fun t x ↦ t.declare (i.identifier x.name)) .empty
  notes.foldl (fun t n ↦ t.register n.1 n.2) declared

def datatypeLine (s : Scope) (e : Enumeration) : String :=
  let constructors := e.literals.map fun l ↦
    "(" ++ (s.literals.get? (e.name, l)).getD l ++ ")"
  "(declare-datatypes ((" ++ s.interface.identifier e.name ++ " 0)) ((" ++
    " ".intercalate constructors ++ ")))"

def sortName (i : Interface) : SmtType → String
  | .bool => "Bool"
  | .real => "Real"
  | .enumeration e => i.identifier e
  | .int | .sameAs _ | .unknown => "Int"

def constantLine (i : Interface) (entry : String × SmtType) : String :=
  "(declare-const " ++ entry.1 ++ " " ++ sortName i entry.2 ++ ")"

/-- The warning about constants whose types are not known. -/
def defaultWarning (names : List String) : List Diagnostic :=
  if names.isEmpty then []
  else [.warn none ("no type inferred for " ++ ", ".intercalate names ++ ", assuming Int")]

def block (assertions : List Assertion) (group : List ChunkRef) : List String :=
  group.filterMap fun ref ↦ (assertions.find? fun a ↦ a.ref = ref).map Assertion.text

/-- The script of all formal properties in the given groups, and the messages about them. -/
def build (s : Store) (i : Interface) (limit : UInt32) (groups : List (List ChunkRef)) :
    Script × List Diagnostic :=
  let scope : Scope := ⟨i, literalNames i⟩
  let results := s.formalProperties.flatMap fun (id, e) ↦
    e.numberedChunks.map fun (k, c) ↦ assertion scope limit id k c
  let assertions := results.filterMap fun
    | .ok a => some a
    | .error _ => none
  let skipped := results.filterMap fun
    | .ok _ => none
    | .error d => some d
  let (types, defaulted) := (collectTypes i (assertions.flatMap Assertion.notes)).resolve
  ({ datatypes := i.enums.values.map (datatypeLine scope)
     constants := types.types.entries.map (constantLine i)
     blocks := (groups.map (block assertions)).filter fun b ↦ !b.isEmpty
     types },
    skipped ++ defaultWarning defaulted)

def Script.lines (s : Script) : List String :=
  "(set-logic ALL)" :: s.datatypes ++ s.constants ++
    s.blocks.flatMap fun b ↦ "(push 1)" :: b ++ ["(check-sat)", "(pop 1)"]

def Script.text (s : Script) : String := String.join (s.lines.map (· ++ "\n"))

end TemporalRequirements.Smt

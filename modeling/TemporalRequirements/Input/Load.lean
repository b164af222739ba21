import TemporalRequirements.Input.Table
import TemporalRequirements.Input.Workspace
import TemporalRequirements.Interface.Basic
import TemporalRequirements.Store.Basic

/-!
# Loading tables

Signals, enumerations and requirements come as tables whose columns are found by name.  All records
of a table are read before any of them is understood.
-/

namespace TemporalRequirements.Input

inductive LoadError where
  | cannotOpen (path : String)
  | malformedRecord (path : String) (number : Nat)
  | unknownClass (path word name : String)
  | unknownKind (path word id : String)
  deriving DecidableEq, Repr

def LoadError.message : LoadError → String
  | .cannotOpen path => "failed to open " ++ path
  | .malformedRecord path number => path ++ ": malformed record " ++ toString number
  | .unknownClass path word name =>
    path ++ ": unknown interface class `" ++ word ++ "` of " ++ name
  | .unknownKind path word id => path ++ ": unknown kind `" ++ word ++ "` of " ++ id

/-- The records of a table as `read` takes them, numbered from `n`. -/
def readRecords {α : Type} (path : String) (t : Table) (read : List String → Option α) :
    Nat → List (List String) → Except LoadError (List α)
  | _, [] => .ok []
  | n, record :: rest =>
    match if t.isComplete record then read record else none with
    | none => .error (.malformedRecord path n)
    | some a => (readRecords path t read (n + 1) rest).map (a :: ·)

/-- The records of the table at a path.  What opens without being a file, such as a directory, is a
table without records. -/
def loadTable {α : Type} (w : Workspace) (path : String)
    (read : Table → List String → Option α) : Except LoadError (List α) :=
  if w.canOpen path then
    let t := Table.parse ((w.read? path).getD "")
    readRecords path t (read t) 1 t.records
  else .error (.cannotOpen path)

/-! ## Enumerations and signals -/

/-- The literals in one field, with bars between them. -/
def splitLiterals (field : String) : List String :=
  ((Text.splitOn ['|'] field.toList).map Text.trim).filterMap fun l ↦
    if l.isEmpty then none else some (String.ofList l)

def readEnumeration (t : Table) (record : List String) : Option Enumeration := do
  let name ← t.field? record "name"
  let literals ← t.field? record "literals"
  return ⟨name, splitLiterals literals⟩

def readSignal (t : Table) (record : List String) : Option (String × String × String) := do
  let name ← t.field? record "name"
  let word ← t.field? record "class"
  let type ← t.field? record "type"
  return (name, word, type)

def readRequirement (t : Table) (record : List String) : Option (String × String × String) := do
  let id ← t.field? record "id"
  let text ← t.field? record "formula"
  let word ← t.optionalField? record "kind"
  return (id, text, word)

/-- Declares the signals of records, up to the first with an unknown class. -/
def declareSignals (path : String) (i : Interface) :
    List (String × String × String) → Except LoadError Interface
  | [] => .ok i
  | (name, word, type) :: rest =>
    match InterfaceClass.parse word with
    | none => .error (.unknownClass path word name)
    | some c => declareSignals path (i.declare ⟨name, c, type⟩) rest

/-- The interface of the given tables.  Enumerations come first, so that signals can have them as
types. -/
def loadInterface (w : Workspace) (signals enums : Option String) :
    Except LoadError Interface := do
  let start ← match enums with
    | none => pure Interface.empty
    | some path => do
      let es ← loadTable w path readEnumeration
      pure (es.foldl Interface.declareEnum .empty)
  match signals with
  | none => pure start
  | some path => do
    let records ← loadTable w path readSignal
    declareSignals path start records

/-! ## Requirements -/

structure Requirement where
  id : String
  text : String
  kind : RequirementKind
  deriving DecidableEq, Repr

/-- The requirements of records, up to the first with an unknown kind. -/
def requirementsOf (path : String) :
    List (String × String × String) → Except LoadError (List Requirement)
  | [] => .ok []
  | (id, text, word) :: rest =>
    match RequirementKind.parse word with
    | none => .error (.unknownKind path word id)
    | some kind => (requirementsOf path rest).map (⟨id, text, kind⟩ :: ·)

def loadRequirements (w : Workspace) (path : String) : Except LoadError (List Requirement) := do
  let records ← loadTable w path readRequirement
  requirementsOf path records

end TemporalRequirements.Input

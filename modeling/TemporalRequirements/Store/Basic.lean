import TemporalRequirements.Decomposition

/-!
# The store of requirements

Requirements are kept under their identifiers in order of first insertion, each with its text, its
kind, how far it is formalized and its last decomposition.
-/

namespace TemporalRequirements

/-! ## Requirements and their status -/

inductive RequirementKind where
  | property
  /-- A deadlock check is formalized but neither grouped nor rendered. -/
  | deadlock
  deriving DecidableEq, Repr

namespace RequirementKind

def words : List (String × RequirementKind) :=
  [("", .property), ("property", .property), ("requirement", .property), ("deadlock", .deadlock)]

/-- The kind that a word names, whatever its case and the blanks around it. -/
def parse (text : String) : Option RequirementKind :=
  let word := Text.lowercase (Text.trim text.toList)
  (words.find? (fun entry ↦ entry.1.toList = word)).map Prod.snd

end RequirementKind

inductive Status where
  | pending
  | formal
  | error (reason : String)
  deriving DecidableEq, Repr

structure Entry where
  text : String
  kind : RequirementKind
  status : Status
  decomposition : Decomposition

namespace Entry

def isFormal (e : Entry) : Bool := e.status = .formal

def isFormalProperty (e : Entry) : Bool := e.isFormal && e.kind = .property

/-- The text shown for the requirement: its own, or the reason why it is not formal. -/
def shown (e : Entry) : String :=
  match e.status with
  | .error reason => "Error: " ++ reason
  | .pending | .formal => e.text

end Entry

/-! ## The store -/

/-- A property of a requirement, by its number. -/
structure ChunkRef where
  requirement : String
  index : Nat
  deriving DecidableEq, Repr

/-- The requirements in order of first insertion. -/
structure Store where
  entries : OrderedMap String Entry

namespace Store

/-- The store without requirements. -/
def empty : Store := ⟨.empty⟩

def get? (s : Store) (id : String) : Option Entry := s.entries.get? id

def ids (s : Store) : List String := s.entries.keys

/-- Adds a requirement or replaces the text of a known one, which keeps its decomposition.  Either
way it is pending. -/
def insert (s : Store) (id text : String) (kind : RequirementKind) : Store :=
  let decomposition := ((s.get? id).map Entry.decomposition).getD .empty
  ⟨s.entries.insert id ⟨text, kind, .pending, decomposition⟩⟩

def erase (s : Store) (id : String) : Store := ⟨s.entries.erase id⟩

def setStatus (s : Store) (id : String) (status : Status) : Store :=
  ⟨s.entries.modify id fun e ↦ { e with status }⟩

/-- Makes a requirement formal with the decomposition of `text`, and returns the warnings about it.
A blank text changes nothing. -/
def updateStructure (s : Store) (i : Interface) (id text : String) :
    Except FormalizeError (Store × List Diagnostic) :=
  match s.get? id with
  | none => .error (.unknownRequirement id)
  | some _ =>
    match decompose i id text with
    | .error e => .error e
    | .ok none => .ok (s, [])
    | .ok (some d) =>
      .ok (⟨s.entries.modify id fun e ↦ { e with status := .formal, decomposition := d }⟩,
        d.warnings id)

def formalProperties (s : Store) : List (String × Entry) :=
  s.entries.entries.filter fun e ↦ e.2.isFormalProperty

/-- Every property of every formal requirement that is to be checked. -/
def formalChunks (s : Store) : List ChunkRef :=
  s.formalProperties.flatMap fun (id, e) ↦
    (List.range e.decomposition.chunks.length).map fun k ↦ ⟨id, k⟩

def chunkTokens? (s : Store) (ref : ChunkRef) : Option (List String) :=
  (s.get? ref.requirement).bind fun e ↦ e.decomposition.chunkTokens[ref.index]?

end Store

end TemporalRequirements

import TemporalRequirements.Store.Grouping

/-!
# The formalization engine

The engine holds the store, the interface, its settings and the messages so far.  Formalizing a
requirement touches no other one: a failure marks it and leaves one message.
-/

namespace TemporalRequirements

structure EngineConfig where
  unrollLimit : UInt32
  /-- The counter of simulation steps that monitors read. -/
  stepVariable : String
  grouping : GroupingMode
  deriving DecidableEq, Repr

/-- The settings where none are chosen. -/
def EngineConfig.standard : EngineConfig := ⟨defaultUnrollLimit, "i", .independent⟩

structure Engine where
  store : Store
  interface : Interface
  config : EngineConfig
  diagnostics : List Diagnostic

namespace Engine

/-- An engine without requirements. -/
def start (interface : Interface) (config : EngineConfig) : Engine :=
  ⟨.empty, interface, config, []⟩

def add (e : Engine) (id text : String) (kind : RequirementKind) : Engine :=
  { e with store := e.store.insert id text kind }

def report (e : Engine) (d : Diagnostic) : Engine :=
  { e with diagnostics := e.diagnostics ++ [d] }

/-- Formalizes one requirement, and tells whether nothing failed. -/
def formalize (e : Engine) (id : String) : Engine × Bool :=
  match e.store.get? id with
  | none =>
    (e.report (.failure (some id) (FormalizeError.unknownRequirement id).message), false)
  | some entry =>
    match e.store.updateStructure e.interface id entry.text with
    | .ok (store, warnings) =>
      ({ e with store, diagnostics := e.diagnostics ++ warnings }, true)
    | .error cause =>
      let marked := { e with store := e.store.setStatus id (.error cause.message) }
      (marked.report (.failure (some id) cause.message), false)

/-- Formalizes the given requirements, and counts those where nothing failed. -/
def formalizeEach : Engine → List String → Engine × Nat
  | e, [] => (e, 0)
  | e, id :: rest =>
    let (e, ok) := e.formalize id
    let (e, count) := e.formalizeEach rest
    (e, count + if ok then 1 else 0)

def formalizeAll (e : Engine) : Engine × Nat := e.formalizeEach e.store.ids

def groups (e : Engine) : List (List ChunkRef) := e.store.groups e.config.grouping

end Engine

end TemporalRequirements

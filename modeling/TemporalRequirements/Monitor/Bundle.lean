import TemporalRequirements.Monitor.Synthesis

/-!
# Bundles of monitor lines

A bundle holds the lines of monitors by where they go: declarations, updates of counters, and
assertions.  Within a section a line is kept once, at its first place.
-/

namespace TemporalRequirements

inductive Section where
  | declarations
  | counters
  | asserts
  deriving DecidableEq, Repr

structure Bundle where
  declarations : List String
  counters : List String
  asserts : List String
  deriving DecidableEq, Repr

namespace Bundle

/-- The bundle without lines. -/
def empty : Bundle := ⟨[], [], []⟩

def lines (b : Bundle) : Section → List String
  | .declarations => b.declarations
  | .counters => b.counters
  | .asserts => b.asserts

def ofLines (declarations counters asserts : List String) : Bundle :=
  ⟨declarations.eraseDups, counters.eraseDups, asserts.eraseDups⟩

/-- The lines of two bundles, those of the first before those of the second. -/
def merge (a b : Bundle) : Bundle :=
  ofLines (a.declarations ++ b.declarations) (a.counters ++ b.counters) (a.asserts ++ b.asserts)

/-- The lines of bundles, those of earlier ones first. -/
def concat (bs : List Bundle) : Bundle :=
  ofLines (bs.flatMap declarations) (bs.flatMap counters) (bs.flatMap asserts)

def add (b : Bundle) (place : Section) (line : String) : Bundle :=
  match place with
  | .declarations => b.merge ⟨[line], [], []⟩
  | .counters => b.merge ⟨[], [line], []⟩
  | .asserts => b.merge ⟨[], [], [line]⟩

/-- Whether no section has a line. -/
def isEmpty (b : Bundle) : Bool :=
  b.declarations.isEmpty && b.counters.isEmpty && b.asserts.isEmpty

end Bundle

namespace Monitor

def bundle (m : Monitor) : Bundle :=
  .ofLines (m.declarations.map Declaration.text) (m.updates.map Statement.text)
    (m.checks.map Statement.text)

/-- The name after which the variables of a property are named. -/
def chunkName (i : Interface) (id : String) (k : Nat) : String :=
  i.identifier id ++ "_" ++ toString k

def errorComment (name : String) (e : MonitorError) : String :=
  "/* Error: " ++ name ++ ": " ++
    String.ofList (Text.replaceAll "*/".toList "* /".toList e.message.toList) ++ " */"

/-- The lines of a property, and the message about one without a monitor. -/
def chunkBundle (i : Interface) (step id : String) (k : Nat) (c : Chunk) :
    Bundle × List Diagnostic :=
  let name := chunkName i id k
  match ofChunk i name step c with
  | .ok m => (m.bundle, [])
  | .error e =>
    (⟨[], [], [errorComment name e]⟩,
      [.warn (some id) ("chunk " ++ toString k ++ ": " ++ e.message)])

/-- The lines of all formal properties, and the messages about them. -/
def render (s : Store) (i : Interface) (step : String) : Bundle × List Diagnostic :=
  let parts := s.formalProperties.flatMap fun (id, e) ↦
    e.numberedChunks.map fun (k, c) ↦ chunkBundle i step id k c
  (.concat (parts.map Prod.fst), parts.flatMap Prod.snd)

end Monitor

end TemporalRequirements

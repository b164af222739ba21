import TemporalRequirements.ModelChecker.Basic

/-!
# Properties for DIVINE

For every requirement one `#define` line per proposition, named by its symbol, and then one
`#property` line per property over those names.
-/

namespace TemporalRequirements.Divine

def propositionName (name symbol : String) : String := name ++ "_" ++ symbol

def defineLine (i : Interface) (name : String) (entry : String × Atom) : String :=
  "#define " ++ propositionName name entry.1 ++ " (" ++
    entry.2.predicate.print (.program i) ++ ")"

def atomText (i : Interface) (name : String) (d : Decomposition) (a : Atom) : String :=
  match d.symbolFor? a.text with
  | some symbol => propositionName name symbol
  | none => a.predicate.print (.program i)

/-- The line of a property, and the message about it. -/
def chunkLine (i : Interface) (limit : UInt32) (id : String) (d : Decomposition) (k : Nat)
    (c : Chunk) : String × List Diagnostic :=
  match c.unrolled limit with
  | .error e => ("// #property " ++ e.marker, [reportMarker id k e.marker])
  | .ok f =>
    match f.render .divine (atomText i (i.identifier id) d) with
    -- The report of a formula that a notation cannot write is the reason alone.
    | .error e => ("// #property " ++ e.marker, [reportMarker id k e.message])
    | .ok text => ("#property " ++ text, [])

/-- The lines of one requirement, and the messages about them. -/
def entryLines (i : Interface) (limit : UInt32) (id : String) (e : Entry) :
    List String × List Diagnostic :=
  let defines := e.decomposition.atomsBySymbol.map (defineLine i (i.identifier id))
  let lines := e.numberedChunks.map fun (k, c) ↦ chunkLine i limit id e.decomposition k c
  (defines ++ lines.map Prod.fst, lines.flatMap Prod.snd)

/-- The lines of all formal properties, and the messages about them. -/
def render (s : Store) (i : Interface) (limit : UInt32) : List String × List Diagnostic :=
  let parts := s.formalProperties.map fun (id, e) ↦ entryLines i limit id e
  (parts.flatMap Prod.fst, parts.flatMap Prod.snd)

end TemporalRequirements.Divine

import TemporalRequirements.ModelChecker.Basic

/-!
# Specifications for SMV

One `LTLSPEC` line per property.  Signals of the plant are read at its outputs, and the integers
beside a word-typed signal are literals of its width and sign.
-/

namespace TemporalRequirements.Smv

/-- The width of a word whose declaration does not fix one. -/
def defaultWordWidth : Nat := 32

/-- The distinct types of the signals in a predicate, in order of use. -/
def signalTypes (i : Interface) (p : Predicate) : List DataType :=
  (p.variables.filterMap i.dataType?).eraseDups

/-- What is written before integers beside signals of these types: the sign and width of the first
word among them. -/
def literalStart? (types : List DataType) : Option String :=
  types.findSome? fun
    | .integer signed width =>
      some ("0" ++ (if signed then "s" else "u") ++ "d" ++
        toString (width.getD defaultWordWidth) ++ "_")
    | _ => none

/-- The style of SMV expressions, with `literalStart` before integers. -/
def style (i : Interface) (literalStart : Option String) : Style where
  variableName name :=
    match i.signal? name with
    | some s =>
      if s.interfaceClass.isPlant then i.identifier name ++ ".out" else i.identifier name
    | none => name
  number text :=
    match literalStart with
    | some start => if text.toList.all Char.isDigit then start ++ text else text
    | none => text
  truth := Dialect.smv.truth
  relation
    | .eq => "="
    | op => op.symbol

def atomText (i : Interface) (a : Atom) : String :=
  a.predicate.print (style i (literalStart? (signalTypes i a.predicate)))

def mixedAtoms (i : Interface) (f : Formula) : List String :=
  (f.atoms.filter fun a ↦ 1 < (signalTypes i a.predicate).length).map Atom.text

structure Line where
  text : String
  mixed : List String
  diagnostics : List Diagnostic

/-- A comment line in place of a property, and what is reported about it. -/
def markerLine (id name : String) (k : Nat) (marker report : String) (mixed : List String) : Line :=
  ⟨"-- LTLSPEC NAME " ++ name ++ "_" ++ toString k ++ " := " ++ marker, mixed,
    [reportMarker id k report]⟩

def chunkLine (i : Interface) (limit : UInt32) (id : String) (k : Nat) (c : Chunk) : Line :=
  let name := i.identifier id
  match c.unrolled limit with
  | .error e => markerLine id name k e.marker e.marker []
  | .ok f =>
    match f.render .smv (atomText i) with
    -- The report of a formula that a notation cannot write is the reason alone.
    | .error e => markerLine id name k e.marker e.message (mixedAtoms i f)
    | .ok text =>
      ⟨"LTLSPEC NAME " ++ name ++ "_" ++ toString k ++ " := " ++ text ++ ";", mixedAtoms i f, []⟩

def mixedWarning (mixed : List String) : List Diagnostic :=
  if mixed.isEmpty then []
  else
    [.warn none ("propositions mix signal types, using the first type: " ++
      "; ".intercalate mixed)]

/-- The specification lines of all formal properties, and the messages about them. -/
def render (s : Store) (i : Interface) (limit : UInt32) : List String × List Diagnostic :=
  let lines := s.formalProperties.flatMap fun (id, e) ↦
    e.numberedChunks.map fun (k, c) ↦ chunkLine i limit id k c
  (lines.map Line.text,
    lines.flatMap Line.diagnostics ++ mixedWarning (lines.flatMap Line.mixed).eraseDups)

end TemporalRequirements.Smv

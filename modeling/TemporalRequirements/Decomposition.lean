import TemporalRequirements.Chunk
import TemporalRequirements.Diagnostic
import TemporalRequirements.Proposition.Normal
import TemporalRequirements.Proposition.Symbol

/-!
# Decomposition of a requirement

A requirement is decomposed into its properties and the table of its propositions, each under a
symbol.  Propositions are kept clean: balanced, and without parentheses around the whole.  The
structure is the text of the properties with symbols in place of propositions, and `reconstruct`
puts the propositions back.
-/

namespace TemporalRequirements

/-- The properties and propositions of one requirement. -/
structure Decomposition where
  chunks : List Chunk
  /-- The text of the proposition under each symbol, the longest first. -/
  propositions : OrderedMap String String
  /-- The normal form of each proposition. -/
  normalized : OrderedMap String String
  /-- The dependency tokens of each property. -/
  chunkTokens : List (List String)

/-- Why a requirement is not formal. -/
inductive FormalizeError where
  | unknownRequirement (id : String)
  | parse (id : String) (chunk : Nat) (cause : ParseError)
  deriving DecidableEq, Repr

def FormalizeError.message : FormalizeError → String
  | .unknownRequirement id => "unknown requirement `" ++ id ++ "`"
  | .parse id chunk cause => id ++ ": chunk " ++ toString chunk ++ ": " ++ cause.message

/-- A proposition as it is kept: balanced, and without parentheses around the whole.  One that
cannot be balanced is kept as far as the balancing went. -/
def cleanProposition (text : String) : String :=
  let balanced :=
    match balance text with
    | .ok s => s
    | .error e => e.remainder
  String.ofList (Text.unwrap balanced.toList)

def balanceWarning? (id text : String) : Option Diagnostic :=
  match balance text with
  | .ok _ => none
  | .error e => some (.warn (some id) e.message)

namespace Decomposition

/-! ## Symbols and tokens -/

def empty : Decomposition := ⟨[], .empty, .empty, []⟩

instance : Inhabited Decomposition := ⟨empty⟩

def symbolFor? (d : Decomposition) (text : String) : Option String :=
  (d.propositions.entries.find? (fun e ↦ e.2 = text)).map Prod.fst

/-- The symbol of an atom, whose proposition is kept clean. -/
def symbolOf? (d : Decomposition) (a : Atom) : Option String :=
  d.symbolFor? (cleanProposition a.text)

/-- The symbols of the propositions of a formula, in order of first use. -/
def symbolsOf (d : Decomposition) (f : Formula) : List String :=
  (f.atoms.filterMap d.symbolOf?).eraseDups

def chunkSymbols (d : Decomposition) : List (List String) :=
  d.chunks.map fun c ↦ d.symbolsOf c.formula

/-- The text of a property with symbols in place of propositions. -/
def chunkStructure (d : Decomposition) (c : Chunk) : String :=
  tagged c.tag (c.formula.printWith .canonical (fun a ↦ (d.symbolOf? a).getD a.text) false)

/-- The text of the requirement with symbols in place of propositions. -/
def structureText (d : Decomposition) : String :=
  chunkSeparator.intercalate (d.chunks.map d.chunkStructure)

def atoms (d : Decomposition) : List Atom := d.chunks.flatMap fun c ↦ c.formula.atoms

def atomsBySymbol (d : Decomposition) : List (String × Atom) :=
  d.propositions.entries.filterMap fun e ↦
    (d.atoms.find? (fun a ↦ a.text = e.2)).map fun a ↦ (e.1, a)

/-- The dependency tokens of a formula, from the normal forms of its propositions. -/
def tokensOf (d : Decomposition) (isLiteral : String → Bool) (f : Formula) : List String :=
  ((d.symbolsOf f).flatMap fun s ↦
    ((d.normalized.get? s).map (dependencyTokens isLiteral)).getD []).eraseDups

/-- The warnings about the propositions, one for each text that cannot be balanced. -/
def warnings (id : String) (d : Decomposition) : List Diagnostic :=
  (d.atoms.map Atom.text).eraseDups.filterMap (balanceWarning? id)

def propositionTexts (chunks : List Chunk) : List String :=
  ((chunks.flatMap fun c ↦ c.formula.atoms).map fun a ↦ cleanProposition a.text).filter (· ≠ "")

def ofChunks (i : Interface) (chunks : List Chunk) : Decomposition :=
  let propositions := assignSymbols (propositionTexts chunks)
  let normalized := propositions.mapValues fun _ text ↦ normalizeProposition i text
  let table : Decomposition := ⟨chunks, propositions, normalized, []⟩
  { table with chunkTokens := chunks.map fun c ↦ table.tokensOf i.isLiteral c.formula }

end Decomposition

/-! ## Decomposing and putting together -/

/-- The properties with these texts, numbered from `first`. -/
def readChunks (id : String) : Nat → List String → Except FormalizeError (List Chunk)
  | _, [] => .ok []
  | n, text :: rest =>
    match Chunk.parse text with
    | .error cause => .error (.parse id n cause)
    | .ok chunk => (readChunks id (n + 1) rest).map (chunk :: ·)

/-- The decomposition of a requirement's text; a blank text has none. -/
def decompose (i : Interface) (id text : String) :
    Except FormalizeError (Option Decomposition) :=
  if Text.isBlankText text then .ok none
  else (readChunks id 0 (splitChunks text)).map fun chunks ↦ some (.ofChunks i chunks)

/-- Why a requirement has no decomposition, where all checks are made. -/
inductive DecomposeError where
  | reading (cause : FormalizeError)
  | crossFormula (id proposition : String)
  | rendering (cause : UnexpandedBound)

def DecomposeError.message : DecomposeError → String
  | reading cause => cause.message
  | crossFormula id proposition =>
    id ++ ": proposition `" ++ proposition ++ "` spans two LTL properties"
  | rendering cause => "cannot render structure: " ++ cause.message

/-- Cleans the texts of atoms in order, up to a clean one that reaches into another property.
Returns the warnings as well. -/
def cleanTexts (id : String) :
    List String → List Diagnostic × Except DecomposeError (List String)
  | [] => ([], .ok [])
  | text :: rest =>
    let warning := (balanceWarning? id text).toList
    let clean := cleanProposition text
    if (Text.breakOn chunkSeparator.toList clean.toList).isSome then
      (warning, .error (.crossFormula id clean))
    else
      let (warnings, cleaned) := cleanTexts id rest
      (warning ++ warnings, cleaned.map (clean :: ·))

/-- The text of a property with symbols in place of propositions, if it can be rendered. -/
def Decomposition.renderChunk (d : Decomposition) (c : Chunk) : Except DecomposeError String :=
  match c.formula.render .canonical fun a ↦ (d.symbolOf? a).getD a.text with
  | .ok body => .ok (tagged c.tag body)
  | .error e => .error (.rendering e)

/-- The decomposition of a requirement's text and its structure, with all checks on the way, and the
warnings.  `decompose` is this without the checks, which find nothing in properties that were
read. -/
def decomposeChecked (i : Interface) (id text : String) :
    List Diagnostic × Except DecomposeError (Option (Decomposition × String)) :=
  if Text.isBlankText text then ([], .ok none)
  else
    match readChunks id 0 (splitChunks text) with
    | .error e => ([], .error (.reading e))
    | .ok chunks =>
      let d := Decomposition.ofChunks i chunks
      let (warnings, cleaned) := cleanTexts id (d.atoms.map Atom.text).eraseDups
      (warnings, do
        let _ ← cleaned
        let rendered ← chunks.mapM d.renderChunk
        return some (d, chunkSeparator.intercalate rendered))

/-- The text of a structure with propositions in place of their symbols, in parentheses unless they
are bare names or numbers.  A name that is no symbol stays. -/
def reconstruct (propositions : OrderedMap String String) (text : String) : String :=
  String.ofList <| (Text.namePieces text.toList).flatMap fun piece ↦
    match piece with
    | .other c => [c]
    | .name letters =>
      let name := String.ofList letters
      match if isSymbol name then propositions.get? name else none with
      | some proposition =>
        (parenthesizedIf (!Text.isSimple proposition.toList) proposition).toList
      | none => letters

end TemporalRequirements

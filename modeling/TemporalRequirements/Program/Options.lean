import TemporalRequirements.Diagnostic
import TemporalRequirements.Engine
import TemporalRequirements.Input.Workspace

/-!
# Options of the command line

Arguments are taken from left to right.  An option's value follows it, attached or as the next
argument, and is judged when the next option comes or the arguments end; so an earlier mistake
counts before a later request for help.  No option may be given twice.
-/

namespace TemporalRequirements.Program

inductive Opt where
  | requirements
  | signals
  | enums
  | outDir
  | cFile
  | singleGroup
  | maxUnroll
  | stepVar
  | debug
  | debugLevel
  | help
  | version
  deriving DecidableEq, Repr

namespace Opt

def longNames : List (String × Opt) :=
  [("requirements", requirements), ("signals", signals), ("enums", enums), ("out-dir", outDir),
    ("c-file", cFile), ("single-group", singleGroup), ("max-unroll", maxUnroll),
    ("step-var", stepVar), ("debug", debug), ("debug-level", debugLevel), ("help", help),
    ("version", version)]

def letters : List (Char × Opt) :=
  [('r', requirements), ('s', signals), ('e', enums), ('o', outDir), ('c', cFile), ('d', debug),
    ('h', help), ('V', version)]

def takesValue : Opt → Bool
  | singleGroup | debug | help | version => false
  | requirements | signals | enums | outDir | cFile | maxUnroll | stepVar | debugLevel => true

end Opt

def integer? (text : String) : Option Int :=
  let natural (digits : List Char) : Option Nat :=
    if !digits.isEmpty && digits.all Char.isDigit then some (Text.decimalValue digits) else none
  match text.toList with
  | '-' :: digits => (natural digits).map fun n ↦ -(n : Int)
  | '+' :: digits => (natural digits).map fun n ↦ (n : Int)
  | digits => (natural digits).map fun n ↦ (n : Int)

def bound? (text : String) : Option UInt32 := do
  let n ← integer? text
  if 0 ≤ n && n < 4294967296 then some n.toNat.toUInt32 else none

def level? (text : String) : Option Int := do
  let n ← integer? text
  if -2147483648 ≤ n && n < 2147483648 then some n else none

def Opt.accepts (o : Opt) (value : String) : Bool :=
  match o with
  | requirements | signals | enums | outDir | cFile => value != ""
  | maxUnroll => (bound? value).isSome
  | debugLevel => (level? value).isSome
  | stepVar => true
  | singleGroup | debug | help | version => false

/-! ## Taking arguments -/

/-- Why the arguments do not lead to a run. -/
inductive UsageStop where
  /-- The arguments are wrong. -/
  | mistake
  | help
  | version
  deriving DecidableEq, Repr

def UsageStop.exitCode : UsageStop → Nat
  | mistake => 2
  | help | version => 0

/-- The options given so far with their values, and the last one while it is not judged. -/
structure Given where
  settled : List (Opt × String)
  pending : Option (Opt × Option String)

namespace Given

def none : Given := ⟨[], Option.none⟩

def value? (g : Given) (o : Opt) : Option String :=
  (g.settled.find? fun e ↦ e.1 = o).map Prod.snd

/-- Adds an option that is not there yet. -/
def settle (g : Given) (o : Opt) (value : String) : Except UsageStop Given :=
  if (g.value? o).isSome then .error .mistake else .ok { g with settled := g.settled ++ [(o, value)] }

def judge (g : Given) : Except UsageStop Given :=
  match g.pending with
  | .none => .ok g
  | some (_, .none) => .error .mistake
  | some (o, some value) =>
    if o.accepts value then ({ g with pending := .none } : Given).settle o value
    else .error .mistake

/-- Takes an option without a value. -/
def flag (g : Given) (o : Opt) : Except UsageStop Given := do
  let g ← g.judge
  match o with
  | .help => throw .help
  | .version => throw .version
  | o => g.settle o ""

/-- Takes an option whose value is attached or still to come. -/
def withValue (g : Given) (o : Opt) (value : Option String) : Except UsageStop Given := do
  let g ← g.judge
  return { g with pending := some (o, value) }

/-- Takes an argument that starts with two dashes. -/
def long (g : Given) (s : List Char) : Except UsageStop Given :=
  let (name, value) := match Text.breakOn ['='] s with
    | some (name, value) => (name, some (String.ofList value))
    | .none => (s, Option.none)
  match Opt.longNames.find? fun e ↦ e.1.toList = name with
  | .none => .error .mistake
  | some (_, o) =>
    if o.takesValue then g.withValue o value
    else if value.isSome then .error .mistake
    else g.flag o

/-- Takes the letters after one dash; one with a value has the rest attached. -/
def short (g : Given) : List Char → Except UsageStop Given
  | [] => .ok g
  | c :: rest =>
    match Opt.letters.find? fun e ↦ e.1 = c with
    | .none => .error .mistake
    | some (_, o) =>
      if o.takesValue then
        match rest with
        | [] => g.withValue o .none
        | '=' :: value => g.withValue o (some (String.ofList value))
        | value => g.withValue o (some (String.ofList value))
      else do
        let g ← g.flag o
        g.short rest

/-- Takes an argument that is no option: a value that is waited for. -/
def plain (g : Given) (value : String) : Except UsageStop Given :=
  match g.pending with
  | some (o, .none) => .ok { g with pending := some (o, some value) }
  | _ => .error .mistake

/-- Takes all arguments.  After two dashes alone no argument may follow. -/
def takeAll (g : Given) : List String → Except UsageStop Given
  | [] => g.judge
  | argument :: rest =>
    match argument.toList with
    | ['-', '-'] => if rest.isEmpty then g.judge else .error .mistake
    | '-' :: '-' :: name => do (← g.long name).takeAll rest
    | '-' :: c :: letters => do (← g.short (c :: letters)).takeAll rest
    | _ => do (← g.plain argument).takeAll rest

end Given

/-! ## Options of a run -/

structure Options where
  requirements : String
  signals : Option String
  enums : Option String
  outDir : String
  cFile : Option String
  singleGroup : Bool
  maxUnroll : UInt32
  stepVar : String
  debug : Bool
  debugLevel : Int
  deriving DecidableEq, Repr

namespace Options

/-- The directory written to where none is chosen. -/
def defaultOutDir : String := "out"

/-- The number of the least severity shown where none is chosen. -/
def defaultDebugLevel : Int := 3

def parse (arguments : List String) : Except UsageStop Options := do
  let given ← Given.none.takeAll arguments
  match given.value? .requirements with
  | none => throw .mistake
  | some requirements =>
    return {
      requirements
      signals := given.value? .signals
      enums := given.value? .enums
      outDir := (given.value? .outDir).getD defaultOutDir
      cFile := given.value? .cFile
      singleGroup := (given.value? .singleGroup).isSome
      maxUnroll := ((given.value? .maxUnroll).bind bound?).getD defaultUnrollLimit
      stepVar := (given.value? .stepVar).getD EngineConfig.standard.stepVariable
      debug := (given.value? .debug).isSome
      debugLevel := ((given.value? .debugLevel).bind level?).getD defaultDebugLevel }

/-- Why options make no sense. -/
inductive Invalid where
  | debugLevel (n : Int)
  | maxUnroll
  | stepVar (name : String)
  | cFile (path : String)
  deriving DecidableEq, Repr

def Invalid.message : Invalid → String
  | debugLevel n => "--debug-level must be between 1 and 5, got " ++ toString n
  | maxUnroll => "--max-unroll must be positive"
  | stepVar name => "--step-var `" ++ name ++ "` is not a C identifier"
  | cFile path => "--c-file " ++ path ++ " does not exist"

/-- The first fault of options, where `isFile` tells the files that exist. -/
def fault? (isFile : String → Bool) (o : Options) : Option Invalid :=
  if (Severity.ofNumber? o.debugLevel).isNone then some (.debugLevel o.debugLevel)
  else if o.maxUnroll = 0 then some .maxUnroll
  else if safeName o.stepVar != o.stepVar then some (.stepVar o.stepVar)
  else
    match o.cFile with
    | some path => if isFile path then none else some (.cFile path)
    | none => none

/-- The severity from which messages are shown. -/
def severity (o : Options) : Severity := (Severity.ofNumber? o.debugLevel).getD .warning

def grouping (o : Options) : GroupingMode :=
  if o.singleGroup then .correctnessCheck else .independent

def config (o : Options) : EngineConfig := ⟨o.maxUnroll, o.stepVar, o.grouping⟩

end Options

end TemporalRequirements.Program

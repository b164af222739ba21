import TemporalRequirements.Program.Options

/-!
# What the program says about itself

The usage text lists every option with its letter, its value and what it is for, in two columns.
-/

namespace TemporalRequirements.Program

def programName : String := "ltl-formalizer"

def programVersion : String := "0.1.0"

namespace Opt

def purpose : Opt → String
  | requirements => "Requirements table (`id,formula[,kind]`)"
  | signals => "Signal table (`name,class,type`)"
  | enums => "Enumeration table (`name,literals`, literals separated by `|`)"
  | outDir => "Directory receiving the generated artifacts [default: " ++ Options.defaultOutDir ++ "]"
  | cFile => "C source whose generated blocks receive the asserts"
  | singleGroup => "Check every property in one group (a system model is present)"
  | maxUnroll =>
    "Largest bound a bounded operator may be unrolled to [default: " ++
      toString defaultUnrollLimit.toNat ++ "]"
  | stepVar =>
    "Simulation step counter used by the C asserts [default: " ++
      EngineConfig.standard.stepVariable ++ "]"
  | debug => "Print progress messages"
  | debugLevel =>
    "Minimum level of progress messages (1 = completion .. 5 = fatal) [default: " ++
      toString Options.defaultDebugLevel ++ "]"
  | help => "Print help"
  | version => "Print version"

def letterColumn (o : Opt) : String :=
  match letters.find? fun e ↦ e.2 = o with
  | some (c, _) => "-" ++ c.toString ++ ", "
  | none => "    "

def valueWord (longName : String) : String :=
  String.ofList (longName.toList.map fun c ↦ if c = '-' then '_' else c.toUpper)

def spell (longName : String) (o : Opt) : String :=
  o.letterColumn ++ "--" ++ longName ++
    if o.takesValue then " <" ++ valueWord longName ++ ">" else ""

/-- Every option as it is written, with what it is for. -/
def rows : List (String × String) := longNames.map fun (name, o) ↦ (spell name o, o.purpose)

end Opt

def padded (width : Nat) (text : String) : String :=
  text ++ String.ofList (List.replicate (width - text.length) ' ')

def optionLines : List String :=
  let width := (Opt.rows.map fun row ↦ row.1.length).foldl max 0
  Opt.rows.map fun (written, purpose) ↦ "  " ++ padded width written ++ "  " ++ purpose

def usageLines : List String :=
  ["Formalizes LTL/MTL requirements and renders them for model checkers, SMT solvers and " ++
      "simulation asserts", "",
    "Usage: " ++ programName ++ " [OPTIONS] --requirements <REQUIREMENTS>", "", "Options:"] ++
    optionLines

/-- What is written where the arguments do not lead to a run. -/
def UsageStop.lines : UsageStop → List String
  | mistake => []
  | help => usageLines
  | version => [programName ++ " " ++ programVersion]

end TemporalRequirements.Program

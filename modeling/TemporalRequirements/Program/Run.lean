import TemporalRequirements.Input.Load
import TemporalRequirements.ModelChecker.Divine
import TemporalRequirements.ModelChecker.Smv
import TemporalRequirements.Monitor.Splice
import TemporalRequirements.Program.Usage
import TemporalRequirements.Smt.Script
import TemporalRequirements.Store.Report

/-!
# A run of the program

A run loads the tables, formalizes the requirements and writes what was generated from them.  It
is a function of the arguments and the files: its outcome is an exit code, the lines of both output
streams and the files afterwards.  A failure leaves the files written before it.
-/

namespace TemporalRequirements.Program

structure Outcome where
  exitCode : Nat
  output : List String
  errors : List String
  workspace : Input.Workspace

/-- A run in progress: the files, and the lines written so far. -/
structure Session where
  workspace : Input.Workspace
  output : List String
  errors : List String

namespace Session

def finish (s : Session) (exitCode : Nat) : Outcome := ⟨exitCode, s.output, s.errors, s.workspace⟩

def fail (s : Session) (message : String) : Outcome :=
  { s with errors := s.errors ++ ["Error: " ++ message] }.finish 1

/-- Writes a message: a grave one to the errors, and others to the output if they are wanted. -/
def log (s : Session) (o : Options) (severity : Severity) (message : String) : Session :=
  let line := severity.label ++ message
  if Severity.warning.rank < severity.rank then { s with errors := s.errors ++ [line] }
  else if o.severity.rank ≤ severity.rank && o.debug then { s with output := s.output ++ [line] }
  else s

/-- Writes a diagnostic; warnings are always shown. -/
def report (s : Session) (o : Options) (d : Diagnostic) : Session :=
  if d.isWarning then { s with errors := s.errors ++ [d.severity.label ++ d.print] }
  else s.log o d.severity d.print

end Session

/-! ## Artifacts and reports -/

def fileText (lines : List String) : String := "\n".intercalate lines ++ "\n"

def inDirectory (directory name : String) : String :=
  if directory.toList.getLast? = some '/' then directory ++ name else directory ++ "/" ++ name

/-- What is generated from an engine: files of the output directory, lines of monitors, and the
messages of all stages in order. -/
structure Artifacts where
  files : List (String × String)
  monitors : Bundle
  diagnostics : List Diagnostic

def Artifacts.of (e : Engine) : Artifacts :=
  let limit := e.config.unrollLimit
  let groups := e.groups
  let (smv, smvMessages) := Smv.render e.store e.interface limit
  let (divine, divineMessages) := Divine.render e.store e.interface limit
  let (smt, smtMessages) := Smt.build e.store e.interface limit groups
  let (monitors, monitorMessages) := Monitor.render e.store e.interface e.config.stepVariable
  { files :=
      [("requirements.smv", fileText smv), ("requirements.ltl", fileText divine),
        ("requirements.smt2", smt.text), ("structure.txt", fileText e.store.structureReport),
        ("groups.txt", fileText (groupReport groups))]
    monitors
    diagnostics :=
      e.diagnostics ++ smvMessages ++ divineMessages ++ smtMessages ++ monitorMessages }

/-- Writes files of a directory one after the other; the path of one that cannot be written is
returned with the files written before it. -/
def writeAll (directory : String) : Input.Workspace → List (String × String) →
    Input.Workspace × Option String
  | w, [] => (w, none)
  | w, (name, contents) :: rest =>
    let path := inDirectory directory name
    match w.write path contents with
    | none => (w, some path)
    | some w => writeAll directory w rest

def cannotWrite (path : String) : String := "failed to write " ++ path

/-- Writes the monitors, into the chosen program or into one of their own. -/
def writeMonitors (o : Options) (b : Bundle) (w : Input.Workspace) :
    Except String Input.Workspace :=
  let written (path contents : String) :=
    match w.write path contents with
    | some w => .ok w
    | none => .error (cannotWrite path)
  match o.cFile with
  | some path =>
    match w.read? path with
    | none => .error ("failed to read " ++ path)
    | some program =>
      match Splice.splice b program with
      | .error _ => .error ("cannot splice asserts into " ++ path)
      | .ok spliced => written path spliced
  | none =>
    match Splice.standalone o.stepVar b with
    | .error e => .error e.message
    | .ok program => written (inDirectory o.outDir "asserts.c") program

/-- Reports all messages, and a failure if there are requirements but none is formal. -/
def conclude (o : Options) (a : Artifacts) (formal loaded : Nat) (s : Session) : Outcome :=
  let s := a.diagnostics.foldl (fun s d ↦ s.report o d) s
  if formal = 0 && loaded != 0 then
    (s.log o .fatal "no requirement could be formalized").finish 1
  else (s.log o .completion ("artifacts written to " ++ o.outDir)).finish 0

def writeArtifacts (o : Options) (a : Artifacts) (formal loaded : Nat) (s : Session) : Outcome :=
  match s.workspace.makeDirectory o.outDir with
  | none => s.fail ("failed to create " ++ o.outDir)
  | some w =>
    match writeAll o.outDir w a.files with
    | (w, some path) => { s with workspace := w }.fail (cannotWrite path)
    | (w, none) =>
      match writeMonitors o a.monitors w with
      | .error message => { s with workspace := w }.fail message
      | .ok w => conclude o a formal loaded { s with workspace := w }

def formalize (o : Options) (i : Interface) (loaded : List Input.Requirement) (s : Session) :
    Outcome :=
  let s := s.log o .info ("read " ++ toString loaded.length ++ " requirement(s)")
  let engine := loaded.foldl (fun e r ↦ e.add r.id r.text r.kind) (Engine.start i o.config)
  let (engine, formal) := engine.formalizeAll
  let s := s.log o .info
    (toString formal ++ " of " ++ toString loaded.length ++ " requirement(s) formalized")
  writeArtifacts o (.of engine) formal loaded.length s

/-! ## Whole runs -/

def runWith (o : Options) (w : Input.Workspace) : Outcome :=
  let s : Session := ⟨w, [], []⟩
  match o.fault? w.isFile with
  | some fault => s.fail fault.message
  | none =>
    match Input.loadInterface w o.signals o.enums with
    | .error e => s.fail e.message
    | .ok i =>
      match Input.loadRequirements w o.requirements with
      | .error e => s.fail e.message
      | .ok loaded => formalize o i loaded s

/-- A run with the arguments after the name of the program. -/
def run (arguments : List String) (w : Input.Workspace) : Outcome :=
  match Options.parse arguments with
  | .error stop => ⟨stop.exitCode, stop.lines, [], w⟩
  | .ok o => runWith o w

end TemporalRequirements.Program

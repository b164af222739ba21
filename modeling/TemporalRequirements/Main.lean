import TemporalRequirements.Program.Run

/-!
# The program

Reads the files that the options name, runs on them, and writes what changed.
-/

namespace TemporalRequirements.Program

def namedPaths (o : Options) : List String :=
  [o.requirements, o.outDir] ++ o.signals.toList ++ o.enums.toList ++ o.cFile.toList

/-- The workspace with what a handle on a path gives: what cannot be read is a directory. -/
def readOpened (w : Input.Workspace) (path : String) (handle : IO.FS.Handle) :
    IO Input.Workspace := do
  try
    let contents ← handle.readToEnd
    return w.put (path, contents)
  catch _ => return w.putDirectories (Input.Workspace.names path)

def readPath (w : Input.Workspace) (path : String) : IO Input.Workspace := do
  try
    let handle ← IO.FS.Handle.mk path .read
    readOpened w path handle
  catch _ => return w

def readNamed (arguments : List String) : IO Input.Workspace :=
  match Options.parse arguments with
  | .ok o => (namedPaths o).foldlM readPath .empty
  | .error _ => return .empty

def writeChanges (before after : Input.Workspace) : IO Unit := do
  for p in after.directories do
    if !before.hasDirectory p then IO.FS.createDirAll (Input.Workspace.pathText p)
  for (p, contents) in before.changes after do
    IO.FS.writeFile (Input.Workspace.pathText p) contents

/-- Runs on the files that the arguments name, and returns the exit code. -/
def execute (arguments : List String) : IO UInt32 := do
  let before ← readNamed arguments
  let outcome := run arguments before
  writeChanges before outcome.workspace
  for line in outcome.output do
    IO.println line
  for line in outcome.errors do
    IO.eprintln line
  return outcome.exitCode.toUInt32

end TemporalRequirements.Program

def main (arguments : List String) : IO UInt32 :=
  TemporalRequirements.Program.execute arguments

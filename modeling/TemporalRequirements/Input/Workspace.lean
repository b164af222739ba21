import TemporalRequirements.OrderedMap
import TemporalRequirements.Text.Search

/-!
# Files by their paths

The files that a run reads and writes, as a value.  A path is followed name by name from the
working directory; every name but the last must lead to a directory.  Outside the working directory
a workspace knows what every system has: the directories above, those of the root, and the null
device.
-/

namespace TemporalRequirements.Input

/-- The names on the way to a file or directory: from the working directory, from those above it
after names `..`, or from the root after a first name `/`. -/
abbrev Path := List String

/-- Files with their contents, and the directories that hold them. -/
structure Workspace where
  files : OrderedMap Path String
  directories : List Path

namespace Workspace

/-- The workspace without files. -/
def empty : Workspace := ⟨.empty, [[]]⟩

def hasFile (w : Workspace) (p : Path) : Bool := w.files.contains p

def rootNames : List String :=
  ["bin", "dev", "etc", "home", "lib", "opt", "proc", "root", "run", "sbin", "sys", "tmp", "usr",
    "var"]

def isStandardDirectory : Path → Bool
  | ["/"] => true
  | ["/", name] => name ∈ rootNames
  | p => p.all (· = "..")

def hasDirectory (w : Workspace) (p : Path) : Bool := isStandardDirectory p || p ∈ w.directories

/-- The path of the null device, which opens but holds nothing and is no file. -/
def nullDevice : Path := ["/", "dev", "null"]

/-- The names in the text of a path; the root has the name `/`. -/
def names (text : String) : List String :=
  let pieces := (Text.splitOn ['/'] text.toList).map String.ofList
  if text.toList.head? = some '/' then "/" :: pieces else pieces

def enter (here : Path) (name : String) : Path :=
  if name = "" || name = "." then here
  else if name = ".." then
    if here = ["/"] then here
    else if here.getLast?.all (· = "..") then here ++ [name]
    else here.dropLast
  else here ++ [name]

def follow (w : Workspace) : Path → List String → Option Path
  | here, [] => some here
  | here, name :: rest => if w.hasDirectory here then w.follow (enter here name) rest else none

def maxNameBytes : Nat := 255

def maxPathBytes : Nat := 4095

/-- The path that a text denotes, if its directories exist. -/
def resolve (w : Workspace) (text : String) : Option Path :=
  if text = "" || maxPathBytes < text.utf8ByteSize then none else w.follow [] (names text)

/-! ## Reading and writing -/

def isFile (w : Workspace) (text : String) : Bool := (w.resolve text).any w.hasFile

def read? (w : Workspace) (text : String) : Option String :=
  (w.resolve text).bind w.files.get?

/-- Whether a text denotes a file, a directory or the null device. -/
def canOpen (w : Workspace) (text : String) : Bool :=
  (w.resolve text).any fun p ↦ w.hasFile p || w.hasDirectory p || p = nullDevice

/-- Makes the directories along a path, unless something that is none is in the way or a name is
too long. -/
def makeAlong (w : Workspace) : Path → List String → Option Workspace
  | _, [] => some w
  | here, name :: rest =>
    let next := enter here name
    if w.hasFile next || next = nullDevice || maxNameBytes < name.utf8ByteSize then none
    else if w.hasDirectory next then w.makeAlong next rest
    else makeAlong { w with directories := w.directories ++ [next] } next rest

/-- Makes the directory that a text denotes, after those on the way.  A last name `.` cannot be made:
the directory before it is not made either, and must be there once those on the way are. -/
def makeDirectory (w : Workspace) (text : String) : Option Workspace :=
  if maxPathBytes < text.utf8ByteSize then none
  else
    let given := (names text).filter (· ≠ "")
    let proper := given.filter (· ≠ ".")
    if given.getLast? = some "." then do
      let made ← w.makeAlong [] proper.dropLast
      if (made.resolve text).any made.hasDirectory then some made else none
    else w.makeAlong [] proper

/-- Writes the file that a text denotes, unless a directory is in the way or missing. -/
def write (w : Workspace) (text contents : String) : Option Workspace := do
  let p ← w.resolve text
  if w.hasDirectory p then none else some { w with files := w.files.insert p contents }

/-! ## Whole workspaces -/

def putDirectories (w : Workspace) (names : List String) : Workspace :=
  (w.makeAlong [] names).getD w

/-- Puts a file where it belongs, with its directories.  The null device stays what it is. -/
def put (w : Workspace) (file : String × String) : Workspace :=
  let p := (names file.1).foldl enter []
  let made := w.putDirectories (names file.1).dropLast
  if p = nullDevice then made else { made with files := made.files.insert p file.2 }

def ofFiles (files : List (String × String)) : Workspace := files.foldl put empty

def pathText : Path → String
  | "/" :: names => "/" ++ "/".intercalate names
  | names => "/".intercalate names

def isInside (p : Path) : Bool := p.head?.all fun name ↦ name != "/" && name != ".."

/-- The files of `after` that `before` does not have with the same contents. -/
def changes (before after : Workspace) : List (Path × String) :=
  after.files.entries.filter fun e ↦ before.files.get? e.1 != some e.2

/-- The changed files below the working directory, in order of the texts of their paths. -/
def changesInside (before after : Workspace) : List (String × String) :=
  (((changes before after).filter fun e ↦ isInside e.1).map fun e ↦
    (pathText e.1, e.2)).mergeSort fun a b ↦ a.1 ≤ b.1

end Workspace

end TemporalRequirements.Input

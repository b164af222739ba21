import TemporalRequirements.Monitor.Bundle

/-!
# Splicing monitors into a program

A program has two generated blocks, each between a line with its begin marker and the next end
marker.  Splicing replaces the lines of both blocks, indented as their begin markers are, and
leaves the rest of the program alone.
-/

namespace TemporalRequirements.Splice

/-- The marker after which includes and declarations are generated. -/
def includesMarker : String := "// Generated includes:"

/-- The marker after which updates and checks are generated. -/
def assertsMarker : String := "// Generated asserts:"

def endMarker : String := "// End generated"

def includes : List String := ["#include <assert.h>", "#include <stdbool.h>"]

structure MissingMarker where
  marker : String
  deriving DecidableEq, Repr

def MissingMarker.message (e : MissingMarker) : String := "marker `" ++ e.marker ++ "` not found"

def lastLine (s : List Char) : List Char := (s.reverse.takeWhile (· ≠ '\n')).reverse

/-- The indentation of a marker after the text before it: what stands before it on its line, if
that is blank. -/
def indentAfter (before : List Char) : List Char :=
  let line := lastLine before
  if line.all Text.isBlank then line else []

/-- The lines of a block as text, each indented and ended. -/
def blockText (indent : List Char) (body : List String) : List Char :=
  body.flatMap fun line ↦ indent ++ line.toList ++ ['\n']

def replaceBlock (marker : String) (body : List String) (s : List Char) :
    Except MissingMarker (List Char) :=
  match Text.breakOn marker.toList s with
  | none => .error ⟨marker⟩
  | some (before, after) =>
    match Text.breakOn ['\n'] after with
    | none => .error ⟨endMarker⟩
    | some (restOfLine, block) =>
      match Text.breakOn endMarker.toList block with
      | none => .error ⟨endMarker⟩
      | some (old, rest) =>
        .ok (before ++ marker.toList ++ restOfLine ++ ['\n'] ++
          blockText (indentAfter before) body ++ lastLine old ++ endMarker.toList ++ rest)

def includeLines (b : Bundle) : List String := includes ++ b.declarations

def assertLines (b : Bundle) : List String := b.counters ++ b.asserts

def splice (b : Bundle) (program : String) : Except MissingMarker String := do
  let s ← replaceBlock includesMarker (includeLines b) program.toList
  let s ← replaceBlock assertsMarker (assertLines b) s
  return String.ofList s

/-- A program with empty generated blocks and one function that is run once per step. -/
def template (step : String) : String :=
  includesMarker ++ "\n" ++ endMarker ++ "\n\nvoid check_requirements(int " ++ step ++
    ")\n\x7b\n    " ++ assertsMarker ++ "\n    " ++ endMarker ++ "\n\x7d\n"

/-- A program that holds nothing but the lines of a bundle. -/
def standalone (step : String) (b : Bundle) : Except MissingMarker String :=
  splice b (template step)

end TemporalRequirements.Splice

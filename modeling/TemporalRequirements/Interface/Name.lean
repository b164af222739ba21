import TemporalRequirements.Text.Ascii

/-!
# Safe names

Names of signals and requirements become identifiers of the generated programs.  A safe name holds
ASCII letters, digits and underscores only, does not start with a digit and is no reserved word.
-/

namespace TemporalRequirements

/-- Words that the generated notations keep for themselves. -/
def reservedWords : List String :=
  ["auto", "break", "case", "char", "const", "continue", "default", "do", "double", "else",
    "float", "for", "if", "int", "long", "return", "switch", "while", "init", "next", "MODULE",
    "VAR", "TRUE", "FALSE"]

/-- The name with an underscore in place of every character that no identifier holds, before a
leading digit, and after a reserved word. -/
def safeName (name : String) : String :=
  let plain := name.toList.map fun c ↦ if Text.isNamePart c then c else '_'
  let started :=
    match plain with
    | [] => ['_']
    | c :: _ => if c.isDigit then '_' :: plain else plain
  if String.ofList started ∈ reservedWords then String.ofList (started ++ ['_'])
  else String.ofList started

end TemporalRequirements

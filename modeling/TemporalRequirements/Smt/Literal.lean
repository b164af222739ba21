import TemporalRequirements.Interface.Basic

/-!
# Names of enumeration literals

All constructors of a script share one name space.  A literal of several enumerations keeps its
name in the one with the longest name, the earliest among equals, and has the name of the
enumeration attached in the others.
-/

namespace TemporalRequirements.Smt

/-- The names of literals, under the enumeration and the literal. -/
abbrev LiteralNames := OrderedMap (String × String) String

/-- The longer of two enumerations by name, the first of equals. -/
def longerName (best : Option Enumeration) (candidate : Enumeration) : Option Enumeration :=
  match best with
  | some e => if e.name.utf8ByteSize ≥ candidate.name.utf8ByteSize then some e else some candidate
  | none => some candidate

/-- The enumeration in which a literal keeps its name. -/
def keeper? (i : Interface) (literal : String) : Option Enumeration :=
  (i.enumsWithLiteral literal).foldl longerName none

def literalName (i : Interface) (enumName literal : String) : String :=
  match keeper? i literal with
  | some keeper => if keeper.name = enumName then literal else literal ++ "_" ++ enumName
  | none => literal

def literalNames (i : Interface) : LiteralNames :=
  .ofList <| i.enums.values.flatMap fun e ↦
    e.literals.map fun l ↦ ((e.name, l), literalName i e.name l)

/-- The enumeration to which a literal with a bare name belongs. -/
def bareEnum? (names : LiteralNames) (literal : String) : Option String :=
  (names.entries.find? fun e ↦ e.1.2 = literal && e.2 = literal).map fun e ↦ e.1.1

/-- The name of a literal where `hint` may tell its enumeration. -/
def hintedName (names : LiteralNames) (literal : String) (hint : Option String) : String :=
  (hint.bind fun e ↦ names.get? (e, literal)).getD literal

end TemporalRequirements.Smt

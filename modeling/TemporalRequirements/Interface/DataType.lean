import TemporalRequirements.Text.Ascii
import TemporalRequirements.Text.Blank
import TemporalRequirements.Text.Search

/-!
# Data types of signals

A signal declares its type as a text such as `int16_T`, `boolean` or the name of an enumeration.
-/

namespace TemporalRequirements

inductive DataType where
  | boolean
  /-- The width is absent when the declaration does not fix it. -/
  | integer (signed : Bool) (width : Option Nat)
  | real
  | enumeration (name : String)
  | unknown (text : String)
  deriving DecidableEq, Repr

namespace DataType

/-- The type texts with a fixed meaning, in small letters. -/
def named : List (String × DataType) :=
  [("bool", .boolean), ("boolean", .boolean), ("boolean_t", .boolean), ("double", .real),
    ("single", .real), ("float", .real), ("real", .real), ("integer", .integer true none)]

/-- What follows the letters of an integer type: perhaps a width, perhaps a suffix. -/
def integerWidth? (s : List Char) : Option (Option Nat) :=
  let withoutSuffix := (Text.after? "t_".toList s.reverse).map List.reverse
  match String.ofList (withoutSuffix.getD s) with
  | "" => some none
  | "8" => some (some 8)
  | "16" => some (some 16)
  | "32" => some (some 32)
  | "64" => some (some 64)
  | _ => none

def integer? (s : List Char) : Option DataType :=
  match Text.after? "uint".toList s with
  | some rest => (integerWidth? rest).map (integer false)
  | none => do
    let rest ← Text.after? "int".toList s
    (integerWidth? rest).map (integer true)

/-- The type that a declaration names, where `isEnum` tells the enumerations. -/
def parse (isEnum : String → Bool) (text : String) : DataType :=
  let declared := Text.trim text.toList
  let name := ((Text.after? "Enum:".toList declared).map Text.trim).getD declared
  if isEnum (String.ofList name) then enumeration (String.ofList name)
  else
    let lower := Text.lowercase name
    match named.find? (fun entry ↦ entry.1.toList = lower) with
    | some entry => entry.2
    | none => (integer? lower).getD (unknown (String.ofList declared))

def print : DataType → String
  | boolean => "boolean"
  | integer signed width =>
    (if signed then "int" else "uint") ++ (width.map fun w ↦ toString w).getD ""
  | real => "real"
  | enumeration name => name
  | unknown text => text

end DataType

end TemporalRequirements

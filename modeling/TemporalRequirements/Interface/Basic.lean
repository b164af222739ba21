import TemporalRequirements.Interface.DataType
import TemporalRequirements.Interface.Name
import TemporalRequirements.OrderedMap

/-!
# The interface of a system

The signals that requirements speak of, their classes and types, the enumerations, and the way in
which names become identifiers.  A second declaration of a name replaces the first in its place.
-/

namespace TemporalRequirements

/-! ## Classes of signals -/

inductive InterfaceClass where
  | input
  | output
  | internal
  | parameter
  deriving DecidableEq, Repr

namespace InterfaceClass

def words : List (String × InterfaceClass) :=
  [("input", .input), ("inputs", .input), ("output", .output), ("outputs", .output),
    ("internal", .internal), ("internals", .internal), ("local", .internal),
    ("parameter", .parameter), ("parameters", .parameter), ("param", .parameter)]

/-- The class that a word names, whatever its case and the blanks around it. -/
def parse (text : String) : Option InterfaceClass :=
  let word := Text.lowercase (Text.trim text.toList)
  (words.find? (fun entry ↦ entry.1.toList = word)).map Prod.snd

/-- Whether signals of the class live in the system that is checked. -/
def isPlant : InterfaceClass → Bool
  | input | output | internal => true
  | parameter => false

end InterfaceClass

/-! ## Signals and enumerations -/

structure Signal where
  name : String
  interfaceClass : InterfaceClass
  declaredType : String
  deriving DecidableEq, Repr

structure Enumeration where
  name : String
  literals : List String
  deriving DecidableEq, Repr

/-- The declared signals and enumerations, and how names become identifiers. -/
structure Interface where
  signals : OrderedMap String Signal
  enums : OrderedMap String Enumeration
  identifier : String → String

namespace Interface

/-- The interface without declarations, where names become identifiers as `identifier` says. -/
def withIdentifier (identifier : String → String) : Interface :=
  ⟨.empty, .empty, identifier⟩

/-- The interface without declarations, where names become safe names. -/
def empty : Interface := withIdentifier safeName

/-- Declares a signal. -/
def declare (i : Interface) (s : Signal) : Interface :=
  { i with signals := i.signals.insert s.name s }

def declareEnum (i : Interface) (e : Enumeration) : Interface :=
  { i with enums := i.enums.insert e.name e }

def signal? (i : Interface) (name : String) : Option Signal := i.signals.get? name

def isSignal (i : Interface) (name : String) : Bool := i.signals.contains name

def signalsOf (i : Interface) (c : InterfaceClass) : List Signal :=
  i.signals.values.filter fun s ↦ s.interfaceClass = c

def dataType? (i : Interface) (name : String) : Option DataType :=
  (i.signal? name).map fun s ↦ DataType.parse i.enums.contains s.declaredType

def enumsWithLiteral (i : Interface) (literal : String) : List Enumeration :=
  i.enums.values.filter fun e ↦ literal ∈ e.literals

def isLiteral (i : Interface) (name : String) : Bool :=
  i.enums.values.any fun e ↦ name ∈ e.literals

/-- Whether a name stands for an enumeration literal: a signal of the same name goes before. -/
def readsAsLiteral (i : Interface) (name : String) : Bool := i.isLiteral name && !i.isSignal name

end Interface

end TemporalRequirements

/-!
# Diagnostics

Messages that formalizing and rendering leave behind.  Nothing is printed here: every stage returns
its messages in order, and the caller decides what to report.
-/

namespace TemporalRequirements

inductive Severity where
  | completion
  | info
  | warning
  | error
  | fatal
  deriving DecidableEq, Repr

namespace Severity

/-- The number of a severity; a graver one has a greater number. -/
def rank : Severity → Nat
  | completion => 1
  | info => 2
  | warning => 3
  | error => 4
  | fatal => 5

def ofNumber? (n : Int) : Option Severity :=
  [completion, info, warning, error, fatal].find? fun s ↦ (s.rank : Int) = n

def label : Severity → String
  | completion => "completed: "
  | info => "info: "
  | warning => "warning: "
  | error => "error: "
  | fatal => "fatal error: "

end Severity

/-- A message, perhaps about one requirement. -/
structure Diagnostic where
  severity : Severity
  requirement : Option String
  message : String
  deriving DecidableEq, Repr

namespace Diagnostic

def warn (requirement : Option String) (message : String) : Diagnostic :=
  ⟨.warning, requirement, message⟩

def failure (requirement : Option String) (message : String) : Diagnostic :=
  ⟨.error, requirement, message⟩

/-- The text of a message, with the requirement in brackets. -/
def print (d : Diagnostic) : String :=
  match d.requirement with
  | some id => "[" ++ id ++ "] " ++ d.message
  | none => d.message

def isAtLeast (s : Severity) (d : Diagnostic) : Bool := s.rank ≤ d.severity.rank

def isWarning (d : Diagnostic) : Bool := d.severity = .warning

end Diagnostic

end TemporalRequirements

import TemporalRequirements.Monitor.Condition
import TemporalRequirements.Term

/-!
# Statements of monitors

A monitor has declared counters and flags, updates that run once per step, and checks that run
after the updates.  A counter below zero is at rest; otherwise it holds the steps since its
obligation began.  Every statement prints as one line of C.
-/

namespace TemporalRequirements

namespace Monitor

/-- A comparison of the step counter with a constant. -/
structure Guard where
  step : String
  relation : RelOp
  bound : UInt32
  deriving DecidableEq, Repr

def Guard.text (g : Guard) : String :=
  g.step ++ " " ++ g.relation.symbol ++ " " ++ toString g.bound.toNat

/-- When an obligation begins: a guard and a premise, each of which may be absent. -/
structure Trigger where
  guard : Option Guard
  premise : Option Condition
  deriving DecidableEq, Repr

def Trigger.parts (t : Trigger) (leading : List String) : List String :=
  let guards := leading ++ (t.guard.map Guard.text).toList
  match t.premise with
  | none => guards
  | some c => guards ++ [parenthesizedIf (!guards.isEmpty && !c.isSimple) c.text]

def Trigger.text? (t : Trigger) : Option String :=
  match t.parts [] with
  | [] => none
  | parts => some (" && ".intercalate parts)

/-! ## Statements -/

/-- A variable of a monitor with its value before the first step. -/
inductive Declaration where
  /-- A flag, which is false at first. -/
  | flag (name : String)
  /-- A counter, which is at rest at first. -/
  | counter (name : String)
  deriving DecidableEq, Repr

def Declaration.text : Declaration → String
  | .flag name => "bool " ++ name ++ " = false;"
  | .counter name => "int " ++ name ++ " = -1;"

inductive Statement where
  /-- Sets a flag to whether the trigger holds. -/
  | observe (flag : String) (trigger : Trigger)
  /-- Keeps the present value of an expression for the next step. -/
  | latch (flag current : String)
  /-- Lets a running counter count the step. -/
  | advance (counter : String)
  /-- Puts a counter to rest that has not reached `delay` when the premise fails. -/
  | cancel (counter : String) (delay : UInt32) (premise : Condition)
  /-- Starts a counter at rest when the trigger holds. -/
  | start (counter : String) (trigger : Trigger)
  /-- Checks the conclusion whenever the trigger holds. -/
  | check (trigger : Trigger) (conclusion : Condition)
  /-- Checks the conclusion when the counter reaches `delay`. -/
  | checkAt (counter : String) (delay : UInt32) (conclusion : Condition)
  /-- Checks the conclusion at every count from `delay` to `last`. -/
  | checkThrough (counter : String) (delay last : UInt32) (conclusion : Condition)
  /-- Checks that the conclusion holds at some count from `delay` to `last`. -/
  | checkBy (counter : String) (delay last : UInt32) (conclusion : Condition)
  deriving DecidableEq, Repr

/-! ## Lines of C -/

def ifLine (condition body : String) : String :=
  "if (" ++ condition ++ ") \x7b " ++ body ++ " \x7d"

def assertText (condition : String) : String := "assert(" ++ condition ++ ");"

def restText (counter : String) : String := counter ++ " = -1;"

def countText (n : UInt32) : String := toString n.toNat

def Statement.text : Statement → String
  | .observe flag trigger => flag ++ " = " ++ trigger.text?.getD "true" ++ ";"
  | .latch flag current => flag ++ " = " ++ current ++ ";"
  | .advance counter => ifLine (counter ++ " >= 0") (counter ++ "++;")
  | .cancel counter delay premise =>
    ifLine (counter ++ " >= 0 && " ++ counter ++ " < " ++ countText delay ++ " && " ++
      premise.negated) (restText counter)
  | .start counter trigger =>
    ifLine (" && ".intercalate (trigger.parts [counter ++ " < 0"])) (counter ++ " = 0;")
  | .check trigger conclusion =>
    match trigger.text? with
    | some condition => ifLine condition (assertText conclusion.text)
    | none => assertText conclusion.text
  | .checkAt counter delay conclusion =>
    ifLine (counter ++ " == " ++ countText delay)
      (assertText conclusion.text ++ " " ++ restText counter)
  | .checkThrough counter delay last conclusion =>
    ifLine (counter ++ " >= " ++ countText delay)
      (assertText conclusion.text ++ " " ++
        ifLine (counter ++ " >= " ++ countText last) (restText counter))
  | .checkBy counter delay last conclusion =>
    ifLine (counter ++ " >= " ++ countText delay)
      (ifLine conclusion.text (restText counter) ++ " else \x7b " ++
        assertText (counter ++ " < " ++ countText last) ++ " \x7d")

end Monitor

/-- A monitor: its variables, the updates of each step and the checks after them. -/
structure Monitor where
  declarations : List Monitor.Declaration
  updates : List Monitor.Statement
  checks : List Monitor.Statement
  deriving DecidableEq, Repr

end TemporalRequirements

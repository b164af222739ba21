import Mathlib.Data.Option.Basic
import TemporalRequirements.Proofs.Monitor.Execution

/-!
# The lines of a monitor as a program

The lines run in one function of the host program, whose parameter is the step counter.  A variable
of a monitor that has the name of the parameter is hidden by it: the lines then read and change the
parameter.  All variables are numbers here, and a condition is true if its number is not zero.
-/

namespace TemporalRequirements.Monitor

/-- A name that is no variable has no value. -/
abbrev Variables := String → Option Int

/-- The value of every C expression that is no variable, at one step. -/
abbrev Values := String → Int

namespace Variables

def set (v : Variables) (x : String) (value : Int) : Variables :=
  fun y ↦ if y = x then some value else v y

/-- A `bool` keeps whether a number is zero.  The step counter is an `int`, also where it hides a
flag. -/
def setFlag (v : Variables) (step flag : String) (value : Int) : Variables :=
  v.set flag (if flag = step then value else (value != 0).toInt)

def count (v : Variables) (counter : String) : Int := (v counter).getD 0

def read (v : Variables) (now : Values) (text : String) : Int := (v text).getD (now text)

end Variables

def ConditionOp.value : ConditionOp → Int → Int → Int
  | .and, l, r => (l != 0 && r != 0).toInt
  | .or, l, r => (l != 0 || r != 0).toInt
  | .equal, l, r => (l == r).toInt
  | .different, l, r => (l != r).toInt

def Condition.value (read : String → Int) : Condition → Int
  | .truth b => b.toInt
  | .leaf text => read text
  | .not c => (c.value read == 0).toInt
  | .binary op l r => op.value (l.value read) (r.value read)

/-- The number of the step is read from the variable that the guard names. -/
def Guard.value (read : String → Int) (g : Guard) : Int :=
  (compare g.relation (read g.step) g.bound.toNat).toInt

/-- The value of the text of a trigger, which is `true` if it restricts nothing. -/
def Trigger.value (read : String → Int) (t : Trigger) : Int :=
  match t.guard, t.premise with
  | none, none => 1
  | some g, none => g.value read
  | none, some c => c.value read
  | some g, some c => ConditionOp.and.value (g.value read) (c.value read)

/-! ## Statements -/

/-- The variables after the line of a statement, unless a check in it is not met. -/
def Statement.perform (step : String) (now : Values) (v : Variables) : Statement → Option Variables
  | .observe flag trigger => some (v.setFlag step flag (trigger.value (v.read now)))
  | .latch flag current => some (v.setFlag step flag (v.read now current))
  | .advance counter =>
    some (if 0 ≤ v.count counter then v.set counter (succCount (v.count counter)) else v)
  | .cancel counter delay premise =>
    some (if 0 ≤ v.count counter ∧ v.count counter < delay.toNat ∧
        premise.value (v.read now) = 0 then
      v.set counter resting else v)
  | .start counter trigger =>
    some (if v.count counter < 0 ∧ trigger.value (v.read now) ≠ 0 then v.set counter 0 else v)
  | .check trigger conclusion =>
    if trigger.value (v.read now) ≠ 0 ∧ conclusion.value (v.read now) = 0 then none else some v
  | .checkAt counter delay conclusion =>
    if v.count counter = delay.toNat then
      if conclusion.value (v.read now) ≠ 0 then some (v.set counter resting) else none
    else some v
  | .checkThrough counter delay last conclusion =>
    if delay.toNat ≤ v.count counter then
      if conclusion.value (v.read now) ≠ 0 then
        some (if last.toNat ≤ v.count counter then v.set counter resting else v)
      else none
    else some v
  | .checkBy counter delay last conclusion =>
    if delay.toNat ≤ v.count counter then
      if conclusion.value (v.read now) ≠ 0 then some (v.set counter resting)
      else if v.count counter < last.toNat then some v else none
    else some v

/-! ## Runs -/

/-- The variables before the first step. -/
def declared (m : Monitor) : Variables := fun x ↦
  if Declaration.counter x ∈ m.declarations then some resting
  else if Declaration.flag x ∈ m.declarations then some 0 else none

/-- What the host program shows at each step, given the variables at the moment. -/
abbrev Environment := Nat → Variables → Values

namespace Environment

variable (env : Environment) (step : String)

def performAll (n : Nat) (ss : List Statement) (v : Variables) : Option Variables :=
  ss.foldlM (fun v s ↦ s.perform step (env n v) v) v

/-- The variables before the step of this number, unless a check was not met earlier.  A step begins
with its number in the step counter. -/
def run (m : Monitor) : Nat → Option Variables
  | 0 => some m.declared
  | n + 1 => (run m n).bind fun v ↦
    (env.performAll step n m.updates (v.set step n)).bind (env.performAll step n m.checks)

variable {env step} {n : Nat} {s : Statement} {v : Variables}

theorem performAll_cons (ss : List Statement) : env.performAll step n (s :: ss) v =
    (s.perform step (env n v) v).bind (env.performAll step n ss) := rfl

theorem performAll_append (ss ts : List Statement) : env.performAll step n (ss ++ ts) v =
    (env.performAll step n ss v).bind (env.performAll step n ts) := List.foldlM_append ..

end Environment

/-- Whether some assertion fails in a run that gives every C expression a value at each step. -/
def Alarms (m : Monitor) (step : String) (run : Nat → Values) : Prop :=
  ∃ n, Environment.run (fun n _ ↦ run n) step m n = none

end TemporalRequirements.Monitor

import TemporalRequirements.ModelChecker.Basic
import TemporalRequirements.Monitor.Statement

/-!
# Monitors of properties

The property `G (p -> X ... F<=n c)` is checked by a counter that starts when `p` holds and whose
count tells when `c` is due.  A premise with one `X` is known one step later: what it reads now is
latched for then, and its conclusion is due one step earlier.  Other shapes have no monitor.
-/

namespace TemporalRequirements

/-- A property without a monitor: the part of its formula that no C statement checks. -/
structure MonitorError where
  part : Formula
  formula : Formula
  deriving DecidableEq, Repr

def MonitorError.message (e : MonitorError) : String :=
  "no C assertion for `" ++ e.part.print ++ "` in `" ++ e.formula.print ++ "`"

namespace Monitor

/-- The steps at which the trigger of a property is looked at. -/
inductive Scope where
  | everyStep
  | initial
  | afterInitial
  deriving DecidableEq, Repr

/-- The guard of a trigger that is known `lag` steps late. -/
def Scope.guard (step : String) (lag : UInt32) : Scope → Option Guard
  | everyStep => if lag = 0 then none else some ⟨step, .ge, lag⟩
  | initial => some ⟨step, .eq, lag⟩
  | afterInitial => some ⟨step, .gt, lag⟩

/-- The scope of a property and the formula checked in it. -/
def scopeOf (c : Chunk) : Scope × Formula :=
  match c.tag, c.formula.alwaysBody? with
  | some .afterInitialCondition, some body => (.afterInitial, body)
  | _, some body => (.everyStep, body)
  | some .afterInitialCondition, none => (.afterInitial, c.formula)
  | _, none => (.initial, c.formula)

/-- How long after its delay a conclusion may or must hold. -/
inductive Window where
  /-- At the delay only. -/
  | instant
  /-- At least once up to that many steps later. -/
  | within (steps : UInt32)
  /-- At every step up to that many steps later. -/
  | throughout (steps : UInt32)
  deriving DecidableEq, Repr

/-- A conclusion with its timing taken apart. -/
structure Timed where
  delay : UInt32
  window : Window
  core : Formula

/-- The sum of two counts, or the largest count. -/
def addCapped (a b : UInt32) : UInt32 :=
  if a.toNat + b.toNat < UInt32.size then a + b else UInt32.ofNat (UInt32.size - 1)

/-- A capped sum is the sum, or the largest word. -/
theorem toNat_addCapped (a b : UInt32) :
    (addCapped a b).toNat = min (a.toNat + b.toNat) (UInt32.size - 1) := by
  rw [addCapped]
  split
  · rename_i h
    rw [UInt32.toNat_add, Nat.mod_eq_of_lt h]
    omega
  · rename_i h
    have hmax : (UInt32.ofNat (UInt32.size - 1)).toNat = UInt32.size - 1 := rfl
    rw [hmax]
    omega

/-- Peels the timing off a conclusion; what cannot be peeled is the error. -/
def peel (delay : UInt32) (window : Window) : Formula → Except Formula Timed
  | .unary .next f => peel (addCapped delay 1) window f
  | .bounded op n f =>
    match op with
    | .exactly => peel (addCapped delay n) window f
    | .eventuallyWithin =>
      if window = .instant then peel delay (.within n) f else .error (.bounded op n f)
    | .alwaysWithin =>
      if window = .instant then peel delay (.throughout n) f else .error (.bounded op n f)
  | f => if f.isTemporal then .error f else .ok ⟨delay, window, f⟩

/-! ## Premises -/

def presentCondition (i : Interface) (f : Formula) : Except Formula Condition :=
  conditionOf (fun _ a ↦ a.predicate.print (.program i)) false false f

/-- The monitor of an equivalence: each side is checked where the other holds. -/
def ofEquivalence (i : Interface) (guard : Option Guard) (l r : Formula) :
    Except Formula Monitor := do
  let l ← presentCondition i l
  let r ← presentCondition i r
  return ⟨[], [], [.check ⟨guard, some l⟩ r, .check ⟨guard, some r⟩ l]⟩

/-- What begins the obligation of a property: the trigger, how many steps late it is known, and
what it takes to observe it. -/
structure Premise where
  trigger : Trigger
  lag : UInt32
  declarations : List Declaration
  updates : List Statement
  latches : List Statement

/-- The expressions whose values a premise needs one step later. -/
def latched (i : Interface) (p : Formula) : List String :=
  ((presentAtoms p).map fun a ↦ a.predicate.print (.program i)).eraseDups

/-- The flag that keeps an expression of a premise for the next step. -/
def latchName (name : String) (latched : List String) (current : String) : String :=
  "Prev_" ++ name ++ "_" ++ toString (latched.idxOf current)

/-- The premise `p`, which looks one step ahead, observed one step late. -/
def lookingPremise (i : Interface) (name step : String) (scope : Scope) (p : Formula) :
    Except Formula Premise := do
  let expressions := latched i p
  let spell (ahead : Bool) (a : Atom) :=
    let current := a.predicate.print (.program i)
    if ahead then current else latchName name expressions current
  let condition ← conditionOf spell true false p
  let flag := "TransCondition_" ++ name
  return {
    trigger := ⟨none, some (.leaf flag)⟩
    lag := 1
    declarations := .flag flag :: expressions.map fun e ↦ .flag (latchName name expressions e)
    updates := [.observe flag ⟨scope.guard step 1, some condition⟩]
    latches := expressions.map fun e ↦ .latch (latchName name expressions e) e }

/-- The premise of a property whose conclusion `c` is due after `delay` steps. -/
def premiseOf (i : Interface) (name step : String) (scope : Scope) (c : Formula) (delay : UInt32) :
    Option Formula → Except Formula Premise
  | none => .ok ⟨⟨scope.guard step 0, none⟩, 0, [], [], []⟩
  | some p =>
    if p.nextDepth = 0 then do
      let condition ← presentCondition i p
      return ⟨⟨scope.guard step 0, some condition⟩, 0, [], [], []⟩
    else if p.nextDepth > 1 then .error p
    else if delay = 0 then .error c
    else lookingPremise i name step scope p

/-! ## Conclusions and whole properties -/

def counterCheck (counter : String) (delay : UInt32) (window : Window) (conclusion : Condition) :
    Statement :=
  match window with
  | .instant => .checkAt counter delay conclusion
  | .within n => .checkBy counter delay (addCapped delay n) conclusion
  | .throughout n => .checkThrough counter delay (addCapped delay n) conclusion

/-- The updates of a counter: a waiting obligation is dropped once its premise fails. -/
def counterUpdates (counter : String) (delay : UInt32) (trigger : Trigger) : List Statement :=
  let cancels :=
    match trigger.premise with
    | some premise => if delay > 0 then [Statement.cancel counter delay premise] else []
    | none => []
  .advance counter :: cancels ++ [.start counter trigger]

def ofConclusion (name : String) (premise : Premise) (timed : Timed) (conclusion : Condition) :
    Monitor :=
  let delay := timed.delay - premise.lag
  if delay = 0 && timed.window = .instant then
    ⟨premise.declarations, premise.updates,
      .check premise.trigger conclusion :: premise.latches⟩
  else
    let counter := "Counter_" ++ name
    ⟨premise.declarations ++ [.counter counter],
      premise.updates ++ counterUpdates counter delay premise.trigger,
      counterCheck counter delay timed.window conclusion :: premise.latches⟩

/-- A formula as a premise, if it has one, and a conclusion. -/
def splitImplication : Formula → Option Formula × Formula
  | .binary .implies p c => (some p, c)
  | f => (none, f)

/-- The monitor of a formula in a scope, or the part that has none. -/
def ofFormula (i : Interface) (name step : String) (scope : Scope) (f : Formula) :
    Except Formula Monitor :=
  match f with
  | .binary .iff l r => ofEquivalence i (scope.guard step 0) l r
  | f => do
    let (p, c) := splitImplication f
    let timed ← peel 0 .instant c
    let conclusion ← presentCondition i timed.core
    let premise ← premiseOf i name step scope c timed.delay p
    return ofConclusion name premise timed conclusion

/-- The monitor of a property, whose variables are named after `name` and which reads the counter
`step` of simulation steps. -/
def ofChunk (i : Interface) (name step : String) (c : Chunk) : Except MonitorError Monitor :=
  let (scope, body) := scopeOf c
  match ofFormula i name step scope body with
  | .ok m => .ok m
  | .error part => .error ⟨part, c.formula⟩

end Monitor

end TemporalRequirements

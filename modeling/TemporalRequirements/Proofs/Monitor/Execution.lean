import TemporalRequirements.Monitor.Bundle

/-!
# Running a monitor

A monitor is run here over truth values: at each step it is shown the number of the step and the
truth of every C expression, and it keeps its own counters and flags from step to step.  The updates
run first and then the checks, and a check that is not met ends the run.

This is a view of the lines of C, in which the step number is kept apart from the variables of the
monitor, and the sides of `==` and `!=` are truth values.  The lines do the same where the step
counter is called like none of the variables and what they compare is zero or one
(`alarms_iff_fails`).
-/

namespace TemporalRequirements.Monitor

/-- The truth of every C expression at one step. -/
abbrev Observation := String → Bool

/-- The truth of every C expression at each step of an infinite run. -/
abbrev Observations := Nat → Observation

structure Memory where
  counters : String → Int
  /-- A name that is no flag has no value. -/
  flags : String → Option Bool

/-- The value of an expression, which is a flag or is shown by the host. -/
def Memory.read (m : Memory) (now : Observation) (text : String) : Bool :=
  (m.flags text).getD (now text)

def ConditionOp.eval : ConditionOp → Bool → Bool → Bool
  | .and, l, r => l && r
  | .or, l, r => l || r
  | .equal, l, r => l == r
  | .different, l, r => l != r

/-- The value of a condition, given that of its expressions. -/
def Condition.eval (read : String → Bool) : Condition → Bool
  | .truth b => b
  | .leaf text => read text
  | .not c => !c.eval read
  | .binary op l r => op.eval (l.eval read) (r.eval read)

/-- Whether a comparison of two numbers holds. -/
def compare (op : RelOp) (a b : Int) : Bool :=
  match op with
  | .eq => a == b
  | .ne => a != b
  | .lt => a < b
  | .le => a ≤ b
  | .gt => b < a
  | .ge => b ≤ a

/-- Whether a guard lets the step of this number pass, whatever the step counter is called. -/
def Guard.eval (step : Nat) (g : Guard) : Bool := compare g.relation step g.bound.toNat

/-- Whether the guard and the premise of a trigger hold, as far as they are present. -/
def Trigger.eval (step : Nat) (read : String → Bool) (t : Trigger) : Bool :=
  t.guard.all (Guard.eval step) && t.premise.all (Condition.eval read)

/-! ## Statements -/

def Memory.setCounter (m : Memory) (counter : String) (value : Int) : Memory :=
  { m with counters := fun x ↦ if x = counter then value else m.counters x }

def Memory.setFlag (m : Memory) (flag : String) (value : Bool) : Memory :=
  { m with flags := fun x ↦ if x = flag then some value else m.flags x }

def resting : Int := -1

/-- The count after another one.  A C integer has 32 bits and a sign. -/
def succCount (count : Int) : Int := Int.bmod (count + 1) UInt32.size

/-- The variables after a statement, unless a check in it is not met. -/
def Statement.exec (step : Nat) (now : Observation) (m : Memory) : Statement → Option Memory
  | .observe flag trigger => some (m.setFlag flag (trigger.eval step (m.read now)))
  | .latch flag current => some (m.setFlag flag (m.read now current))
  | .advance counter =>
    some (if 0 ≤ m.counters counter then
      m.setCounter counter (succCount (m.counters counter)) else m)
  | .cancel counter delay premise =>
    some (if 0 ≤ m.counters counter ∧ m.counters counter < delay.toNat ∧
        premise.eval (m.read now) = false then
      m.setCounter counter resting else m)
  | .start counter trigger =>
    some (if m.counters counter < 0 ∧ trigger.eval step (m.read now) = true then
      m.setCounter counter 0 else m)
  | .check trigger conclusion =>
    if trigger.eval step (m.read now) = true ∧ conclusion.eval (m.read now) = false then none
    else some m
  | .checkAt counter delay conclusion =>
    if m.counters counter = delay.toNat then
      if conclusion.eval (m.read now) then some (m.setCounter counter resting) else none
    else some m
  | .checkThrough counter delay last conclusion =>
    if delay.toNat ≤ m.counters counter then
      if conclusion.eval (m.read now) then
        some (if last.toNat ≤ m.counters counter then m.setCounter counter resting else m)
      else none
    else some m
  | .checkBy counter delay last conclusion =>
    if delay.toNat ≤ m.counters counter then
      if conclusion.eval (m.read now) then some (m.setCounter counter resting)
      else if m.counters counter < last.toNat then some m else none
    else some m

/-- The variables after statements in their order, unless a check is not met. -/
def execAll (step : Nat) (now : Observation) : List Statement → Memory → Option Memory
  | [], m => some m
  | s :: rest, m => (s.exec step now m).bind (execAll step now rest)

theorem execAll_append (step : Nat) (now : Observation) (ss ts : List Statement) (m : Memory) :
    execAll step now (ss ++ ts) m = (execAll step now ss m).bind (execAll step now ts) := by
  induction ss generalizing m with
  | nil => rfl
  | cons s ss ih =>
    rw [List.cons_append, execAll, execAll]
    cases s.exec step now m with
    | none => rfl
    | some m' => exact ih m'

/-- The statements behind the lines of a section, where a line is kept once. -/
def distinctLines (ss : List Statement) : List Statement :=
  ss.eraseDupsBy fun s t ↦ s.text == t.text

theorem map_text_distinctLines (ss : List Statement) :
    (distinctLines ss).map Statement.text = (ss.map Statement.text).eraseDups := by
  cases ss with
  | nil => rfl
  | cons s ss =>
    have hrest := map_text_distinctLines (ss.filter fun t ↦ (t.text == s.text) = false)
    unfold distinctLines at hrest ⊢
    rw [List.eraseDupsBy_cons, List.map_cons, hrest, List.map_cons, List.eraseDups_cons,
      List.filter_map]
    apply congrArg (fun rest ↦ s.text :: List.eraseDups (List.map Statement.text rest))
    apply List.filter_congr
    intro t _
    cases ht : t.text == s.text <;> simp [Function.comp_apply, ht]
termination_by ss.length
decreasing_by
  have hfilter := List.length_filter_le (fun t : Statement ↦ (t.text == s.text) = false) ss
  simp only [List.length_cons]
  omega

theorem distinctLines_eq_self {ss : List Statement} (h : (ss.map Statement.text).Nodup) :
    distinctLines ss = ss := by
  induction ss with
  | nil => rfl
  | cons s ss ih =>
    rw [List.map_cons, List.nodup_cons] at h
    have hfilter : (ss.filter fun t ↦ (t.text == s.text) = false) = ss := by
      rw [List.filter_eq_self]
      intro t ht
      have hne : t.text ≠ s.text := fun heq ↦ h.1 (heq ▸ List.mem_map_of_mem ht)
      simpa using hne
    have hrest := ih h.2
    unfold distinctLines at hrest ⊢
    rw [List.eraseDupsBy_cons, hfilter, hrest]

/-- The monitor with one statement for each line of its bundle. -/
def distinct (m : Monitor) : Monitor :=
  ⟨m.declarations, distinctLines m.updates, distinctLines m.checks⟩

/-- The statements that run are those whose texts the bundle lists. -/
theorem lines_distinct (m : Monitor) :
    m.distinct.updates.map Statement.text = m.bundle.counters ∧
      m.distinct.checks.map Statement.text = m.bundle.asserts :=
  ⟨map_text_distinctLines m.updates, map_text_distinctLines m.checks⟩

/-! ## Runs -/

/-- The variables before the first step. -/
def initial (m : Monitor) : Memory where
  counters x := if Declaration.counter x ∈ m.declarations then resting else 0
  flags x := if Declaration.flag x ∈ m.declarations then some false else none

/-- The variables after the step of this number, unless a check is not met. -/
def exec (m : Monitor) (step : Nat) (now : Observation) (memory : Memory) : Option Memory :=
  (execAll step now m.updates memory).bind (execAll step now m.checks)

/-- The variables before the step of this number, unless a check was not met earlier. -/
def memoryAt (m : Monitor) (run : Observations) : Nat → Option Memory
  | 0 => some m.initial
  | n + 1 => (m.memoryAt run n).bind (m.exec n (run n))

/-- Whether some check is not met at some step of a run. -/
def Fails (m : Monitor) (run : Observations) : Prop := ∃ n, m.memoryAt run n = none

/-- If each step from variables that satisfy an invariant keeps it unless `P` holds, then a run that
fails shows `P`. -/
theorem Fails.elim {m : Monitor} {run : Observations} {P : Prop} (h : m.Fails run)
    (Inv : Nat → Memory → Prop) (hinitial : Inv 0 m.initial)
    (hstep : ∀ n memory, Inv n memory →
      P ∨ ∃ next, m.exec n (run n) memory = some next ∧ Inv (n + 1) next) : P := by
  have hrun (n : Nat) : P ∨ ∃ memory, m.memoryAt run n = some memory ∧ Inv n memory := by
    induction n with
    | zero => exact Or.inr ⟨m.initial, rfl, hinitial⟩
    | succ n ih =>
      rcases ih with hP | ⟨memory, hmemory, hinv⟩
      · exact Or.inl hP
      · rcases hstep n memory hinv with hP | ⟨next, hnext, hinv'⟩
        · exact Or.inl hP
        · exact Or.inr ⟨next, by rw [memoryAt, hmemory, Option.bind_some, hnext], hinv'⟩
  obtain ⟨n, hn⟩ := h
  rcases hrun n with hP | ⟨memory, hmemory, -⟩
  · exact hP
  · rw [hn] at hmemory
    cases hmemory

end TemporalRequirements.Monitor

import TemporalRequirements.Proofs.Monitor.Scoping

/-!
# Numbers and truth values

The lines of a monitor ask of most numbers whether they are zero.  If the step counter is none of
the variables of the monitor, and what the lines compare by `==` and `!=` is zero or one, then they
do with numbers what the monitor does with truth values: they raise an alarm where it fails.
-/

namespace TemporalRequirements.Monitor

def truthsOf (run : Nat → Values) : Observations := fun n e ↦ run n e != 0

def Condition.bare? : Condition → Option String
  | .leaf text => some text
  | _ => none

/-- The expressions that are a side of `==` or `!=` as they stand. -/
def Condition.compared : Condition → List String
  | .truth _ | .leaf _ => []
  | .not c => c.compared
  | .binary op l r =>
    (match op with
      | .and | .or => []
      | .equal | .different => l.bare?.toList ++ r.bare?.toList) ++ (l.compared ++ r.compared)

/-- What is compared is an expression of the condition. -/
theorem Condition.compared_subset (c : Condition) : c.compared ⊆ c.leaves := by
  have hbare (c : Condition) : c.bare?.toList ⊆ c.leaves := by
    cases c with
    | leaf text => exact List.Subset.refl _
    | _ => exact List.nil_subset _
  have hjoin {es es' ds ds' : List String} (h : es ⊆ ds) (h' : es' ⊆ ds') :
      es ++ es' ⊆ ds ++ ds' :=
    List.append_subset.mpr ⟨List.subset_append_of_subset_left _ h,
      List.subset_append_of_subset_right _ h'⟩
  induction c with
  | truth b | leaf text => exact List.nil_subset _
  | not c ih => exact ih
  | binary op l r ihl ihr =>
    refine List.append_subset.mpr ⟨?_, hjoin ihl ihr⟩
    cases op with
    | and | or => exact List.nil_subset _
    | equal | different => exact hjoin (hbare l) (hbare r)

theorem toInt_bne_zero (b : Bool) : (b.toInt != 0) = b := by cases b <;> rfl

section

variable {read : String → Int} {truth : String → Bool}

theorem Condition.value_eq_toInt {c : Condition} (h : ∀ e ∈ c.bare?, read e = 0 ∨ read e = 1) :
    c.value read = (c.value read != 0).toInt := by
  cases c with
  | truth b => rw [value, toInt_bne_zero]
  | leaf text => rcases h text rfl with h | h <;> rw [value, h] <;> rfl
  | not c => rw [value, toInt_bne_zero]
  | binary op l r => cases op <;> rw [value, ConditionOp.value, toInt_bne_zero]

/-- A condition is true for numbers where it is true for their truth values, if the numbers that it
compares are truth values. -/
theorem Condition.value_bne_zero {c : Condition} (hread : ∀ e ∈ c.leaves, (read e != 0) = truth e)
    (hcompared : ∀ e ∈ c.compared, read e = 0 ∨ read e = 1) :
    (c.value read != 0) = c.eval truth := by
  induction c with
  | truth b => exact toInt_bne_zero b
  | leaf text => exact hread text List.mem_cons_self
  | not c ih =>
    rw [value, eval, toInt_bne_zero, ← ih hread hcompared]
    cases hzero : c.value read == 0 <;> simp [bne, hzero]
  | binary op l r ihl ihr =>
    have hparts := List.forall_mem_append.mp (List.forall_mem_append.mp hcompared).2
    have hl := ihl (fun e he ↦ hread e (List.mem_append_left _ he)) hparts.1
    have hr := ihr (fun e he ↦ hread e (List.mem_append_right _ he)) hparts.2
    have hsides (hop : op = .equal ∨ op = .different) : (l.value read == r.value read) =
        (l.eval truth == r.eval truth) := by
      have hbare : ∀ e ∈ l.bare?.toList ++ r.bare?.toList, read e = 0 ∨ read e = 1 := fun e he ↦ by
        rcases hop with rfl | rfl <;> exact hcompared e (List.mem_append_left _ he)
      rw [l.value_eq_toInt fun e he ↦ hbare e (List.mem_append_left _ (Option.mem_toList.mpr he)),
        r.value_eq_toInt fun e he ↦ hbare e (List.mem_append_right _ (Option.mem_toList.mpr he)),
        hl, hr]
      cases l.eval truth <;> cases r.eval truth <;> rfl
    cases op with
    | and | or => rw [value, eval, ConditionOp.value, ConditionOp.eval, toInt_bne_zero, hl, hr]
    | equal => rw [value, eval, ConditionOp.value, ConditionOp.eval, toInt_bne_zero,
        hsides (Or.inl rfl)]
    | different => rw [value, eval, ConditionOp.value, ConditionOp.eval, toInt_bne_zero, bne, bne,
        hsides (Or.inr rfl)]

theorem Guard.value_bne_zero {g : Guard} {n : Nat} (h : read g.step = n) :
    (g.value read != 0) = g.eval n := by
  rw [value, toInt_bne_zero, h, eval]

/-- A trigger is true for numbers where its guard and its premise are. -/
theorem Trigger.value_bne_zero {t : Trigger} {n : Nat} (hguard : ∀ g ∈ t.guard, read g.step = n)
    (hpremise : ∀ c ∈ t.premise, (c.value read != 0) = c.eval truth) :
    (t.value read != 0) = t.eval n truth := by
  obtain ⟨guard, premise⟩ := t
  cases guard with
  | none =>
    cases premise with
    | none => rfl
    | some c => exact hpremise c rfl
  | some g =>
    have hg := Guard.value_bne_zero (hguard g rfl)
    cases premise with
    | none => exact hg.trans (Bool.and_true _).symm
    | some c =>
      change ((g.value read != 0 && c.value read != 0).toInt != 0) = _
      rw [toInt_bne_zero, hg, hpremise c rfl]
      rfl

end

/-! ## Memories as variables -/

/-- The variables of the lines when the counters and flags are those of a memory. -/
def Memory.numbers (ds : List Declaration) (step : String) (n : Nat) (m : Memory) : Variables :=
  fun x ↦ if x = step then some (n : Int)
    else if Declaration.counter x ∈ ds then some (m.counters x) else (m.flags x).map Bool.toInt

/-- The variable that a statement changes, with its kind. -/
def Statement.declaration? : Statement → Option Declaration
  | .observe flag _ | .latch flag _ => some (.flag flag)
  | .advance counter | .cancel counter _ _ | .start counter _ | .checkAt counter _ _
  | .checkThrough counter _ _ _ | .checkBy counter _ _ _ => some (.counter counter)
  | .check _ _ => none

def Statement.trigger? : Statement → Option Trigger
  | .observe _ trigger | .start _ trigger | .check trigger _ => some trigger
  | _ => none

def Statement.conditions : Statement → List Condition
  | .observe _ trigger | .start _ trigger => trigger.premise.toList
  | .latch _ _ | .advance _ => []
  | .cancel _ _ premise => [premise]
  | .check trigger conclusion => trigger.premise.toList ++ [conclusion]
  | .checkAt _ _ conclusion | .checkThrough _ _ _ conclusion
  | .checkBy _ _ _ conclusion => [conclusion]

/-- Whether a statement changes what is declared, asks for the number of the step where it compares
one, and takes neither this nor a counter for a truth value. -/
structure Statement.Fits (s : Statement) (ds : List Declaration) (step : String) : Prop where
  declared : ∀ d ∈ s.declaration?, d ∈ ds
  guard : ∀ t ∈ s.trigger?, ∀ g ∈ t.guard, g.step = step
  leaves : ∀ e ∈ s.leaves, e ≠ step ∧ Declaration.counter e ∉ ds

/-- A statement reads what its conditions read. -/
theorem Statement.leaves_of_conditions {s : Statement} {c : Condition} (hc : c ∈ s.conditions) :
    c.leaves ⊆ s.leaves := by
  cases s with
  | latch flag current | advance counter => cases hc
  | observe flag trigger | start counter trigger =>
    exact fun e he ↦ List.mem_flatMap.mpr ⟨c, hc, he⟩
  | cancel counter delay premise | checkAt counter delay conclusion
  | checkThrough counter delay last conclusion | checkBy counter delay last conclusion =>
    rw [List.mem_singleton.mp hc]
    exact List.Subset.refl _
  | check trigger conclusion =>
    intro e he
    rcases List.mem_append.mp hc with hc | hc
    · exact List.mem_append_left _ (List.mem_flatMap.mpr ⟨c, hc, he⟩)
    · exact List.mem_append_right _ (List.mem_singleton.mp hc ▸ he)

section

variable {ds : List Declaration} {step : String} {n : Nat} {m : Memory} {now : Values}
  {s : Statement} {ss : List Statement}

theorem Memory.numbers_set_step (m : Memory) (k : Nat) :
    (m.numbers ds step n).set step k = m.numbers ds step k := by
  funext x
  rw [Variables.set, numbers, numbers]
  split <;> rfl

/-- Setting a counter sets the variable of its name. -/
theorem Memory.numbers_setCounter {counter : String} (hcounter : Declaration.counter counter ∈ ds)
    (hne : counter ≠ step) (m : Memory) (value : Int) :
    (m.setCounter counter value).numbers ds step n =
      (m.numbers ds step n).set counter value := by
  funext x
  simp only [Variables.set, numbers, setCounter]
  by_cases hx : x = counter
  · subst hx
    simp [hne, hcounter]
  · simp [hx]

/-- Setting a flag sets the variable of its name to zero or one. -/
theorem Memory.numbers_setFlag {flag : String} (hflag : Declaration.counter flag ∉ ds)
    (hne : flag ≠ step) (m : Memory) (value : Bool) :
    (m.setFlag flag value).numbers ds step n =
      (m.numbers ds step n).set flag value.toInt := by
  funext x
  simp only [Variables.set, numbers, setFlag]
  by_cases hx : x = flag
  · subst hx
    simp [hne, hflag]
  · simp [hx]

theorem Memory.count_numbers {counter : String} (hcounter : Declaration.counter counter ∈ ds)
    (hne : counter ≠ step) (m : Memory) :
    (m.numbers ds step n).count counter = m.counters counter := by
  simp [Variables.count, numbers, hne, hcounter]

theorem Memory.read_numbers_step (m : Memory) : (m.numbers ds step n).read now step = n := by
  simp [Variables.read, numbers]

theorem Memory.read_numbers {e : String} (he : e ≠ step ∧ Declaration.counter e ∉ ds)
    (m : Memory) : ((m.numbers ds step n).read now e != 0) = m.read (fun e ↦ now e != 0) e := by
  rw [Variables.read, numbers, if_neg he.1, if_neg he.2, read]
  cases m.flags e with
  | none => rfl
  | some b => exact toInt_bne_zero b

/-- What is read is a truth value, if it is in a flag or shown so. -/
theorem Memory.read_numbers_eq {e : String} (he : e ≠ step ∧ Declaration.counter e ∉ ds)
    (h : m.flags e = none → now e = 0 ∨ now e = 1) :
    (m.numbers ds step n).read now e = 0 ∨ (m.numbers ds step n).read now e = 1 := by
  rw [Variables.read, numbers, if_neg he.1, if_neg he.2]
  cases hflag : m.flags e with
  | none => exact h hflag
  | some b => cases b <;> simp

theorem counter_notMem_of_flag (hnodup : (ds.map Declaration.name).Nodup) {x : String}
    (h : Declaration.flag x ∈ ds) : Declaration.counter x ∉ ds := fun h' ↦
  nomatch List.inj_on_of_nodup_map hnodup h h' rfl

theorem ne_step_of_mem (hown : step ∉ ds.map Declaration.name) {d : Declaration} (h : d ∈ ds) :
    d.name ≠ step := fun heq ↦ hown (heq ▸ List.mem_map_of_mem h)

namespace Statement.Fits

/-- The conditions of a statement are true for numbers where they are true for truth values. -/
theorem condition_numbers (hs : s.Fits ds step) (hm : Host.HasFlags ds m)
    (hcompared : ∀ c ∈ s.conditions, ∀ e ∈ c.compared, Declaration.flag e ∉ ds →
      now e = 0 ∨ now e = 1) {c : Condition} (hc : c ∈ s.conditions) :
    (c.value ((m.numbers ds step n).read now) != 0) = c.eval (m.read fun e ↦ now e != 0) := by
  refine Condition.value_bne_zero (fun e he ↦ ?_) fun e he ↦ ?_
  · exact m.read_numbers (hs.leaves e (s.leaves_of_conditions hc he))
  · refine Memory.read_numbers_eq (hs.leaves e (s.leaves_of_conditions hc (c.compared_subset he)))
      fun hnone ↦ hcompared c hc e he fun hflag ↦ ?_
    have hsome := hm e hflag
    rw [hnone] at hsome
    cases hsome

theorem setFlag_numbers (hs : s.Fits ds step) (hnodup : (ds.map Declaration.name).Nodup)
    (hown : step ∉ ds.map Declaration.name) {flag : String}
    (hflag : s.declaration? = some (.flag flag)) (m : Memory) (value : Int) :
    (m.numbers ds step n).setFlag step flag value =
      (m.setFlag flag (value != 0)).numbers ds step n := by
  have hmem := hs.declared _ hflag
  have hne : flag ≠ step := ne_step_of_mem hown hmem
  rw [m.numbers_setFlag (counter_notMem_of_flag hnodup hmem) hne, Variables.setFlag, if_neg hne]

theorem counter_numbers (hs : s.Fits ds step) (hown : step ∉ ds.map Declaration.name)
    {counter : String} (hcounter : s.declaration? = some (.counter counter)) (m : Memory)
    (n : Nat) : (m.numbers ds step n).count counter = m.counters counter ∧
      ∀ value, (m.numbers ds step n).set counter value =
        (m.setCounter counter value).numbers ds step n := by
  have hmem := hs.declared _ hcounter
  have hne : counter ≠ step := ne_step_of_mem hown hmem
  exact ⟨m.count_numbers hmem hne, fun value ↦ (m.numbers_setCounter hmem hne value).symm⟩

end Statement.Fits

/-- A line does with numbers what the statement does with truth values. -/
theorem Statement.perform_numbers (hnodup : (ds.map Declaration.name).Nodup)
    (hown : step ∉ ds.map Declaration.name) (hs : s.Fits ds step) (hm : Host.HasFlags ds m)
    (hcompared : ∀ c ∈ s.conditions, ∀ e ∈ c.compared, Declaration.flag e ∉ ds →
      now e = 0 ∨ now e = 1) :
    s.perform step now (m.numbers ds step n) =
      (s.exec n (fun e ↦ now e != 0) m).map (·.numbers ds step n) := by
  have hcondition {c : Condition} (hc : c ∈ s.conditions) :
      (c.value ((m.numbers ds step n).read now) != 0) = c.eval (m.read fun e ↦ now e != 0) :=
    hs.condition_numbers hm hcompared hc
  have htrigger (t : Trigger) (ht : t ∈ s.trigger?) (hpremise : t.premise.toList ⊆ s.conditions) :
      (t.value ((m.numbers ds step n).read now) != 0) =
        t.eval n (m.read fun e ↦ now e != 0) :=
    Trigger.value_bne_zero (fun g hg ↦ hs.guard t ht g hg ▸ m.read_numbers_step)
      fun c hc ↦ hcondition (hpremise (Option.mem_toList.mpr hc))
  have hzero {x : Int} {b : Bool} (h : (x != 0) = b) : x = 0 ↔ b = false := by
    rw [← h, bne_eq_false_iff_eq]
  cases s with
  | observe flag trigger =>
    rw [perform, exec, hs.setFlag_numbers hnodup hown rfl,
      htrigger trigger rfl (List.Subset.refl _), Option.map_some]
  | latch flag current =>
    rw [perform, exec, hs.setFlag_numbers hnodup hown rfl,
      m.read_numbers (hs.leaves current List.mem_cons_self), Option.map_some]
  | advance counter =>
    obtain ⟨hcount, hset⟩ := hs.counter_numbers hown rfl m n
    rw [perform, exec, hcount, hset, Option.map_some]
    split <;> rfl
  | cancel counter delay premise =>
    obtain ⟨hcount, hset⟩ := hs.counter_numbers hown rfl m n
    simp only [perform, exec, hcount, hset, hzero (hcondition List.mem_cons_self),
      Option.map_some]
    split <;> rfl
  | start counter trigger =>
    obtain ⟨hcount, hset⟩ := hs.counter_numbers hown rfl m n
    simp only [perform, exec, hcount, hset, ne_eq,
      hzero (htrigger trigger rfl (List.Subset.refl _)), Bool.not_eq_false, Option.map_some]
    split <;> rfl
  | check trigger conclusion =>
    simp only [perform, exec, ne_eq,
      hzero (htrigger trigger rfl (List.subset_append_left _ _)), Bool.not_eq_false,
      hzero (hcondition (List.mem_append_right _ List.mem_cons_self))]
    split <;> rfl
  | checkAt counter delay conclusion =>
    obtain ⟨hcount, hset⟩ := hs.counter_numbers hown rfl m n
    simp only [perform, exec, hcount, hset, ne_eq,
      hzero (hcondition List.mem_cons_self), Bool.not_eq_false]
    split
    · split <;> rfl
    · rfl
  | checkThrough counter delay last conclusion =>
    obtain ⟨hcount, hset⟩ := hs.counter_numbers hown rfl m n
    simp only [perform, exec, hcount, hset, ne_eq,
      hzero (hcondition List.mem_cons_self), Bool.not_eq_false]
    split
    · split
      · rw [Option.map_some]
        split <;> rfl
      · rfl
    · rfl
  | checkBy counter delay last conclusion =>
    obtain ⟨hcount, hset⟩ := hs.counter_numbers hown rfl m n
    simp only [perform, exec, hcount, hset, ne_eq,
      hzero (hcondition List.mem_cons_self), Bool.not_eq_false]
    split
    · split
      · rfl
      · split <;> rfl
    · rfl

end

/-! ## Whole monitors -/

def conditions (m : Monitor) : List Condition :=
  (m.updates ++ m.checks).flatMap Statement.conditions

/-- Whether all that the lines compare by `==` or `!=` is zero or one.  A flag is so anyway. -/
def ComparesTruths (m : Monitor) (run : Nat → Values) : Prop :=
  ∀ c ∈ m.conditions, ∀ e ∈ c.compared, Declaration.flag e ∉ m.declarations →
    ∀ n, run n e = 0 ∨ run n e = 1

/-- Whether the lines of a monitor tell its variables, the step counter and all else apart. -/
structure Fits (m : Monitor) (step : String) : Prop where
  nodup : m.names.Nodup
  own : step ∉ m.names
  statements : ∀ s ∈ m.updates ++ m.checks, s.Fits m.declarations step

section

variable {m : Monitor} {step : String} {run : Nat → Values}

theorem mem_of_mem_distinct {s : Statement} (hs : s ∈ m.distinct.updates ++ m.distinct.checks) :
    s ∈ m.updates ++ m.checks :=
  List.mem_append.mpr ((List.mem_append.mp hs).imp (fun hs ↦ distinctLines_subset _ hs)
    fun hs ↦ distinctLines_subset _ hs)

theorem Fits.distinct (h : m.Fits step) : m.distinct.Fits step where
  nodup := h.nodup
  own := h.own
  statements s hs := h.statements s (mem_of_mem_distinct hs)

theorem ComparesTruths.distinct (h : m.ComparesTruths run) : m.distinct.ComparesTruths run := by
  intro c hc
  obtain ⟨s, hs, hc⟩ := List.mem_flatMap.mp hc
  exact h c (List.mem_flatMap.mpr ⟨s, mem_of_mem_distinct hs, hc⟩)

/-- Lines do with numbers what their statements do with truth values. -/
theorem performAll_numbers (h : m.Fits step) (hcompared : m.ComparesTruths run) {n : Nat}
    {ss : List Statement} (hss : ss ⊆ m.updates ++ m.checks) {memory : Memory}
    (hmemory : Host.HasFlags m.declarations memory) :
    Environment.performAll (fun n _ ↦ run n) step n ss (memory.numbers m.declarations step n) =
      (execAll n (truthsOf run n) ss memory).map (·.numbers m.declarations step n) := by
  induction ss generalizing memory with
  | nil => rfl
  | cons s ss ih =>
    have hs : s ∈ m.updates ++ m.checks := hss List.mem_cons_self
    have hstatement : s.perform step (run n) (memory.numbers m.declarations step n) =
        (s.exec n (truthsOf run n) memory).map (·.numbers m.declarations step n) :=
      Statement.perform_numbers h.nodup h.own (h.statements s hs) hmemory fun c hc e he hflag ↦
        hcompared c (List.mem_flatMap.mpr ⟨s, hs, hc⟩) e he hflag n
    rw [Environment.performAll_cons, hstatement, execAll, Option.bind_map, Option.map_bind]
    refine Option.bind_congr fun next hnext ↦ ?_
    exact ih (fun t ht ↦ hss (List.mem_cons_of_mem s ht))
      fun x hx ↦ s.isSome_flags_exec hnext (hmemory x hx)

/-- When a step begins, the variables of the lines are those of the memory. -/
theorem run_numbers (h : m.Fits step) (hcompared : m.ComparesTruths run) (n : Nat) :
    (Environment.run (fun n _ ↦ run n) step m n).map (·.set step n) =
      (m.memoryAt (truthsOf run) n).map (·.numbers m.declarations step n) := by
  induction n with
  | zero =>
    rw [Environment.run, memoryAt, Option.map_some, Option.map_some]
    congr 1
    funext x
    simp only [Variables.set, Memory.numbers, declared, initial]
    split
    · rfl
    · split
      · rfl
      · split <;> rfl
  | succ n ih =>
    have hblocks (memory : Memory) (hmemory : m.memoryAt (truthsOf run) n = some memory) :
        (Environment.performAll (fun n _ ↦ run n) step n m.updates
            (memory.numbers m.declarations step n)).bind
          (Environment.performAll (fun n _ ↦ run n) step n m.checks) =
        (m.exec n (truthsOf run n) memory).map (·.numbers m.declarations step n) := by
      have hflags := Host.hasFlags_memoryAt hmemory
      rw [performAll_numbers h hcompared (List.subset_append_left _ _) hflags, exec,
        Option.bind_map, Option.map_bind]
      refine Option.bind_congr fun next hnext ↦ ?_
      exact performAll_numbers h hcompared (List.subset_append_right _ _) (hflags.execAll hnext)
    have hstep : Environment.run (fun n _ ↦ run n) step m (n + 1) =
        (m.memoryAt (truthsOf run) (n + 1)).map (·.numbers m.declarations step n) := by
      rw [memoryAt, Option.map_bind]
      refine Eq.trans ?_ (Option.bind_congr hblocks)
      have hbind := congrArg (Option.bind · fun v ↦
        (Environment.performAll (fun n _ ↦ run n) step n m.updates v).bind
          (Environment.performAll (fun n _ ↦ run n) step n m.checks)) ih
      rwa [Option.bind_map, Option.bind_map] at hbind
    rw [hstep, Option.map_map]
    exact congrArg (Option.map · _) (funext fun memory ↦ memory.numbers_set_step (n + 1))

/-- The lines of a monitor raise an alarm exactly where the monitor fails on truth values. -/
theorem alarms_iff_fails (h : m.Fits step) (hcompared : m.ComparesTruths run) :
    m.Alarms step run ↔ m.Fails (truthsOf run) :=
  exists_congr fun n ↦ by
    rw [← Option.map_eq_none_iff (f := (·.set step n)), run_numbers h hcompared,
      Option.map_eq_none_iff]

end

end TemporalRequirements.Monitor

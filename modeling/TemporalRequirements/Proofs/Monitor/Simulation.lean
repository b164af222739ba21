import TemporalRequirements.Proofs.Monitor.Soundness

/-!
# Monitors as counters over truth values

Of a run, the monitor of a conclusion reads two truth values at each step: whether an obligation
begins and whether the conclusion holds.  A counter that drops no waiting obligation is a function
of these values alone, and the monitor fails exactly where that function does.
-/

namespace TemporalRequirements.Monitor

/-- If each step keeps an invariant and the step of some number fails wherever it holds, the run
fails. -/
theorem fails_of_exec_eq_none {m : Monitor} {run : Observations} {n : Nat}
    (Inv : Nat → Memory → Prop) (hinitial : Inv 0 m.initial)
    (hstep : ∀ k memory next, Inv k memory → m.exec k (run k) memory = some next →
      Inv (k + 1) next)
    (hnone : ∀ memory, Inv n memory → m.exec n (run n) memory = none) : m.Fails run := by
  have hrun (k : Nat) (memory : Memory) (h : m.memoryAt run k = some memory) : Inv k memory := by
    induction k generalizing memory with
    | zero => exact Option.some.inj h ▸ hinitial
    | succ k ih =>
      obtain ⟨before, hbefore, hexec⟩ := Option.bind_eq_some_iff.mp h
      exact hstep k before memory (ih before hbefore) hexec
  refine ⟨n + 1, ?_⟩
  cases hmemory : m.memoryAt run n with
  | none => rw [memoryAt, hmemory, Option.bind_none]
  | some memory => rw [memoryAt, hmemory, Option.bind_some, hnone memory (hrun n memory hmemory)]

/-! ## Counters over truth values -/

/-- A counter after a step, unless its check is not met. -/
def stepCount (delay : UInt32) (window : Window) (starts holds : Bool) (count : Int) : Option Int :=
  checkCount delay window holds (startCount starts (advanceCount count))

/-- The counter before the step of this number, unless a check was not met earlier. -/
def countAt (delay : UInt32) (window : Window) (starts holds : Nat → Bool) : Nat → Option Int
  | 0 => some resting
  | n + 1 =>
    (countAt delay window starts holds n).bind (stepCount delay window (starts n) (holds n))

/-! ## Monitors of conclusions -/

section Conclusions

variable {name counter : String} {run : Observations} {premise : Premise}
  {starts holds : Nat → Bool} {delay : UInt32} {window : Window} {timed : Timed}
  {conclusion : Condition}

/-- A step of a monitor is a step of its counter, if no waiting obligation can be dropped. -/
theorem exec_counterMonitor_eq_stepCount {n : Nat} {m : Memory}
    (hobserves : premise.Observes run (starts · = true))
    (hcore : ∀ n (m : Memory), premise.Ready run n m.flags →
      (conclusion.eval (m.read (run n)) = true ↔ holds n = true))
    (hkept : delay.toNat = 0 ∨ premise.trigger.premise = none)
    (hready : premise.Ready run n m.flags) :
    ((counterMonitor counter premise delay window conclusion).exec n (run n) m = none ∧
        stepCount delay window (starts n) (holds n) (m.counters counter) = none) ∨
      ∃ next,
        (counterMonitor counter premise delay window conclusion).exec n (run n) m = some next ∧
        premise.Ready run (n + 1) next.flags ∧
        stepCount delay window (starts n) (holds n) (m.counters counter) =
          some (next.counters counter) := by
  obtain ⟨observed, hready', htrigger, hexec⟩ :=
    exec_counterMonitor counter delay window conclusion hobserves hready
  have hstarts : premise.trigger.eval n (observed.read (run n)) = starts n :=
    Bool.eq_iff_iff.mpr htrigger
  have hholds : conclusion.eval (observed.read (run n)) = holds n :=
    Bool.eq_iff_iff.mpr (hcore n observed hready')
  have hpersists : delay.toNat = 0 ∨
      premise.trigger.premise.all (Condition.eval (observed.read (run n))) = true := by
    rcases hkept with hzero | hnone
    · exact Or.inl hzero
    · exact Or.inr (by rw [hnone, Option.all_none])
  rw [hstarts, hholds, updateCount, cancelCount_eq_self _ hpersists] at hexec
  unfold stepCount
  cases hcheck : checkCount delay window (holds n)
      (startCount (starts n) (advanceCount (m.counters counter))) with
  | none =>
    left
    refine ⟨?_, rfl⟩
    rw [hexec, hcheck, Option.map_none, Option.bind_none]
  | some count =>
    right
    obtain ⟨next, hlatches, hsame, hnext⟩ :=
      hobserves.latches n (observed.setCounter counter count) hready'
    refine ⟨next, ?_, hnext, ?_⟩
    · rw [hexec, hcheck, Option.map_some, Option.bind_some, hlatches]
    · rw [hsame, Memory.counters_setCounter]

/-- Before each step the counter of a monitor is the counter over truth values, or both have
failed. -/
theorem memoryAt_counterMonitor (hobserves : premise.Observes run (starts · = true))
    (hcore : ∀ n (m : Memory), premise.Ready run n m.flags →
      (conclusion.eval (m.read (run n)) = true ↔ holds n = true))
    (hkept : delay.toNat = 0 ∨ premise.trigger.premise = none) (n : Nat) :
    ((counterMonitor counter premise delay window conclusion).memoryAt run n = none ∧
        countAt delay window starts holds n = none) ∨
      ∃ memory,
        (counterMonitor counter premise delay window conclusion).memoryAt run n = some memory ∧
        premise.Ready run n memory.flags ∧
        countAt delay window starts holds n = some (memory.counters counter) := by
  induction n with
  | zero =>
    obtain ⟨hready, hresting⟩ :=
      initial_counterMonitor run premise counter delay window conclusion
    exact Or.inr ⟨_, rfl, hready, congrArg some hresting.symm⟩
  | succ n ih =>
    rcases ih with ⟨hnone, hcount⟩ | ⟨memory, hmemory, hready, hcount⟩
    · left
      rw [memoryAt, hnone, countAt, hcount]
      exact ⟨rfl, rfl⟩
    · rw [memoryAt, hmemory, Option.bind_some, countAt, hcount, Option.bind_some]
      exact exec_counterMonitor_eq_stepCount hobserves hcore hkept hready

/-- The monitor of a conclusion fails exactly where its counter does, if it has a counter and no
waiting obligation can be dropped. -/
theorem fails_iff_countAt (hobserves : premise.Observes run (starts · = true))
    (hspelled : premise.Spelled)
    (hcore : ∀ n (m : Memory), premise.Ready run n m.flags →
      (conclusion.eval (m.read (run n)) = true ↔ holds n = true))
    (hdelay : timed.delay - premise.lag = delay)
    (hcounted : ¬ (delay = 0 ∧ timed.window = .instant))
    (hkept : delay.toNat = 0 ∨ premise.trigger.premise = none) :
    (ofConclusion name premise timed conclusion).distinct.Fails run ↔
      ∃ n, countAt delay timed.window starts holds n = none := by
  subst hdelay
  rw [distinct_ofConclusion name timed conclusion hspelled]
  rcases ofConclusion_cases name premise timed conclusion with ⟨hplain, -⟩ | ⟨-, hcounter⟩
  · exact absurd hplain hcounted
  rw [hcounter]
  apply exists_congr
  intro n
  rcases memoryAt_counterMonitor hobserves hcore hkept n with
    ⟨hnone, hcount⟩ | ⟨memory, hmemory, -, hcount⟩
  · rw [hnone, hcount]
    exact iff_of_true rfl rfl
  · rw [hmemory, hcount]
    exact iff_of_false (Option.some_ne_none _) (Option.some_ne_none _)

/-- The monitor of a conclusion that is due at once and at one step only fails exactly if the
conclusion does not hold at some start. -/
theorem fails_iff_of_plain {starts core : Nat → Prop} (hobserves : premise.Observes run starts)
    (hspelled : premise.Spelled)
    (hcore : ∀ n (m : Memory), premise.Ready run n m.flags →
      (conclusion.eval (m.read (run n)) = true ↔ core n))
    (hplain : timed.delay - premise.lag = 0 ∧ timed.window = .instant) :
    (ofConclusion name premise timed conclusion).distinct.Fails run ↔
      ∃ s, starts s ∧ ¬ core s := by
  constructor
  · intro hfails
    have hunmet := exists_unmet_of_conclusion hobserves hspelled hcore
      (by rw [hplain.1, hplain.2]; decide) hfails
    rwa [hplain.1, hplain.2] at hunmet
  · rintro ⟨s, hstarts, hunmet⟩
    rw [distinct_ofConclusion name timed conclusion hspelled]
    rcases ofConclusion_cases name premise timed conclusion with ⟨-, heq⟩ | ⟨hcounted, -⟩
    case inr => exact absurd hplain hcounted
    rw [heq]
    apply fails_of_exec_eq_none fun n memory ↦ premise.Ready run n memory.flags
    · exact ready_initial fun x hx ↦ hx
    · intro n memory next hready hexec
      rcases exec_plainMonitor hobserves hcore hready with ⟨hnone, -⟩ | ⟨next', hnext, hready', -⟩
      · simp [hexec] at hnone
      · obtain rfl : next = next' := Option.some.inj (hexec.symm.trans hnext)
        exact hready'
    · intro memory hready
      rcases exec_plainMonitor hobserves hcore hready with ⟨hnone, -⟩ | ⟨-, -, -, hmet⟩
      · exact hnone
      · exact absurd (hmet hstarts) hunmet

end Conclusions

end TemporalRequirements.Monitor

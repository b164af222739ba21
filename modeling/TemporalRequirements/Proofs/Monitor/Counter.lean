import Mathlib.Algebra.Group.Int.Defs
import Mathlib.Algebra.Group.Nat.Defs
import TemporalRequirements.Proofs.Monitor.Meaning

/-!
# Counters of obligations

What one step does to the counter of a monitor depends on three truth values only: whether an
obligation starts, whether the premise persists and whether the conclusion holds.  A counter that
is not at rest holds the number of steps since a start, and no window that may still be met has
been met since.
-/

namespace TemporalRequirements.Monitor

namespace Memory

variable (m : Memory) (c : String) (v w : Int) (now : Observation)

@[simp] theorem flags_setCounter : (m.setCounter c v).flags = m.flags := rfl

@[simp] theorem counters_setCounter : (m.setCounter c v).counters c = v := if_pos rfl

@[simp] theorem read_setCounter : (m.setCounter c v).read now = m.read now := rfl

@[simp] theorem setCounter_counters : m.setCounter c (m.counters c) = m := by
  have h : (fun x ↦ if x = c then m.counters c else m.counters x) = m.counters := by
    funext x
    by_cases hx : x = c
    · rw [if_pos hx, hx]
    · rw [if_neg hx]
  rw [setCounter, h]

@[simp] theorem setCounter_setCounter : (m.setCounter c v).setCounter c w = m.setCounter c w := by
  have h : (fun x ↦ if x = c then w else if x = c then v else m.counters x) =
      fun x ↦ if x = c then w else m.counters x := by
    funext x
    by_cases hx : x = c
    · rw [if_pos hx, if_pos hx]
    · rw [if_neg hx, if_neg hx, if_neg hx]
  unfold setCounter
  rw [h]

theorem ite_setCounter (p : Prop) [Decidable p] :
    (if p then m.setCounter c v else m) = m.setCounter c (if p then v else m.counters c) := by
  by_cases hp : p
  · rw [if_pos hp, if_pos hp]
  · rw [if_neg hp, if_neg hp, setCounter_counters]

@[simp] theorem counters_setFlag (b : Bool) : (m.setFlag c b).counters = m.counters := rfl

end Memory

/-! ## One step of a counter -/

def advanceCount (count : Int) : Int := if 0 ≤ count then succCount count else count

/-- A counter after an obligation that still waits is dropped, unless the premise persists. -/
def cancelCount (delay : UInt32) (persists : Bool) (count : Int) : Int :=
  if 0 ≤ count ∧ count < delay.toNat ∧ persists = false then resting else count

/-- A counter after an obligation starts, unless one is open. -/
def startCount (starts : Bool) (count : Int) : Int :=
  if count < 0 ∧ starts = true then 0 else count

def updateCount (delay : UInt32) (starts persists : Bool) (count : Int) : Int :=
  startCount starts (cancelCount delay persists (advanceCount count))

/-- A counter after its check, unless the check is not met. -/
def checkCount (delay : UInt32) (window : Window) (holds : Bool) (count : Int) : Option Int :=
  match window with
  | .instant =>
    if count = delay.toNat then if holds then some resting else none else some count
  | .within n =>
    if delay.toNat ≤ count then
      if holds then some resting
      else if count < (addCapped delay n).toNat then some count else none
    else some count
  | .throughout n =>
    if delay.toNat ≤ count then
      if holds then some (if (addCapped delay n).toNat ≤ count then resting else count) else none
    else some count

variable {step : Nat} {now : Observation} {m : Memory} {counter : String} {delay : UInt32}

theorem exec_advance : (Statement.advance counter).exec step now m =
    some (m.setCounter counter (advanceCount (m.counters counter))) := by
  rw [Statement.exec, Memory.ite_setCounter, advanceCount]

theorem exec_cancel (premise : Condition) :
    (Statement.cancel counter delay premise).exec step now m =
      some (m.setCounter counter
        (cancelCount delay (premise.eval (m.read now)) (m.counters counter))) := by
  rw [Statement.exec, Memory.ite_setCounter, cancelCount]

theorem exec_start (trigger : Trigger) :
    (Statement.start counter trigger).exec step now m =
      some (m.setCounter counter
        (startCount (trigger.eval step (m.read now)) (m.counters counter))) := by
  rw [Statement.exec, Memory.ite_setCounter, startCount]

theorem cancelCount_eq_self (persists : Bool) {count : Int}
    (h : delay.toNat = 0 ∨ persists = true) : cancelCount delay persists count = count := by
  apply if_neg
  rintro ⟨hpos, hlt, hpersists⟩
  rcases h with hzero | htrue
  · omega
  · rw [htrue] at hpersists
    cases hpersists

/-- The updates of a counter change the counter and nothing else. -/
theorem exec_counterUpdates (trigger : Trigger) :
    execAll step now (counterUpdates counter delay trigger) m =
      some (m.setCounter counter (updateCount delay (trigger.eval step (m.read now))
        (trigger.premise.all (Condition.eval (m.read now))) (m.counters counter))) := by
  obtain ⟨guard, premise⟩ := trigger
  cases premise with
  | none =>
    simp [counterUpdates, execAll, exec_advance, exec_start, updateCount, cancelCount_eq_self]
  | some premise =>
    by_cases hdelay : delay > 0
    · simp [counterUpdates, hdelay, execAll, exec_advance, exec_cancel, exec_start, updateCount]
    · -- no count is below a delay of zero, so the cancelling that is left out does nothing
      have hzero : delay.toNat = 0 := by
        rw [gt_iff_lt, UInt32.lt_iff_toNat_lt] at hdelay
        simpa using hdelay
      simp [counterUpdates, hdelay, execAll, exec_advance, exec_start, updateCount,
        cancelCount_eq_self, hzero]

/-- The check of a counter changes the counter and nothing else. -/
theorem exec_counterCheck (window : Window) (conclusion : Condition) :
    (counterCheck counter delay window conclusion).exec step now m =
      (checkCount delay window (conclusion.eval (m.read now)) (m.counters counter)).map
        (m.setCounter counter) := by
  cases window with
  | instant =>
    simp only [counterCheck, Statement.exec, checkCount]
    split
    · cases conclusion.eval (m.read now) <;> simp
    · simp
  | within n =>
    simp only [counterCheck, Statement.exec, checkCount]
    split
    · cases conclusion.eval (m.read now) with
      | true => simp
      | false => split <;> simp_all
    · simp
  | throughout n =>
    simp only [counterCheck, Statement.exec, checkCount]
    split
    · cases conclusion.eval (m.read now) with
      | true => simp [Memory.ite_setCounter]
      | false => simp
    · simp

/-! ## What a count tells -/

section Obligations

variable (starts core : Nat → Prop) (delay : UInt32) (window : Window)

/-- An obligation that began at step `s` is open before its check at step `n`: its time is not
over, and a conclusion that may hold anywhere in its window has not held yet. -/
structure Open (n s : Nat) : Prop where
  started : starts s
  began : s ≤ n
  inTime : n ≤ s + delay.toNat + window.steps
  unmet : ∀ steps, window = .within steps → ∀ k, s + delay.toNat ≤ k → k < n → ¬ core k

/-- A counter between its updates and its check at step `n`. -/
def CountsAt (n : Nat) (count : Int) : Prop :=
  count = resting ∨ ∃ s, Open starts core delay window n s ∧ count = n - s

def CountsBefore (n : Nat) (count : Int) : Prop :=
  count = resting ∨ ∃ s, s < n ∧ Open starts core delay window n s ∧ count = n - 1 - s

variable {starts core delay window}

theorem succCount_of_lt {count : Int} (hpos : 0 ≤ count) (hlt : count + 1 < 2 ^ 31) :
    succCount count = count + 1 := by
  unfold succCount
  apply Int.bmod_eq_of_le_mul_two
  · have hsize : (UInt32.size : Int) = 2 ^ 32 := rfl
    omega
  · have hsize : (UInt32.size : Int) = 2 ^ 32 := rfl
    omega

/-- Counting the step carries an open obligation on. -/
theorem countsAt_advanceCount {n : Nat} {count : Int}
    (hfits : delay.toNat + window.steps < 2 ^ 31)
    (h : CountsBefore starts core delay window n count) :
    CountsAt starts core delay window n (advanceCount count) := by
  rcases h with rfl | ⟨s, hsn, hopen, rfl⟩
  · exact Or.inl rfl
  · have hin := hopen.inTime
    right
    refine ⟨s, hopen, ?_⟩
    rw [advanceCount, if_pos (by omega), succCount_of_lt (by omega) (by omega)]
    omega

/-- The updates carry an open obligation on or begin one. -/
theorem countsAt_updateCount {n : Nat} {count : Int} {trigger persists : Bool}
    (hfits : delay.toNat + window.steps < 2 ^ 31) (htrigger : trigger = true → starts n)
    (h : CountsBefore starts core delay window n count) :
    CountsAt starts core delay window n (updateCount delay trigger persists count) := by
  have hkept : CountsAt starts core delay window n
      (cancelCount delay persists (advanceCount count)) := by
    unfold cancelCount
    split
    · exact Or.inl rfl
    · exact countsAt_advanceCount hfits h
  unfold updateCount startCount
  split
  · rename_i hstart
    right
    refine ⟨n, ⟨htrigger hstart.2, Nat.le_refl n, by omega, ?_⟩, by omega⟩
    intro steps _ k hle hlt
    omega
  · exact hkept

theorem toNat_addCapped_steps {n : UInt32} (hfits : delay.toNat + n.toNat < 2 ^ 31) :
    (addCapped delay n).toNat = delay.toNat + n.toNat := by
  apply toNat_addCapped_of_lt
  have hsize : UInt32.size = 2 ^ 32 := rfl
  omega

/-- The counts at which a conclusion that does not hold is a failure. -/
def Deciding (delay : UInt32) (window : Window) (count : Int) : Prop :=
  match window with
  | .instant => count = delay.toNat
  | .within n => delay.toNat + n.toNat ≤ count
  | .throughout _ => delay.toNat ≤ count

/-- A check that is not met was due, and what it asks for did not hold. -/
theorem checkCount_eq_none {count : Int} {holds : Bool}
    (hfits : delay.toNat + window.steps < 2 ^ 31)
    (h : checkCount delay window holds count = none) :
    holds = false ∧ Deciding delay window count := by
  cases window with
  | instant =>
    simp only [checkCount] at h
    split at h
    · rename_i hdue
      exact ⟨by cases holds <;> simp_all, hdue⟩
    · cases h
  | within n =>
    simp only [checkCount, toNat_addCapped_steps hfits] at h
    split at h
    · cases holds with
      | true => cases h
      | false =>
        rw [if_neg (by simp)] at h
        split at h
        · cases h
        · exact ⟨rfl, by unfold Deciding; omega⟩
    · cases h
  | throughout n =>
    simp only [checkCount] at h
    split at h
    · rename_i hdue
      exact ⟨by cases holds <;> simp_all, hdue⟩
    · cases h

/-- A counter that goes on counting has not reached its last count, and its conclusion has not held
when a window that it may meet anywhere is open. -/
theorem checkCount_eq_some {count next : Int} {holds : Bool}
    (hfits : delay.toNat + window.steps < 2 ^ 31)
    (hlast : count ≤ delay.toNat + window.steps)
    (h : checkCount delay window holds count = some next) :
    next = resting ∨ next = count ∧ count < delay.toNat + window.steps ∧
      ∀ steps, window = .within steps → delay.toNat ≤ count → holds = false := by
  cases window with
  | instant =>
    simp only [checkCount] at h
    simp only [Window.steps] at hlast ⊢
    split at h
    · cases holds <;> simp_all
    · obtain rfl := Option.some.inj h
      exact Or.inr ⟨rfl, by omega, fun steps hw ↦ by cases hw⟩
  | within n =>
    simp only [checkCount, toNat_addCapped_steps hfits] at h
    simp only [Window.steps] at hlast ⊢
    split at h
    · cases holds with
      | true => exact Or.inl (Option.some.inj h).symm
      | false =>
        rw [if_neg (by simp)] at h
        split at h
        · obtain rfl := Option.some.inj h
          exact Or.inr ⟨rfl, by omega, fun _ _ _ ↦ rfl⟩
        · cases h
    · obtain rfl := Option.some.inj h
      exact Or.inr ⟨rfl, by omega, fun _ _ hdue ↦ by omega⟩
  | throughout n =>
    simp only [checkCount, toNat_addCapped_steps hfits] at h
    simp only [Window.steps] at hlast ⊢
    split at h
    · cases holds with
      | false => cases h
      | true =>
        rw [if_pos rfl] at h
        split at h
        · exact Or.inl (Option.some.inj h).symm
        · obtain rfl := Option.some.inj h
          exact Or.inr ⟨rfl, by omega, fun steps hw ↦ by cases hw⟩
    · obtain rfl := Option.some.inj h
      exact Or.inr ⟨rfl, by omega, fun steps hw ↦ by cases hw⟩

/-- A check that is not met shows a start whose conclusion does not hold when it is due. -/
theorem not_holds_of_checkCount {n : Nat} {count : Int} {holds : Bool}
    (hfits : delay.toNat + window.steps < 2 ^ 31) (hholds : holds = true ↔ core n)
    (h : CountsAt starts core delay window n count)
    (hcheck : checkCount delay window holds count = none) :
    ∃ s, starts s ∧ ¬ window.Holds core (s + delay.toNat) := by
  obtain ⟨hfalse, hdue⟩ := checkCount_eq_none hfits hcheck
  have hcore : ¬ core n := fun hn ↦ by simp [hholds.mpr hn] at hfalse
  rcases h with rfl | ⟨s, hopen, rfl⟩
  · cases window <;> simp only [Deciding, resting] at hdue <;> omega
  · refine ⟨s, hopen.started, ?_⟩
    have hbegan := hopen.began
    have hin := hopen.inTime
    cases window with
    | instant =>
      simp only [Deciding] at hdue
      have hn : s + delay.toNat = n := by omega
      rw [Window.Holds, hn]
      exact hcore
    | within steps =>
      simp only [Deciding, Window.steps] at hdue hin
      rintro ⟨k, hle, hkn, hk⟩
      rcases Nat.lt_or_ge k n with hlt | hge
      · exact hopen.unmet steps rfl k hle hlt hk
      · obtain rfl : k = n := by omega
        exact hcore hk
    | throughout steps =>
      simp only [Deciding, Window.steps] at hdue hin
      intro hall
      exact hcore (hall n (by omega) (by omega))

/-- A check that is met leaves the counter at rest or its obligation open. -/
theorem countsBefore_checkCount {n : Nat} {count next : Int} {holds : Bool}
    (hfits : delay.toNat + window.steps < 2 ^ 31) (hholds : holds = true ↔ core n)
    (h : CountsAt starts core delay window n count)
    (hcheck : checkCount delay window holds count = some next) :
    CountsBefore starts core delay window (n + 1) next := by
  rcases h with rfl | ⟨s, hopen, rfl⟩
  · rcases checkCount_eq_some hfits (by unfold resting; omega) hcheck with rfl | ⟨rfl, -⟩
    · exact Or.inl rfl
    · exact Or.inl rfl
  · have hbegan := hopen.began
    have hin := hopen.inTime
    rcases checkCount_eq_some hfits (by omega) hcheck with rfl | ⟨rfl, hlt, hwithin⟩
    · exact Or.inl rfl
    · right
      refine ⟨s, by omega, ⟨hopen.started, by omega, by omega, ?_⟩, by omega⟩
      intro steps hwindow k hle hkn hk
      rcases Nat.lt_or_ge k n with hlt' | hge
      · exact hopen.unmet steps hwindow k hle hlt' hk
      · obtain rfl : k = n := by omega
        have hfalse := hwithin steps hwindow (by omega)
        rw [hholds.mpr hk] at hfalse
        cases hfalse

end Obligations

end TemporalRequirements.Monitor

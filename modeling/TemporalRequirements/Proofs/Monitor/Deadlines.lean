import Mathlib.Logic.Function.Iterate
import TemporalRequirements.Proofs.Grammar.Printed
import TemporalRequirements.Proofs.Monitor.Completeness

/-!
# Deadlines of counters

The counter of a monitor is compared with the first and the last count at which its conclusion is
due.  They are the sums of the timing in front of the conclusion, less the steps after which the
premise is known, but capped at the largest word; and a counter, which is a C integer with a sign,
only counts half as far.  So the deadlines are exact and are reached exactly if the last one is a
C integer.
-/

namespace TemporalRequirements.Monitor

/-- The number of steps that the timing in front of a formula waits: the sum of its next steps and
of its exact bounds. -/
def delayOf : Formula → Nat
  | .unary .next f => delayOf f + 1
  | .bounded .exactly n f => delayOf f + n.toNat
  | .bounded _ _ f => delayOf f
  | _ => 0

/-- The sum of the bounds of the windows in front of a formula. -/
def windowOf : Formula → Nat
  | .unary .next f | .bounded .exactly _ f => windowOf f
  | .bounded _ n f => windowOf f + n.toNat
  | _ => 0

/-- A conclusion reaches as far as its delays and windows add up to. -/
theorem reach_eq_delayOf_add_windowOf (f : Formula) : reach f = delayOf f + windowOf f := by
  induction f with
  | const | atom | binary => rfl
  | unary op f ih =>
    cases op with
    | not | eventually | always => rfl
    | next =>
      simp only [reach, delayOf, windowOf, ih]
      omega
  | bounded op n f ih =>
    cases op <;> simp only [reach, delayOf, windowOf, ih] <;> omega

/-- The largest word. -/
def maxCount : Nat := UInt32.size - 1

theorem toNat_le_maxCount (n : UInt32) : n.toNat ≤ maxCount := Nat.le_pred_of_lt n.toNat_lt

/-- What peeling adds up: the delay, which is capped, and the steps of the window. -/
structure AddsUp (t : Timed) (delay : UInt32) (window : Window) (f : Formula) : Prop where
  delay : t.delay.toNat = min (delay.toNat + delayOf f) maxCount
  window : t.window.steps = window.steps + windowOf f

/-- A formula without timing in front adds nothing. -/
theorem addsUp_leaf {delay : UInt32} {window : Window} {f : Formula} {t : Timed}
    (h : (if f.isTemporal then .error f else .ok ⟨delay, window, f⟩ : Except Formula Timed) =
      .ok t) (hdelay : delayOf f = 0) (hwindow : windowOf f = 0) : AddsUp t delay window f := by
  split at h
  · cases h
  · obtain rfl := Except.ok.inj h
    constructor
    · rw [hdelay, Nat.add_zero, Nat.min_eq_left (toNat_le_maxCount delay)]
    · rw [hwindow, Nat.add_zero]

/-- Capping after each step of the way is capping once, since the counts only grow. -/
theorem AddsUp.of_delay {t : Timed} {delay n : UInt32} {window : Window} {f g : Formula}
    (h : AddsUp t (addCapped delay n) window g) (hdelay : delayOf f = delayOf g + n.toNat)
    (hwindow : windowOf f = windowOf g) : AddsUp t delay window f where
  delay := by
    rw [h.delay, toNat_addCapped, hdelay]
    unfold maxCount
    omega
  window := by rw [h.window, hwindow]

/-- Peeling adds up the delays and the windows in front of a conclusion. -/
theorem addsUp_of_peel {delay : UInt32} {window : Window} {f : Formula} {t : Timed}
    (h : peel delay window f = .ok t) : AddsUp t delay window f := by
  induction f generalizing delay window with
  | const | atom | binary => exact addsUp_leaf h rfl rfl
  | unary op f ih =>
    cases op with
    | not | eventually | always => exact addsUp_leaf h rfl rfl
    | next =>
      have hrest : AddsUp t (addCapped delay 1) window f := ih h
      exact hrest.of_delay rfl rfl
  | bounded op n f ih =>
    cases op with
    | exactly =>
      have hrest : AddsUp t (addCapped delay n) window f := ih h
      exact hrest.of_delay rfl rfl
    | eventuallyWithin | alwaysWithin =>
      rw [peel] at h
      cases window with
      | within m | throughout m => cases h
      | instant =>
        rw [if_pos rfl] at h
        obtain ⟨hdelay, hwindow⟩ := ih h
        refine ⟨hdelay, ?_⟩
        rw [hwindow]
        simp only [Window.steps, windowOf]
        omega

/-! ## Counts that a counter is compared with -/

/-- The counts with which a statement compares its counter, besides telling whether it rests. -/
def Statement.deadlines : Statement → List UInt32
  | .observe _ _ | .latch _ _ | .advance _ | .start _ _ | .check _ _ => []
  | .cancel _ delay _ | .checkAt _ delay _ => [delay]
  | .checkThrough _ delay last _ | .checkBy _ delay last _ => [delay, last]

/-- The counts with which the statements of a monitor compare its counter. -/
def deadlines (m : Monitor) : List UInt32 := (m.updates ++ m.checks).flatMap Statement.deadlines

/-- The last count of a window that opens after a delay. -/
def Window.last (delay : UInt32) : Window → UInt32
  | .instant => delay
  | .within n | .throughout n => addCapped delay n

theorem Window.toNat_last (delay : UInt32) (w : Window) :
    (w.last delay).toNat = min (delay.toNat + w.steps) maxCount := by
  cases w with
  | instant => exact (Nat.min_eq_left (toNat_le_maxCount delay)).symm
  | within n | throughout n => exact toNat_addCapped delay n

theorem mem_deadlines_counterCheck {counter : String} {delay d : UInt32} {window : Window}
    {conclusion : Condition} : d ∈ (counterCheck counter delay window conclusion).deadlines ↔
      d = delay ∨ d = window.last delay := by
  cases window <;> simp [counterCheck, Statement.deadlines, Window.last]

theorem eq_of_mem_deadlines_counterUpdates {counter : String} {delay d : UInt32}
    {trigger : Trigger} {s : Statement} (hs : s ∈ counterUpdates counter delay trigger)
    (hd : d ∈ s.deadlines) : d = delay := by
  rw [counterUpdates] at hs
  rcases List.mem_cons.mp hs with rfl | hs
  · cases hd
  rcases List.mem_append.mp hs with hs | hs
  · split at hs
    · split at hs
      · obtain rfl := List.mem_singleton.mp hs
        exact List.mem_singleton.mp hd
      · cases hs
    · cases hs
  · obtain rfl := List.mem_singleton.mp hs
    cases hd

variable {i : Interface} {name step : String} {scope : Scope}

/-- A premise is observed without a counter. -/
theorem deadlines_premiseOf {c : Formula} {delay : UInt32} {p : Option Formula}
    {premise : Premise} (h : premiseOf i name step scope c delay p = .ok premise) {s : Statement}
    (hs : s ∈ premise.updates ++ premise.latches) : s.deadlines = [] := by
  rcases premiseOf_cases h with ⟨-, rfl⟩ | ⟨q, condition, -, -, rfl⟩ | ⟨q, -, -, hlooking⟩
  · cases hs
  · cases hs
  · obtain ⟨condition, -, rfl⟩ := lookingPremise_eq_ok hlooking
    rcases List.mem_append.mp hs with hs | hs
    · obtain rfl := List.mem_singleton.mp hs
      rfl
    · obtain ⟨e, -, rfl⟩ := List.mem_map.mp hs
      rfl

/-- A premise is known no later than its conclusion is due. -/
theorem lag_le_of_premiseOf {c : Formula} {delay : UInt32} {p : Option Formula}
    {premise : Premise} (h : premiseOf i name step scope c delay p = .ok premise) :
    premise.lag.toNat ≤ delay.toNat := by
  rcases premiseOf_cases h with ⟨-, rfl⟩ | ⟨q, condition, -, -, rfl⟩ | ⟨q, -, hdelay, hlooking⟩
  · exact Nat.zero_le _
  · exact Nat.zero_le _
  · obtain ⟨condition, -, rfl⟩ := lookingPremise_eq_ok hlooking
    exact Nat.one_le_iff_ne_zero.mpr fun hzero ↦ hdelay (UInt32.toNat_inj.mp hzero)

/-- The monitor of a conclusion compares with the first and the last count at which the conclusion
is due, unless it is due at once and at one step only. -/
theorem mem_deadlines_ofConclusion {premise : Premise} {timed : Timed} {conclusion : Condition}
    (hpremise : ∀ s ∈ premise.updates ++ premise.latches, s.deadlines = []) {d : UInt32} :
    d ∈ (ofConclusion name premise timed conclusion).deadlines ↔
      ¬ (timed.delay - premise.lag = 0 ∧ timed.window = .instant) ∧
        (d = timed.delay - premise.lag ∨ d = timed.window.last (timed.delay - premise.lag)) := by
  have hupdates (s : Statement) (hs : s ∈ premise.updates) : d ∉ s.deadlines := by
    rw [hpremise s (List.mem_append_left _ hs)]
    exact List.not_mem_nil
  have hlatches (s : Statement) (hs : s ∈ premise.latches) : d ∉ s.deadlines := by
    rw [hpremise s (List.mem_append_right _ hs)]
    exact List.not_mem_nil
  rw [deadlines, List.mem_flatMap]
  rcases ofConclusion_cases name premise timed conclusion with ⟨hplain, heq⟩ | ⟨hcounter, heq⟩
  · rw [heq]
    constructor
    · rintro ⟨s, hs, hd⟩
      rcases List.mem_append.mp hs with hs | hs
      · exact absurd hd (hupdates s hs)
      · rcases List.mem_cons.mp hs with rfl | hs
        · cases hd
        · exact absurd hd (hlatches s hs)
    · exact fun h ↦ absurd hplain h.1
  · rw [heq]
    constructor
    · rintro ⟨s, hs, hd⟩
      refine ⟨hcounter, ?_⟩
      rcases List.mem_append.mp hs with hs | hs
      · rcases List.mem_append.mp hs with hs | hs
        · exact absurd hd (hupdates s hs)
        · exact Or.inl (eq_of_mem_deadlines_counterUpdates hs hd)
      · rcases List.mem_cons.mp hs with rfl | hs
        · exact mem_deadlines_counterCheck.mp hd
        · exact absurd hd (hlatches s hs)
    · rintro ⟨-, hd⟩
      exact ⟨_, List.mem_append_right _ List.mem_cons_self, mem_deadlines_counterCheck.mpr hd⟩

/-! ## Counts that a counter reaches -/

/-- Whether a counter that starts gets to a count by counting steps. -/
def IsReached (d : UInt32) : Prop := ∃ steps, advanceCount^[steps] 0 = d.toNat

theorem iterate_advanceCount {steps : Nat} (h : steps < 2 ^ 31) :
    advanceCount^[steps] 0 = steps := by
  induction steps with
  | zero => rfl
  | succ n ih =>
    rw [Function.iterate_succ_apply', ih (by omega), advanceCount, if_pos (by omega),
      succCount_of_lt (by omega) (by omega)]
    rfl

/-- Counting wraps around at the end of the C integers, so it stays among them. -/
theorem advanceCount_lt (count : Int) (h : count < 2 ^ 31) : advanceCount count < 2 ^ 31 := by
  unfold advanceCount
  split
  · have hsize : (UInt32.size : Int) = 2 ^ 32 := rfl
    have hlt : succCount count < ((UInt32.size : Int) + 1) / 2 := Int.bmod_lt (by decide)
    omega
  · exact h

/-- A counter gets to the counts that are C integers. -/
theorem isReached_iff {d : UInt32} : IsReached d ↔ d.toNat < 2 ^ 31 := by
  constructor
  · rintro ⟨steps, hsteps⟩
    have hlt (n : Nat) : advanceCount^[n] 0 < 2 ^ 31 := by
      induction n with
      | zero => decide
      | succ n ih =>
        rw [Function.iterate_succ_apply']
        exact advanceCount_lt _ ih
    have hd := hlt steps
    omega
  · intro h
    exact ⟨d.toNat, iterate_advanceCount h⟩

/-- The first and the last deadline of a conclusion that is known `lag` steps late: the sum of the
delays in front of it and that of its window as well, both cut off at the largest word. -/
structure DeadlinesOf (f : Formula) (lag : Nat) (first last : UInt32) : Prop where
  opens : first.toNat + lag = min (delayOf f) maxCount
  closes : last.toNat = min (first.toNat + windowOf f) maxCount

/-- A monitor compares with no other counts than its two deadlines, and with both unless the
conclusion is due as soon as its premise is known. -/
theorem exists_deadlinesOf {f : Formula} {m : Monitor}
    (h : ofFormula i name step scope f = .ok m) :
    ∃ first last,
      DeadlinesOf (splitImplication f).2 (lagOf (splitImplication f).1).toNat first last ∧
      (∀ d ∈ m.deadlines, d = first ∨ d = last) ∧
      (last ≠ 0 → first ∈ m.deadlines ∧ last ∈ m.deadlines) := by
  rcases ofFormula_cases h with ⟨l, r, rfl, hequivalence⟩ |
    ⟨timed, conclusion, premise, htimed, -, hpremise, rfl⟩
  · obtain ⟨cl, cr, -, -, rfl⟩ := ofEquivalence_eq_ok hequivalence
    exact ⟨0, 0, ⟨rfl, rfl⟩, fun d hd ↦ (List.not_mem_nil hd).elim, fun hne ↦ absurd rfl hne⟩
  · obtain ⟨hdelay, hwindow⟩ := addsUp_of_peel htimed
    have hlag := lag_le_of_premiseOf hpremise
    have hsub : (timed.delay - premise.lag).toNat = timed.delay.toNat - premise.lag.toNat :=
      UInt32.toNat_sub_of_le _ _ (UInt32.le_iff_toNat_le.mpr hlag)
    have hmem (d : UInt32) : d ∈ (ofConclusion name premise timed conclusion).deadlines ↔
        ¬ (timed.delay - premise.lag = 0 ∧ timed.window = .instant) ∧
          (d = timed.delay - premise.lag ∨ d = timed.window.last (timed.delay - premise.lag)) :=
      mem_deadlines_ofConclusion fun s hs ↦ deadlines_premiseOf hpremise hs
    refine ⟨timed.delay - premise.lag, timed.window.last (timed.delay - premise.lag), ⟨?_, ?_⟩,
      fun d hd ↦ ((hmem d).mp hd).2, fun hne ↦ ?_⟩
    · rw [hsub, ← lag_premiseOf hpremise, Nat.sub_add_cancel hlag, hdelay]
      simp
    · rw [Window.toNat_last, hwindow]
      simp [Window.steps]
    · have hcounter : ¬ (timed.delay - premise.lag = 0 ∧ timed.window = .instant) := by
        rintro ⟨hzero, hinstant⟩
        rw [hzero, hinstant] at hne
        exact hne rfl
      exact ⟨(hmem _).mpr ⟨hcounter, Or.inl rfl⟩, (hmem _).mpr ⟨hcounter, Or.inr rfl⟩⟩

/-- The deadlines of a monitor are the first and the last step at which its conclusion is due, as
far as these are words, and less one step if its premise is known one step late.  They are exact,
and the counter reaches them, if and only if the last one is a C integer. -/
theorem deadlines_exact_iff {c : Chunk} {m : Monitor} (h : ofChunk i name step c = .ok m) :
    let conclusion := (splitImplication (scopeOf c).2).2
    let lag := (lagOf (splitImplication (scopeOf c).2).1).toNat
    (∃ first last, DeadlinesOf conclusion lag first last ∧
      ∀ d ∈ m.deadlines, d = first ∨ d = last) ∧
    ((∀ d ∈ m.deadlines,
        (d.toNat + lag = delayOf conclusion ∨ d.toNat + lag = reach conclusion) ∧ IsReached d) ↔
      reach conclusion < 2 ^ 31 + lag) := by
  intro conclusion lag
  obtain ⟨first, last, hdeadlines, honly, hboth⟩ := exists_deadlinesOf (ofFormula_of_ofChunk h)
  have hmax : maxCount = 2 ^ 32 - 1 := rfl
  have hfirst : first.toNat + lag = min (delayOf conclusion) maxCount := hdeadlines.opens
  have hlast : last.toNat = min (first.toNat + windowOf conclusion) maxCount := hdeadlines.closes
  have hreach : reach conclusion = delayOf conclusion + windowOf conclusion :=
    reach_eq_delayOf_add_windowOf conclusion
  have hlag : lag ≤ 1 := lag_le_one _
  refine ⟨⟨first, last, hdeadlines, honly⟩, ?_, ?_⟩
  · intro hexact
    by_cases hzero : last = 0
    · -- a last deadline of zero leaves no room for a window, nor for a delay beyond the lag
      rw [hzero, UInt32.toNat_zero] at hlast
      omega
    · obtain ⟨hmemFirst, hmemLast⟩ := hboth hzero
      have hfitsFirst := isReached_iff.mp (hexact first hmemFirst).2
      have hfitsLast := isReached_iff.mp (hexact last hmemLast).2
      omega
  · intro hfits d hd
    rw [isReached_iff]
    rcases honly d hd with rfl | rfl <;> omega

/-- A premise that is known one step late, and a conclusion with delays inside of its window. -/
theorem deadlines_exact_iff_delayed :
    ∃ f m, Chunk.parse "G((a && X b) -> X G<=2 F=3 c)" = .ok ⟨none, f⟩ ∧
      ofChunk .empty "P_0" "i" ⟨none, f⟩ = .ok m ∧ m.deadlines = [3, 3, 5] ∧
      ∀ d ∈ m.deadlines, (d.toNat + 1 = 4 ∨ d.toNat + 1 = 6) ∧ IsReached d := by
  let p : Formula := .binary .and (.atom (.var "a")) (.unary .next (.atom (.var "b")))
  let c : Formula :=
    .unary .next (.bounded .alwaysWithin 2 (.bounded .exactly 3 (.atom (.var "c"))))
  let f : Formula := .unary .always (.binary .implies p c)
  have hparse : Chunk.parse "G((a && X b) -> X G<=2 F=3 c)" = .ok ⟨none, f⟩ :=
    eq_ok_of_toOption (by decide +kernel)
  have hmonitor : ofChunk .empty "P_0" "i" ⟨none, f⟩ = .ok _ := rfl
  exact ⟨f, _, hparse, hmonitor, by decide, (deadlines_exact_iff hmonitor).2.mpr (by decide)⟩

/-- A deadline that is a word but no C integer, which the counter does not reach, and a delay that is
no word, whose deadline comes one step too early. -/
theorem deadlines_beyond_counter :
    (∃ f m, Chunk.parse "G(p -> F=2147483648 c)" = .ok ⟨none, f⟩ ∧
      ofChunk .empty "P_0" "i" ⟨none, f⟩ = .ok m ∧
      2147483648 ∈ m.deadlines ∧ ¬ IsReached 2147483648) ∧
    ∃ f m, Chunk.parse "G(p -> X F=4294967295 c)" = .ok ⟨none, f⟩ ∧
      ofChunk .empty "P_0" "i" ⟨none, f⟩ = .ok m ∧
      delayOf (splitImplication (scopeOf ⟨none, f⟩).2).2 = 4294967296 ∧
      m.deadlines = [4294967295, 4294967295] := by
  let late : Formula := .bounded .exactly 2147483648 (.atom (.var "c"))
  let later : Formula := .unary .next (.bounded .exactly 4294967295 (.atom (.var "c")))
  let property (conclusion : Formula) : Formula :=
    .unary .always (.binary .implies (.atom (.var "p")) conclusion)
  have hlate : Chunk.parse "G(p -> F=2147483648 c)" = .ok ⟨none, property late⟩ :=
    eq_ok_of_toOption (by decide +kernel)
  have hlater : Chunk.parse "G(p -> X F=4294967295 c)" = .ok ⟨none, property later⟩ :=
    eq_ok_of_toOption (by decide +kernel)
  have hunreached : ¬ IsReached 2147483648 := by
    rw [isReached_iff]
    decide
  exact ⟨⟨_, _, hlate, rfl, by decide, hunreached⟩, ⟨_, _, hlater, rfl, rfl, rfl⟩⟩

end TemporalRequirements.Monitor

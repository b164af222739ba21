import TemporalRequirements.Proofs.Monitor.Simulation

/-!
# Monitors that miss nothing

One counter is enough for a conclusion that is due as soon as its premise is known, at once or
within a window.  An obligation that begins while an older one is open is not counted on its own,
but the older one is decided no later, and what meets the older one meets the newer one too.  An
equivalence needs no counter, but it needs both of its lines.
-/

namespace TemporalRequirements.Monitor

variable {i : Interface} {name step : String} {scope : Scope} {run : Observations}

/-- Whether the two lines of an equivalence differ, or its sides have the same truth value at every
step.  A bundle keeps a line once, so of two equal lines one would be missing. -/
def LinesDiffer (i : Interface) (run : Observations) (guard : Option Guard) (l r : Formula) : Prop :=
  ∀ cl cr, presentCondition i l = .ok cl → presentCondition i r = .ok cr →
    (Statement.check ⟨guard, some cl⟩ cr).text = (Statement.check ⟨guard, some cr⟩ cl).text →
    ∀ n, cl.eval (run n) = cr.eval (run n)

/-- If both checks of an equivalence are met at a step of the scope, the equivalence holds there. -/
theorem holds_of_exec_equivalence {l r : Formula} {cl cr : Condition} {n : Nat} {m : Memory}
    (hl : presentCondition i l = .ok cl) (hr : presentCondition i r = .ok cr)
    (hflags : ∀ x, m.flags x = none) (hcovers : scope.Covers n)
    (hmet : ∀ s ∈ [Statement.check ⟨scope.guard step 0, some cl⟩ cr,
      .check ⟨scope.guard step 0, some cr⟩ cl], s.exec n (run n) m = some m) :
    (Formula.binary .iff l r).Holds (traceOf i run) n := by
  have hforward := hmet _ List.mem_cons_self
  have hbackward := hmet _ (List.mem_cons_of_mem _ List.mem_cons_self)
  constructor
  · rcases exec_scoped_check hl hr hflags with ⟨hnone, -⟩ | ⟨-, himplies⟩
    · exact absurd (hforward.symm.trans hnone) (Option.some_ne_none m)
    · exact himplies hcovers
  · rcases exec_scoped_check hr hl hflags with ⟨hnone, -⟩ | ⟨-, himplies⟩
    · exact absurd (hbackward.symm.trans hnone) (Option.some_ne_none m)
    · exact himplies hcovers

/-- The monitor of an equivalence misses nothing, if no line that decides something is left out. -/
theorem fails_of_equivalence {l r : Formula} {m : Monitor} {k : Nat}
    (h : ofEquivalence i (scope.guard step 0) l r = .ok m)
    (hlines : LinesDiffer i run (scope.guard step 0) l r) (hcovers : scope.Covers k)
    (hviolated : ¬ (Formula.binary .iff l r).Holds (traceOf i run) k) : m.distinct.Fails run := by
  obtain ⟨cl, cr, hl, hr, rfl⟩ := ofEquivalence_eq_ok h
  apply fails_of_exec_eq_none (n := k) fun _ memory ↦ ∀ x, memory.flags x = none
  · intro x
    rfl
  · intro n memory next hflags hexec
    rcases exec_equivalence hl hr hflags (distinctLines_subset _) with ⟨hnone, -⟩ | ⟨hsome, -⟩
    · exact absurd (hnone.symm.trans hexec) (Option.some_ne_none next).symm
    · obtain rfl : memory = next := Option.some.inj (hsome.symm.trans hexec)
      exact hflags
  · intro memory hflags
    rcases exec_equivalence hl hr hflags (distinctLines_subset _) with ⟨hnone, -⟩ | ⟨-, hmet⟩
    · exact hnone
    · exfalso
      apply hviolated
      by_cases htext : (Statement.check ⟨scope.guard step 0, some cl⟩ cr).text =
          (Statement.check ⟨scope.guard step 0, some cr⟩ cl).text
      · -- sides with the same value need no check
        have hread : memory.read (run k) = run k := funext fun e ↦ by
          rw [Memory.read, hflags, Option.getD_none]
        have hleft : cl.eval (memory.read (run k)) = true ↔ l.Holds (traceOf i run) k :=
          eval_presentCondition hl fun a _ ↦ hflags (a.expression i)
        have hright : cr.eval (memory.read (run k)) = true ↔ r.Holds (traceOf i run) k :=
          eval_presentCondition hr fun a _ ↦ hflags (a.expression i)
        rw [hread, hlines cl cr hl hr htext k] at hleft
        exact hleft.symm.trans (hread ▸ hright)
      · rw [distinctLines_eq_self (by simpa using htext)] at hmet
        exact holds_of_exec_equivalence hl hr hflags hcovers hmet

/-! ## Windows that open at once -/

theorem le_startCount (starts : Bool) (count : Int) : count ≤ startCount starts count := by
  unfold startCount
  split
  · omega
  · exact Int.le_refl count

theorem startCount_nonneg (count : Int) : 0 ≤ startCount true count := by
  unfold startCount
  split
  · exact Int.le_refl 0
  · simp_all

/-- A counter whose conclusion does not hold has at least the age of any obligation that is not met
yet: either its own obligation or an older one. -/
theorem age_le_countAt {n : UInt32} {starts holds : Nat → Bool} {s : Nat}
    (hfits : n.toNat < 2 ^ 31) (hstarts : starts s = true)
    (hunmet : ∀ k, s ≤ k → k ≤ s + n.toNat → holds k = false) {j : Nat} (hj : j ≤ n.toNat)
    {count : Int} (hcount : countAt 0 (.within n) starts holds (s + j) = some count) :
    (j : Int) ≤ startCount (starts (s + j)) (advanceCount count) := by
  have hzero : (0 : UInt32).toNat = 0 := rfl
  induction j generalizing count with
  | zero =>
    rw [Nat.add_zero, hstarts]
    exact startCount_nonneg (advanceCount count)
  | succ j ih =>
    rw [← Nat.add_assoc, countAt, Option.bind_eq_some_iff] at hcount
    obtain ⟨before, hbefore, hstep⟩ := hcount
    have hage := ih (by omega) hbefore
    rw [stepCount, checkCount, hunmet (s + j) (by omega) (by omega),
      toNat_addCapped_steps (by omega), if_pos (by omega), if_neg (by simp)] at hstep
    split at hstep
    · rename_i hlt
      obtain rfl := Option.some.inj hstep
      have hnext : advanceCount (startCount (starts (s + j)) (advanceCount before)) =
          startCount (starts (s + j)) (advanceCount before) + 1 := by
        rw [advanceCount, if_pos (by omega), succCount_of_lt (by omega) (by omega)]
      have hle := le_startCount (starts (s + (j + 1)))
        (advanceCount (startCount (starts (s + j)) (advanceCount before)))
      omega
    · cases hstep

/-- A counter fails if some obligation is not met in its window. -/
theorem countAt_eq_none_of_unmet {n : UInt32} {starts holds : Nat → Bool} {s : Nat}
    (hfits : n.toNat < 2 ^ 31) (hstarts : starts s = true)
    (hunmet : ∀ k, s ≤ k → k ≤ s + n.toNat → holds k = false) :
    ∃ k, countAt 0 (.within n) starts holds k = none := by
  have hzero : (0 : UInt32).toNat = 0 := rfl
  cases hcount : countAt 0 (.within n) starts holds (s + n.toNat) with
  | none => exact ⟨_, hcount⟩
  | some count =>
    refine ⟨s + n.toNat + 1, ?_⟩
    have hage := age_le_countAt hfits hstarts hunmet (Nat.le_refl _) hcount
    rw [countAt, hcount, Option.bind_some, stepCount, checkCount,
      hunmet (s + n.toNat) (by omega) (by omega), toNat_addCapped_steps (by omega),
      if_pos (by omega), if_neg (by simp), if_neg (by omega)]

/-! ## Conclusions and whole properties -/

/-- How many steps late the premise of a property is known: a premise that looks ahead is known
one step late. -/
def lagOf : Option Formula → UInt32
  | none => 0
  | some p => if p.nextDepth = 0 then 0 else 1

theorem lag_le_one (p : Option Formula) : (lagOf p).toNat ≤ 1 := by
  cases p with
  | none => exact Nat.zero_le 1
  | some p =>
    rw [lagOf]
    split
    · exact Nat.zero_le 1
    · exact Nat.le_refl 1

/-- A premise is known as many steps late as its operators say. -/
theorem lag_premiseOf {c : Formula} {delay : UInt32} {p : Option Formula} {premise : Premise}
    (h : premiseOf i name step scope c delay p = .ok premise) : premise.lag = lagOf p := by
  cases p with
  | none => exact congrArg Premise.lag (Except.ok.inj h).symm
  | some q =>
    rw [premiseOf] at h
    rw [lagOf]
    split at h
    · rename_i hdepth
      rw [if_pos hdepth]
      cases hcondition : presentCondition i q with
      | error e =>
        rw [hcondition] at h
        cases h
      | ok condition =>
        rw [hcondition] at h
        exact congrArg Premise.lag (Except.ok.inj h).symm
    · rename_i hdepth
      rw [if_neg hdepth]
      split at h
      · cases h
      · split at h
        · cases h
        · obtain ⟨condition, -, rfl⟩ := lookingPremise_eq_ok h
          rfl

/-- A conclusion that is due when its premise is known, at once or at least once in a window. -/
structure DueWhenKnown (timed : Timed) (lag : UInt32) : Prop where
  delay : timed.delay = lag
  window : timed.window = .instant ∨ ∃ n, timed.window = .within n ∧ n.toNat < 2 ^ 31

/-- The shapes of properties for which one counter is enough. -/
def OneCounterIsEnough : Formula → Prop
  | .binary .iff _ _ => True
  | f => ∃ timed, peel 0 .instant (splitImplication f).2 = .ok timed ∧
      DueWhenKnown timed (lagOf (splitImplication f).1)

/-- The monitor of a conclusion that is due when its premise is known misses nothing. -/
theorem fails_of_unmet {premise : Premise} {starts core : Nat → Prop} {timed : Timed}
    {conclusion : Condition} {s : Nat} (hobserves : premise.Observes run starts)
    (hspelled : premise.Spelled)
    (hcore : ∀ n (m : Memory), premise.Ready run n m.flags →
      (conclusion.eval (m.read (run n)) = true ↔ core n))
    (hdue : DueWhenKnown timed premise.lag) (hstarts : starts s)
    (hunmet : ¬ timed.window.Holds core s) :
    (ofConclusion name premise timed conclusion).distinct.Fails run := by
  have hdelay : timed.delay - premise.lag = 0 := by rw [hdue.delay, UInt32.sub_self]
  rcases hdue.window with hwindow | ⟨n, hwindow, hfits⟩
  · rw [hwindow] at hunmet
    exact (fails_iff_of_plain hobserves hspelled hcore ⟨hdelay, hwindow⟩).mpr ⟨s, hstarts, hunmet⟩
  · classical
    rw [hwindow] at hunmet
    have hsimulation : (ofConclusion name premise timed conclusion).distinct.Fails run ↔
        ∃ k, countAt 0 timed.window (fun k ↦ decide (starts k)) (fun k ↦ decide (core k)) k = none :=
      fails_iff_countAt (by simpa using hobserves) hspelled (by simpa using hcore) hdelay
        (by simp [hwindow]) (Or.inl rfl)
    rw [hsimulation, hwindow]
    apply countAt_eq_none_of_unmet hfits (decide_eq_true hstarts)
    intro k hsk hks
    exact decide_eq_false fun hk ↦ hunmet ⟨k, hsk, hks, hk⟩

/-- Counts that are capped are never too large, so a timing that comes out small was small. -/
theorem reach_le_of_peel {delay : UInt32} {window : Window} {f : Formula} {t : Timed}
    (h : peel delay window f = .ok t) :
    min (delay.toNat + window.steps + reach f) (UInt32.size - 1) ≤
      t.delay.toNat + t.window.steps := by
  induction f generalizing delay window with
  | const b | atom a | binary op l r ihl ihr =>
    rw [(peeledFrom_leaf h rfl).steps]
    exact Nat.min_le_left _ _
  | unary op f ih =>
    cases op with
    | not | eventually | always =>
      rw [(peeledFrom_leaf h rfl).steps]
      exact Nat.min_le_left _ _
    | next =>
      have hrest : min ((addCapped delay 1).toNat + window.steps + reach f) (UInt32.size - 1) ≤
          t.delay.toNat + t.window.steps := ih h
      rw [toNat_addCapped, UInt32.toNat_one] at hrest
      rw [reach]
      omega
  | bounded op n f ih =>
    rw [reach]
    cases op with
    | exactly =>
      have hrest : min ((addCapped delay n).toNat + window.steps + reach f) (UInt32.size - 1) ≤
          t.delay.toNat + t.window.steps := ih h
      rw [toNat_addCapped] at hrest
      omega
    | eventuallyWithin | alwaysWithin =>
      rw [peel] at h
      cases window with
      | within m | throughout m => cases h
      | instant =>
        rw [if_pos rfl] at h
        have hrest := ih h
        simp only [Window.steps] at hrest ⊢
        omega

/-- A conclusion that is due when its premise is known was peeled without capping a count. -/
theorem DueWhenKnown.reach_lt {timed : Timed} {f : Formula} {p : Option Formula}
    (hdue : DueWhenKnown timed (lagOf p)) (h : peel 0 .instant f = .ok timed) :
    reach f < UInt32.size := by
  have hreach := reach_le_of_peel h
  have hlag := lag_le_one p
  have hsize : UInt32.size = 2 ^ 32 := rfl
  rw [hdue.delay] at hreach
  rcases hdue.window with hwindow | ⟨n, hwindow, hfits⟩ <;>
    rw [hwindow] at hreach <;> simp only [Window.steps, UInt32.toNat_zero] at hreach <;> omega

/-- A monitor for which one counter is enough fails if the formula does not hold at some step of the
scope. -/
theorem fails_of_formula {f : Formula} {m : Monitor} {k : Nat}
    (h : ofFormula i name step scope f = .ok m)
    (henough : OneCounterIsEnough f)
    (hlines : ∀ l r, f = .binary .iff l r → LinesDiffer i run (scope.guard step 0) l r)
    (hfree : ∀ a ∈ f.atoms, Declaration.flag (a.expression i) ∉ m.declarations)
    (hcovers : scope.Covers k) (hviolated : ¬ f.Holds (traceOf i run) k) :
    m.distinct.Fails run := by
  unfold OneCounterIsEnough at henough
  split at henough
  · exact fails_of_equivalence h (hlines _ _ rfl) hcovers hviolated
  · rename_i hplain
    rcases ofFormula_cases h with ⟨l, r, rfl, -⟩ |
      ⟨timed, conclusion, premise, htimed, hconclusion, hpremise, rfl⟩
    · exact absurd rfl (hplain l r)
    obtain ⟨timed', htimed', hdue⟩ := henough
    obtain rfl : timed = timed' := Except.ok.inj (htimed.symm.trans htimed')
    have hpeeled : PeeledFrom timed 0 .instant (splitImplication f).2 :=
      peel_spec htimed (by simpa [Window.steps] using hdue.reach_lt htimed)
    rw [← lag_premiseOf hpremise] at hdue
    obtain ⟨hlag, hobserves, hcore⟩ :=
      observes_ofFormula run hpeeled.atoms hconclusion hpremise hfree
    obtain ⟨hholds, hunmet⟩ := (not_holds_iff_unmet hpeeled hlag).mp hviolated
    rw [hdue.delay, UInt32.sub_self, UInt32.toNat_zero, Nat.add_zero] at hunmet
    exact fails_of_unmet hobserves (spelled_premiseOf hpremise) hcore hdue
      ⟨k, rfl, hcovers, hholds⟩ hunmet

/-- The monitor of a property for which one counter is enough rejects every run that does not
satisfy the property in its scope, if none of the atoms is spelled like a flag of the monitor. -/
theorem fails_of_not_holds {c : Chunk} {m : Monitor} (h : ofChunk i name step c = .ok m)
    (henough : OneCounterIsEnough (scopeOf c).2)
    (hlines : ∀ l r, (scopeOf c).2 = .binary .iff l r →
      LinesDiffer i run ((scopeOf c).1.guard step 0) l r)
    (hfree : ∀ a ∈ c.formula.atoms, Declaration.flag (a.expression i) ∉ m.declarations)
    (hviolated : ¬ c.scoped.Holds (traceOf i run) 0) : m.distinct.Fails run := by
  rw [scoped_holds_iff] at hviolated
  push Not at hviolated
  obtain ⟨k, hcovers, hnot⟩ := hviolated
  exact fails_of_formula (ofFormula_of_ofChunk h) henough hlines
    (fun a ha ↦ hfree a (scopeOf_atoms c ▸ ha)) hcovers hnot

end TemporalRequirements.Monitor

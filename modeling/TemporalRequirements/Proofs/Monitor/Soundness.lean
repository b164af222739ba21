import TemporalRequirements.Proofs.Monitor.Counter
import TemporalRequirements.Proofs.Monitor.Lines

/-!
# Monitors raise no false alarm

A monitor whose run fails shows a step of the scope of its property at which the body of the
property does not hold.  The invariant of the run is that the latches hold the values of the step
before and that a counter which is not at rest belongs to an obligation that is still open.
-/

namespace TemporalRequirements.Monitor

variable {i : Interface} {name step : String} {scope : Scope} {run : Observations}

/-- A check is not met where its trigger holds and its conclusion does not, and changes nothing. -/
theorem exec_check_cases (n : Nat) (now : Observation) (m : Memory) (trigger : Trigger)
    (conclusion : Condition) :
    ((Statement.check trigger conclusion).exec n now m = none ∧
        trigger.eval n (m.read now) = true ∧ conclusion.eval (m.read now) = false) ∨
      ((Statement.check trigger conclusion).exec n now m = some m ∧
        (trigger.eval n (m.read now) = true → conclusion.eval (m.read now) = true)) := by
  rw [Statement.exec]
  split
  · rename_i h
    exact Or.inl ⟨rfl, h⟩
  · rename_i h
    refine Or.inr ⟨rfl, fun htrigger ↦ ?_⟩
    by_contra hfalse
    exact h ⟨htrigger, Bool.eq_false_iff.mpr hfalse⟩

/-- A check whose trigger is guarded by the scope is not met at a step of the scope at which its
premise holds and its conclusion does not. -/
theorem exec_scoped_check {p c : Formula} {premise conclusion : Condition} {n : Nat} {m : Memory}
    (hp : presentCondition i p = .ok premise) (hc : presentCondition i c = .ok conclusion)
    (hflags : ∀ x, m.flags x = none) :
    ((Statement.check ⟨scope.guard step 0, some premise⟩ conclusion).exec n (run n) m = none ∧
        scope.Covers n ∧ p.Holds (traceOf i run) n ∧ ¬ c.Holds (traceOf i run) n) ∨
      ((Statement.check ⟨scope.guard step 0, some premise⟩ conclusion).exec n (run n) m = some m ∧
        (scope.Covers n → p.Holds (traceOf i run) n → c.Holds (traceOf i run) n)) := by
  have hpremise : premise.eval (m.read (run n)) = true ↔ p.Holds (traceOf i run) n :=
    eval_presentCondition hp fun a _ ↦ hflags (a.expression i)
  have hconclusion : conclusion.eval (m.read (run n)) = true ↔ c.Holds (traceOf i run) n :=
    eval_presentCondition hc fun a _ ↦ hflags (a.expression i)
  have htrigger : Trigger.eval n (m.read (run n)) ⟨scope.guard step 0, some premise⟩ = true ↔
      scope.Covers n ∧ p.Holds (traceOf i run) n := by
    rw [Trigger.eval, Bool.and_eq_true, Option.all_some, eval_guard, hpremise]
    simp
  rcases exec_check_cases n (run n) m ⟨scope.guard step 0, some premise⟩ conclusion with
    ⟨hnone, hstarts, hfalse⟩ | ⟨hsome, hmet⟩
  · obtain ⟨hcovers, hholds⟩ := htrigger.mp hstarts
    refine Or.inl ⟨hnone, hcovers, hholds, ?_⟩
    rw [← hconclusion, hfalse]
    exact Bool.false_ne_true
  · exact Or.inr ⟨hsome, fun hcovers hholds ↦
      hconclusion.mp (hmet (htrigger.mpr ⟨hcovers, hholds⟩))⟩

/-- The checks of an equivalence are met, unless it does not hold at a step of the scope. -/
theorem exec_equivalence {l r : Formula} {cl cr : Condition} {n : Nat} {m : Memory}
    (hl : presentCondition i l = .ok cl) (hr : presentCondition i r = .ok cr)
    (hflags : ∀ x, m.flags x = none) {ss : List Statement}
    (hss : ss ⊆ [.check ⟨scope.guard step 0, some cl⟩ cr,
      .check ⟨scope.guard step 0, some cr⟩ cl]) :
    (execAll n (run n) ss m = none ∧
        scope.Covers n ∧ ¬ (Formula.binary .iff l r).Holds (traceOf i run) n) ∨
      (execAll n (run n) ss m = some m ∧ ∀ s ∈ ss, s.exec n (run n) m = some m) := by
  induction ss with
  | nil => exact Or.inr ⟨rfl, by simp⟩
  | cons s ss ih =>
    obtain ⟨hs, hrest⟩ := List.cons_subset.mp hss
    have hstatement : (s.exec n (run n) m = none ∧
        scope.Covers n ∧ ¬ (Formula.binary .iff l r).Holds (traceOf i run) n) ∨
        s.exec n (run n) m = some m := by
      rw [Formula.holds_binary, BinaryOp.Holds]
      simp only [List.mem_cons, List.not_mem_nil, or_false] at hs
      rcases hs with rfl | rfl
      · rcases exec_scoped_check hl hr hflags with ⟨hnone, hcovers, hholds, hnot⟩ | ⟨hsome, -⟩
        · exact Or.inl ⟨hnone, hcovers, fun hiff ↦ hnot (hiff.mp hholds)⟩
        · exact Or.inr hsome
      · rcases exec_scoped_check hr hl hflags with ⟨hnone, hcovers, hholds, hnot⟩ | ⟨hsome, -⟩
        · exact Or.inl ⟨hnone, hcovers, fun hiff ↦ hnot (hiff.mpr hholds)⟩
        · exact Or.inr hsome
    rcases hstatement with ⟨hnone, hfails⟩ | hsome
    · exact Or.inl ⟨by rw [execAll, hnone, Option.bind_none], hfails⟩
    · rw [execAll, hsome, Option.bind_some, List.forall_mem_cons]
      rcases ih hrest with hfails | ⟨hmet, hall⟩
      · exact Or.inl hfails
      · exact Or.inr ⟨hmet, hsome, hall⟩

/-- An equivalence is checked by a line for each direction. -/
theorem ofEquivalence_eq_ok {guard : Option Guard} {l r : Formula} {m : Monitor}
    (h : ofEquivalence i guard l r = .ok m) :
    ∃ cl cr, presentCondition i l = .ok cl ∧ presentCondition i r = .ok cr ∧
      m = ⟨[], [], [.check ⟨guard, some cl⟩ cr, .check ⟨guard, some cr⟩ cl]⟩ := by
  unfold ofEquivalence at h
  cases hl : presentCondition i l with
  | error e =>
    rw [hl] at h
    cases h
  | ok cl =>
    cases hr : presentCondition i r with
    | error e =>
      rw [hl, hr] at h
      cases h
    | ok cr =>
      rw [hl, hr] at h
      exact ⟨cl, cr, rfl, rfl, (Except.ok.inj h).symm⟩

/-- A failing check of an equivalence shows a step at which its sides differ. -/
theorem exists_not_holds_of_equivalence {l r : Formula} {m : Monitor}
    (h : ofEquivalence i (scope.guard step 0) l r = .ok m) (hfails : m.distinct.Fails run) :
    ∃ k, scope.Covers k ∧ ¬ (Formula.binary .iff l r).Holds (traceOf i run) k := by
  obtain ⟨cl, cr, hl, hr, rfl⟩ := ofEquivalence_eq_ok h
  apply hfails.elim fun _ memory ↦ ∀ x, memory.flags x = none
  · intro x
    rfl
  · intro n memory hflags
    rcases exec_equivalence hl hr hflags (distinctLines_subset _) with ⟨-, hunmet⟩ | ⟨hsome, -⟩
    · exact Or.inl ⟨n, hunmet⟩
    · exact Or.inr ⟨memory, hsome, hflags⟩

/-! ## Conclusions -/

section Conclusions

variable {premise : Premise} {starts core : Nat → Prop} {timed : Timed} {conclusion : Condition}

/-- The monitor of a conclusion that is due at once and at one step only. -/
def plainMonitor (premise : Premise) (conclusion : Condition) : Monitor :=
  ⟨premise.declarations, premise.updates, .check premise.trigger conclusion :: premise.latches⟩

def counterMonitor (counter : String) (premise : Premise) (delay : UInt32) (window : Window)
    (conclusion : Condition) : Monitor :=
  ⟨premise.declarations ++ [.counter counter],
    premise.updates ++ counterUpdates counter delay premise.trigger,
    counterCheck counter delay window conclusion :: premise.latches⟩

/-- A conclusion is checked at once or decided by a counter. -/
theorem ofConclusion_cases (name : String) (premise : Premise) (timed : Timed)
    (conclusion : Condition) :
    ((timed.delay - premise.lag = 0 ∧ timed.window = .instant) ∧
      ofConclusion name premise timed conclusion = plainMonitor premise conclusion) ∨
    (¬ (timed.delay - premise.lag = 0 ∧ timed.window = .instant) ∧
      ofConclusion name premise timed conclusion =
        counterMonitor ("Counter_" ++ name) premise (timed.delay - premise.lag) timed.window
          conclusion) := by
  by_cases hplain : timed.delay - premise.lag = 0 ∧ timed.window = .instant
  · exact Or.inl ⟨hplain, by simp [ofConclusion, plainMonitor, hplain]⟩
  · exact Or.inr ⟨hplain, by simp [ofConclusion, counterMonitor, hplain]⟩

theorem ready_initial {m : Monitor}
    (h : ∀ x, Declaration.flag x ∈ m.declarations → Declaration.flag x ∈ premise.declarations) :
    premise.Ready run 0 m.initial.flags where
  undeclared x hx := if_neg fun hmem ↦ hx (h x hmem)
  latched hpos := absurd hpos (Nat.lt_irrefl 0)

/-- A counter is at rest before the first step. -/
theorem initial_counterMonitor (run : Observations) (premise : Premise) (counter : String)
    (delay : UInt32) (window : Window) (conclusion : Condition) :
    premise.Ready run 0 (counterMonitor counter premise delay window conclusion).initial.flags ∧
      (counterMonitor counter premise delay window conclusion).initial.counters counter =
        resting := by
  constructor
  · apply ready_initial
    intro x hx
    rcases List.mem_append.mp hx with hx | hx
    · exact hx
    · cases List.mem_singleton.mp hx
  · have hdeclared : Declaration.counter counter ∈
        (counterMonitor counter premise delay window conclusion).declarations :=
      List.mem_append_right _ List.mem_cons_self
    exact if_pos hdeclared

/-- A conclusion that is due at once and at one step only is checked where the trigger holds. -/
theorem exec_plainMonitor {n : Nat} {m : Memory} (hobserves : premise.Observes run starts)
    (hcore : ∀ n (m : Memory), premise.Ready run n m.flags →
      (conclusion.eval (m.read (run n)) = true ↔ core n))
    (hready : premise.Ready run n m.flags) :
    ((plainMonitor premise conclusion).exec n (run n) m = none ∧ starts n ∧ ¬ core n) ∨
      ∃ next, (plainMonitor premise conclusion).exec n (run n) m = some next ∧
        premise.Ready run (n + 1) next.flags ∧ (starts n → core n) := by
  obtain ⟨observed, hupdates, -, hready', htrigger⟩ := hobserves.updates n m hready
  have hholds := hcore n observed hready'
  rw [exec, plainMonitor, hupdates, Option.bind_some, execAll]
  rcases exec_check_cases n (run n) observed premise.trigger conclusion with
    ⟨hnone, hstarts, hfalse⟩ | ⟨hsome, hmet⟩
  · left
    refine ⟨by rw [hnone, Option.bind_none], htrigger.mp hstarts, ?_⟩
    rw [← hholds, hfalse]
    exact Bool.false_ne_true
  · right
    obtain ⟨next, hlatches, -, hnext⟩ := hobserves.latches n observed hready'
    refine ⟨next, by rw [hsome, Option.bind_some, hlatches], hnext, ?_⟩
    rw [← htrigger, ← hholds]
    exact hmet

/-- A step of a counter updates it and checks it, and only then keeps the values that the latches
need. -/
theorem exec_counterMonitor {n : Nat} {m : Memory} (counter : String) (delay : UInt32)
    (window : Window) (conclusion : Condition) (hobserves : premise.Observes run starts)
    (hready : premise.Ready run n m.flags) :
    ∃ observed : Memory, premise.Ready run n observed.flags ∧
      (premise.trigger.eval n (observed.read (run n)) = true ↔ starts n) ∧
      (counterMonitor counter premise delay window conclusion).exec n (run n) m =
        ((checkCount delay window (conclusion.eval (observed.read (run n)))
          (updateCount delay (premise.trigger.eval n (observed.read (run n)))
            (premise.trigger.premise.all (Condition.eval (observed.read (run n))))
            (m.counters counter))).map (observed.setCounter counter)).bind
          (execAll n (run n) premise.latches) := by
  obtain ⟨observed, hupdates, hcounters, hready', htrigger⟩ := hobserves.updates n m hready
  refine ⟨observed, hready', htrigger, ?_⟩
  have hagain (count : Int) : (observed.setCounter counter count).setCounter counter =
      observed.setCounter counter :=
    funext fun value ↦ observed.setCounter_setCounter counter count value
  rw [exec, counterMonitor, execAll_append, hupdates, Option.bind_some, exec_counterUpdates,
    Option.bind_some, execAll, exec_counterCheck, Memory.read_setCounter,
    Memory.counters_setCounter, hagain, hcounters]

/-- A step of a counter keeps its invariant, unless a conclusion is not met in its window. -/
theorem step_counter {n : Nat} {m : Memory} {counter : String} {delay : UInt32} {window : Window}
    (hobserves : premise.Observes run starts)
    (hcore : ∀ n (m : Memory), premise.Ready run n m.flags →
      (conclusion.eval (m.read (run n)) = true ↔ core n))
    (hfits : delay.toNat + window.steps < 2 ^ 31)
    (hready : premise.Ready run n m.flags)
    (hcounts : CountsBefore starts core delay window n (m.counters counter)) :
    (∃ s, starts s ∧ ¬ window.Holds core (s + delay.toNat)) ∨
      ∃ next, (counterMonitor counter premise delay window conclusion).exec n (run n) m =
          some next ∧
        premise.Ready run (n + 1) next.flags ∧
        CountsBefore starts core delay window (n + 1) (next.counters counter) := by
  obtain ⟨observed, hready', htrigger, hexec⟩ :=
    exec_counterMonitor counter delay window conclusion hobserves hready
  obtain ⟨count, hcount⟩ : ∃ count, updateCount delay
    (premise.trigger.eval n (observed.read (run n)))
    (premise.trigger.premise.all (Condition.eval (observed.read (run n))))
    (m.counters counter) = count := ⟨_, rfl⟩
  have hcounts' : CountsAt starts core delay window n count :=
    hcount ▸ countsAt_updateCount hfits htrigger.mp hcounts
  have hholds := hcore n observed hready'
  rw [hcount] at hexec
  cases hcheck : checkCount delay window (conclusion.eval (observed.read (run n))) count with
  | none => exact Or.inl (not_holds_of_checkCount hfits hholds hcounts' hcheck)
  | some value =>
    right
    obtain ⟨next, hlatches, hsame, hnext⟩ :=
      hobserves.latches n (observed.setCounter counter value) hready'
    refine ⟨next, ?_, hnext, ?_⟩
    · rw [hexec, hcheck, Option.map_some, Option.bind_some, hlatches]
    · rw [hsame, Memory.counters_setCounter]
      exact countsBefore_checkCount hfits hholds hcounts' hcheck

/-- The monitor of a conclusion fails only if the conclusion is not met in the window of some
start. -/
theorem exists_unmet_of_conclusion (hobserves : premise.Observes run starts)
    (hspelled : premise.Spelled)
    (hcore : ∀ n (m : Memory), premise.Ready run n m.flags →
      (conclusion.eval (m.read (run n)) = true ↔ core n))
    (hfits : (timed.delay - premise.lag).toNat + timed.window.steps < 2 ^ 31)
    (hfails : (ofConclusion name premise timed conclusion).distinct.Fails run) :
    ∃ s, starts s ∧ ¬ timed.window.Holds core (s + (timed.delay - premise.lag).toNat) := by
  rw [distinct_ofConclusion name timed conclusion hspelled] at hfails
  rcases ofConclusion_cases name premise timed conclusion with
    ⟨⟨hdelay, hwindow⟩, hplain⟩ | ⟨-, hcounter⟩
  · rw [hplain] at hfails
    rw [hdelay, hwindow]
    apply hfails.elim fun n memory ↦ premise.Ready run n memory.flags
    · exact ready_initial fun x hx ↦ hx
    · intro n memory hready
      rcases exec_plainMonitor hobserves hcore hready with ⟨-, hunmet⟩ | ⟨next, hnext, hready', -⟩
      · exact Or.inl ⟨n, hunmet⟩
      · exact Or.inr ⟨next, hnext, hready'⟩
  · rw [hcounter] at hfails
    apply hfails.elim fun n memory ↦ premise.Ready run n memory.flags ∧
      CountsBefore starts core (timed.delay - premise.lag) timed.window n
        (memory.counters ("Counter_" ++ name))
    · have hinitial := initial_counterMonitor run premise ("Counter_" ++ name)
        (timed.delay - premise.lag) timed.window conclusion
      exact ⟨hinitial.1, Or.inl hinitial.2⟩
    · rintro n memory ⟨hready, hcounts⟩
      exact step_counter hobserves hcore hfits hready hcounts

end Conclusions

/-! ## Whole properties -/

/-- A monitor is that of an equivalence or of a conclusion under a premise. -/
theorem ofFormula_cases {f : Formula} {m : Monitor} (h : ofFormula i name step scope f = .ok m) :
    (∃ l r, f = .binary .iff l r ∧ ofEquivalence i (scope.guard step 0) l r = .ok m) ∨
    ∃ timed conclusion premise, peel 0 .instant (splitImplication f).2 = .ok timed ∧
      presentCondition i timed.core = .ok conclusion ∧
      premiseOf i name step scope (splitImplication f).2 timed.delay (splitImplication f).1 =
        .ok premise ∧
      m = ofConclusion name premise timed conclusion := by
  unfold ofFormula at h
  split at h
  · exact Or.inl ⟨_, _, rfl, h⟩
  · right
    cases htimed : peel 0 .instant (splitImplication f).2 with
    | error e =>
      simp [htimed, bind, Except.bind] at h
    | ok timed =>
      cases hconclusion : presentCondition i timed.core with
      | error e => simp [htimed, hconclusion, bind, Except.bind] at h
      | ok conclusion =>
        cases hpremise : premiseOf i name step scope (splitImplication f).2 timed.delay
            (splitImplication f).1 with
        | error e => simp [htimed, hconclusion, hpremise, bind, Except.bind] at h
        | ok premise =>
          refine ⟨timed, conclusion, premise, rfl, hconclusion, hpremise, ?_⟩
          simpa [htimed, hconclusion, hpremise, bind, Except.bind, pure, Except.pure, eq_comm]
            using h

/-- Splitting an implication makes no atoms. -/
theorem splitImplication_atoms {f : Formula} {a : Atom}
    (h : a ∈ (splitImplication f).2.atoms ∨ ∃ p ∈ (splitImplication f).1, a ∈ p.atoms) :
    a ∈ f.atoms := by
  unfold splitImplication at h
  split at h
  · rename_i p c
    rcases h with h | ⟨q, hq, h⟩
    · exact List.mem_append_right _ h
    · obtain rfl := Option.some.inj hq
      exact List.mem_append_left _ h
  · simpa using h

theorem declarations_ofConclusion_superset (name : String) (premise : Premise) (timed : Timed)
    (conclusion : Condition) :
    premise.declarations ⊆ (ofConclusion name premise timed conclusion).declarations := by
  unfold ofConclusion
  dsimp only
  split
  · exact List.Subset.refl _
  · exact List.subset_append_left _ _

/-- The trigger and the conclusion of a monitor are read as the parts of its formula that they stand
for, if no atom is spelled like a flag. -/
theorem observes_ofFormula (run : Observations) {f : Formula} {timed : Timed}
    {conclusion : Condition} {premise : Premise}
    (hatoms : timed.core.atoms = (splitImplication f).2.atoms)
    (hconclusion : presentCondition i timed.core = .ok conclusion)
    (hpremise : premiseOf i name step scope (splitImplication f).2 timed.delay
      (splitImplication f).1 = .ok premise)
    (hfree : ∀ a ∈ f.atoms, Declaration.flag (a.expression i) ∉
      (ofConclusion name premise timed conclusion).declarations) :
    premise.lag ≤ timed.delay ∧
      premise.Observes run (startsOf (traceOf i run) scope (splitImplication f).1
        premise.lag.toNat) ∧
      ∀ n (m : Memory), premise.Ready run n m.flags →
        (conclusion.eval (m.read (run n)) = true ↔ timed.core.Holds (traceOf i run) n) := by
  have hundeclared (a : Atom) (ha : a ∈ f.atoms) :
      Declaration.flag (a.expression i) ∉ premise.declarations := fun hmem ↦
    hfree a ha (declarations_ofConclusion_superset name premise timed conclusion hmem)
  obtain ⟨hlag, hobserves⟩ : premise.lag ≤ timed.delay ∧ premise.Observes run _ :=
    observes_premiseOf hpremise fun p hp a ha ↦
      hundeclared a (splitImplication_atoms (Or.inr ⟨p, hp, ha⟩))
  refine ⟨hlag, hobserves, fun n m hready ↦ ?_⟩
  exact eval_presentCondition hconclusion fun a ha ↦
    hready.undeclared _ (hundeclared a (splitImplication_atoms (Or.inl (hatoms ▸ ha))))

/-- A formula fails where an obligation begins, `lag` steps earlier, whose conclusion is not met in
its window. -/
theorem not_holds_iff_unmet {f : Formula} {timed : Timed} {lag : UInt32} {trace : Trace} {k : Nat}
    (hpeeled : PeeledFrom timed 0 .instant (splitImplication f).2) (hlag : lag ≤ timed.delay) :
    ¬ f.Holds trace k ↔ (∀ p ∈ (splitImplication f).1, p.Holds trace k) ∧
      ¬ timed.window.Holds (timed.core.Holds trace)
        (k + lag.toNat + (timed.delay - lag).toNat) := by
  have hle : lag.toNat ≤ timed.delay.toNat := UInt32.le_iff_toNat_le.mp hlag
  have hdue : k + lag.toNat + (timed.delay - lag).toNat = k + timed.delay.toNat := by
    rw [UInt32.toNat_sub_of_le _ _ hlag]
    omega
  rw [holds_splitImplication, Classical.not_imp, hdue]
  exact and_congr_right fun _ ↦ not_congr (hpeeled.holds trace k).symm

/-- A monitor fails only if the formula does not hold at some step of the scope. -/
theorem exists_not_holds_of_formula {f : Formula} {m : Monitor}
    (h : ofFormula i name step scope f = .ok m)
    (hreach : reach (splitImplication f).2 < 2 ^ 31)
    (hfree : ∀ a ∈ f.atoms, Declaration.flag (a.expression i) ∉ m.declarations)
    (hfails : m.distinct.Fails run) :
    ∃ k, scope.Covers k ∧ ¬ f.Holds (traceOf i run) k := by
  rcases ofFormula_cases h with ⟨l, r, rfl, hequivalence⟩ |
    ⟨timed, conclusion, premise, htimed, hconclusion, hpremise, rfl⟩
  · exact exists_not_holds_of_equivalence hequivalence hfails
  · have hsize : UInt32.size = 2 ^ 32 := rfl
    have hpeeled : PeeledFrom timed 0 .instant (splitImplication f).2 := peel_spec htimed (by
      simp only [UInt32.toNat_zero, Window.steps]
      omega)
    obtain ⟨hlag, hobserves, hcore⟩ :=
      observes_ofFormula run hpeeled.atoms hconclusion hpremise hfree
    have hsteps := hpeeled.steps
    have hdelay : (timed.delay - premise.lag).toNat = timed.delay.toNat - premise.lag.toNat :=
      UInt32.toNat_sub_of_le _ _ hlag
    have hinstant : Window.instant.steps = 0 := rfl
    rw [UInt32.toNat_zero, hinstant] at hsteps
    obtain ⟨s, ⟨k, rfl, hcovers, hstarts⟩, hunmet⟩ := exists_unmet_of_conclusion hobserves
      (spelled_premiseOf hpremise) hcore (by omega) hfails
    exact ⟨k, hcovers, (not_holds_iff_unmet hpeeled hlag).mpr ⟨hstarts, hunmet⟩⟩

theorem scopeOf_atoms (c : Chunk) : (scopeOf c).2.atoms = c.formula.atoms := by
  obtain ⟨tag, f⟩ := c
  cases hf : f.alwaysBody? with
  | none => rcases tag with _ | _ | _ <;> simp only [scopeOf, hf]
  | some body =>
    have heq := eq_always_of_alwaysBody? hf
    rcases tag with _ | _ | _ <;> simp only [scopeOf, hf] <;> rw [heq, Formula.atoms]

theorem ofFormula_of_ofChunk {c : Chunk} {m : Monitor} (h : ofChunk i name step c = .ok m) :
    ofFormula i name step (scopeOf c).1 (scopeOf c).2 = .ok m := by
  unfold ofChunk at h
  dsimp only at h
  split at h
  · rename_i m' hm
    rw [hm, Except.ok.inj h]
  · cases h

/-- A run that the monitor of a property rejects does not satisfy the property in its scope, if the
delay and the window of the property fit into a C integer and none of its atoms is spelled like a
flag of the monitor. -/
theorem not_holds_of_fails {c : Chunk} {m : Monitor} (h : ofChunk i name step c = .ok m)
    (hreach : reach (splitImplication (scopeOf c).2).2 < 2 ^ 31)
    (hfree : ∀ a ∈ c.formula.atoms, Declaration.flag (a.expression i) ∉ m.declarations)
    (hfails : m.distinct.Fails run) : ¬ c.scoped.Holds (traceOf i run) 0 := by
  obtain ⟨k, hcovers, hnot⟩ := exists_not_holds_of_formula (ofFormula_of_ofChunk h) hreach
    (fun a ha ↦ hfree a (scopeOf_atoms c ▸ ha)) hfails
  rw [scoped_holds_iff]
  exact fun hall ↦ hnot (hall k hcovers)

end TemporalRequirements.Monitor

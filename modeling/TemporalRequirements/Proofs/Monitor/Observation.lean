import Mathlib
import TemporalRequirements.Proofs.Monitor.Meaning
import TemporalRequirements.Proofs.Text.Digits

/-!
# Observing premises

The trigger of a monitor holds exactly where the premise of its property does, as many steps later
as the premise looks ahead.  A premise that looks ahead is read through latches, which hold what
its expressions were one step ago.
-/

namespace TemporalRequirements.Monitor

/-- Latches of different expressions have different names. -/
theorem latchName_injective {name : String} {latched : List String} {e e' : String}
    (he : e ∈ latched) (h : latchName name latched e = latchName name latched e') : e = e' := by
  have hindex : latched.idxOf e = latched.idxOf e' := by
    apply Nat.repr_injective
    have hlist := congrArg String.toList h
    apply String.toList_inj.mp
    simpa [latchName] using hlist
  have hlt : latched.idxOf e < latched.length := List.idxOf_lt_length_of_mem he
  have hlt' : latched.idxOf e' < latched.length := hindex ▸ hlt
  have hget : latched[latched.idxOf e]? = latched[latched.idxOf e']? := by rw [hindex]
  rw [List.getElem?_eq_getElem hlt, List.getElem?_eq_getElem hlt', List.getElem_idxOf,
    List.getElem_idxOf] at hget
  exact Option.some.inj hget

/-- The flag that a premise which looks ahead sets when it holds. -/
def transitionFlag (name : String) : String := "TransCondition_" ++ name

theorem latchName_ne_transitionFlag (name : String) (latched : List String) (e : String) :
    latchName name latched e ≠ transitionFlag name := by
  intro h
  have hlist := congrArg (fun s ↦ s.toList.head?) h
  simp [latchName, transitionFlag] at hlist

/-! ## Latches -/

theorem Memory.flags_setFlag (m : Memory) (flag : String) (value : Bool) :
    (m.setFlag flag value).flags flag = some value := if_pos rfl

theorem Memory.flags_setFlag_of_ne (m : Memory) {flag x : String} (value : Bool) (h : x ≠ flag) :
    (m.setFlag flag value).flags x = m.flags x := if_neg h

/-- Latches keep the present values of their expressions and change no other variable. -/
theorem exec_latches (step : Nat) (now : Observation) (flagOf : String → String)
    (expressions : List String) (m : Memory)
    (hfree : ∀ e ∈ expressions, m.flags e = none)
    (hdistinct : ∀ e ∈ expressions, ∀ e' ∈ expressions, flagOf e ≠ e')
    (hinjective : ∀ e ∈ expressions, ∀ e' ∈ expressions, flagOf e = flagOf e' → e = e') :
    ∃ m', execAll step now (expressions.map fun e ↦ .latch (flagOf e) e) m = some m' ∧
      m'.counters = m.counters ∧ (∀ e ∈ expressions, m'.flags (flagOf e) = some (now e)) ∧
      ∀ x, (∀ e ∈ expressions, x ≠ flagOf e) → m'.flags x = m.flags x := by
  induction expressions generalizing m with
  | nil => exact ⟨m, rfl, rfl, by simp, fun x _ ↦ rfl⟩
  | cons e rest ih =>
    have hread : m.read now e = now e := by
      rw [Memory.read, hfree e List.mem_cons_self, Option.getD_none]
    obtain ⟨m', hexec, hcounters, hlatched, hrest⟩ := ih (m.setFlag (flagOf e) (now e))
      (fun e' he' ↦ by
        rw [m.flags_setFlag_of_ne _
          (hdistinct e List.mem_cons_self e' (List.mem_cons_of_mem _ he')).symm]
        exact hfree e' (List.mem_cons_of_mem _ he'))
      (fun d hd e' he' ↦ hdistinct d (List.mem_cons_of_mem _ hd) e' (List.mem_cons_of_mem _ he'))
      (fun d hd e' he' ↦ hinjective d (List.mem_cons_of_mem _ hd) e' (List.mem_cons_of_mem _ he'))
    refine ⟨m', ?_, hcounters, ?_, ?_⟩
    · rw [List.map_cons, execAll, Statement.exec, hread, Option.bind_some]
      exact hexec
    · intro e' he'
      rcases List.mem_cons.mp he' with rfl | he'
      · by_cases hagain : ∃ d ∈ rest, flagOf e' = flagOf d
        · obtain ⟨d, hd, heq⟩ := hagain
          obtain rfl := hinjective e' List.mem_cons_self d (List.mem_cons_of_mem _ hd) heq
          exact hlatched e' hd
        · rw [hrest (flagOf e') (fun d hd heq ↦ hagain ⟨d, hd, heq⟩), m.flags_setFlag]
      · exact hlatched e' he'
    · intro x hx
      rw [hrest x fun d hd ↦ hx d (List.mem_cons_of_mem _ hd),
        m.flags_setFlag_of_ne _ (hx e List.mem_cons_self)]

/-! ## Premises -/

/-- The flags before a step: those of the premise only, the latches with the values of one step
ago. -/
structure Premise.Ready (p : Premise) (run : Observations) (n : Nat)
    (flags : String → Option Bool) : Prop where
  undeclared : ∀ x, Declaration.flag x ∉ p.declarations → flags x = none
  latched : 0 < n → ∀ flag current, Statement.latch flag current ∈ p.latches →
    flags flag = some (run (n - 1) current)

/-- A premise whose trigger holds at the steps of `starts`.  Its updates come before the trigger is
looked at and its latches after. -/
structure Premise.Observes (p : Premise) (run : Observations) (starts : Nat → Prop) : Prop where
  updates : ∀ n m, p.Ready run n m.flags → ∃ m', execAll n (run n) p.updates m = some m' ∧
    m'.counters = m.counters ∧ p.Ready run n m'.flags ∧
    (p.trigger.eval n (m'.read (run n)) = true ↔ starts n)
  latches : ∀ n m, p.Ready run n m.flags → ∃ m', execAll n (run n) p.latches m = some m' ∧
    m'.counters = m.counters ∧ p.Ready run (n + 1) m'.flags

/-- The steps at which an obligation of a property is known to begin: `lag` steps after those of its
scope at which its premise holds. -/
def startsOf (trace : Trace) (scope : Scope) (premise : Option Formula) (lag n : Nat) : Prop :=
  ∃ k, k + lag = n ∧ scope.Covers k ∧ ∀ p ∈ premise, p.Holds trace k

variable {i : Interface} {name step : String} {scope : Scope} {run : Observations}

/-- A premise without updates and latches is observed where its trigger holds. -/
theorem observes_of_present {trigger : Trigger} {starts : Nat → Prop}
    (h : ∀ n (m : Memory), (∀ x, m.flags x = none) →
      (trigger.eval n (m.read (run n)) = true ↔ starts n)) :
    Premise.Observes ⟨trigger, 0, [], [], []⟩ run starts where
  updates n m hready :=
    ⟨m, rfl, rfl, hready, h n m fun x ↦ hready.undeclared x (List.not_mem_nil)⟩
  latches n m hready :=
    ⟨m, rfl, rfl, hready.undeclared, fun _ _ _ hmem ↦ by cases hmem⟩

/-- A premise that looks at one step is observed at once. -/
theorem observes_presentPremise {p : Formula} {condition : Condition}
    (h : presentCondition i p = .ok condition) :
    Premise.Observes ⟨⟨scope.guard step 0, some condition⟩, 0, [], [], []⟩ run
      (startsOf (traceOf i run) scope (some p) 0) := by
  apply observes_of_present
  intro n m hflags
  have hcondition : condition.eval (m.read (run n)) = true ↔ p.Holds (traceOf i run) n :=
    eval_presentCondition h fun a _ ↦ hflags (a.expression i)
  have hguard := eval_guard scope step 0 n
  simp [Trigger.eval, hguard, hcondition, startsOf]

theorem observes_noPremise :
    Premise.Observes ⟨⟨scope.guard step 0, none⟩, 0, [], [], []⟩ run
      (startsOf (traceOf i run) scope none 0) := by
  apply observes_of_present
  intro n m hflags
  have hguard := eval_guard scope step 0 n
  simp [Trigger.eval, hguard, startsOf]

/-- How an atom is spelled in a premise that looks ahead: those under `X` are read now. -/
def spellLooking (i : Interface) (name : String) (p : Formula) (ahead : Bool) (a : Atom) : String :=
  if ahead then a.expression i else latchName name (latched i p) (a.expression i)

/-- What a premise that looks ahead is made of. -/
theorem lookingPremise_eq_ok {p : Formula} {premise : Premise}
    (h : lookingPremise i name step scope p = .ok premise) :
    ∃ condition, conditionOf (spellLooking i name p) true false p = .ok condition ∧
      premise = {
        trigger := ⟨none, some (.leaf (transitionFlag name))⟩
        lag := 1
        declarations := .flag (transitionFlag name) ::
          (latched i p).map fun e ↦ .flag (latchName name (latched i p) e)
        updates := [.observe (transitionFlag name) ⟨scope.guard step 1, some condition⟩]
        latches := (latched i p).map fun e ↦ .latch (latchName name (latched i p) e) e } := by
  unfold lookingPremise at h
  change (conditionOf (spellLooking i name p) true false p >>= _) = _ at h
  cases hcondition : conditionOf (spellLooking i name p) true false p with
  | error e =>
    rw [hcondition] at h
    cases h
  | ok condition =>
    rw [hcondition] at h
    exact ⟨condition, rfl, (Except.ok.inj h).symm⟩

theorem mem_latched {p : Formula} {e : String} :
    e ∈ latched i p ↔ ∃ a ∈ presentAtoms p, a.expression i = e := by
  simp [latched, Atom.expression]

/-- The condition of a premise that looks ahead, read when the latches hold the values of step `k`
and the step after is shown, is true if the premise holds at step `k`. -/
theorem eval_lookingCondition {p : Formula} {condition : Condition} {m : Memory} {k : Nat}
    (h : conditionOf (spellLooking i name p) true false p = .ok condition)
    (hflags : ∀ a ∈ p.atoms, m.flags (a.expression i) = none)
    (hlatched : ∀ a ∈ presentAtoms p,
      m.flags (latchName name (latched i p) (a.expression i)) = some (run k (a.expression i))) :
    condition.eval (m.read (run (k + 1))) = true ↔ p.Holds (traceOf i run) k := by
  apply eval_conditionOf (k := k) h
  · intro _ a ha
    simp only [spellLooking, Bool.false_eq_true, if_false, Memory.read, hlatched a ha,
      Option.getD_some, traceOf]
  · intro _ a ha
    simp only [spellLooking, if_true, Memory.read, hflags a ha, Option.getD_none, traceOf]

/-- The updates of a premise that looks ahead set its flag where the premise held one step ago. -/
theorem updates_lookingPremise {p : Formula} {premise : Premise}
    (h : lookingPremise i name step scope p = .ok premise)
    (hfree : ∀ a ∈ p.atoms, Declaration.flag (a.expression i) ∉ premise.declarations) {n : Nat}
    {m : Memory} (hready : premise.Ready run n m.flags) :
    ∃ m', execAll n (run n) premise.updates m = some m' ∧ m'.counters = m.counters ∧
      premise.Ready run n m'.flags ∧ (premise.trigger.eval n (m'.read (run n)) = true ↔
        startsOf (traceOf i run) scope (some p) 1 n) := by
  obtain ⟨condition, hcondition, rfl⟩ := lookingPremise_eq_ok h
  have hflags (a : Atom) (ha : a ∈ p.atoms) : m.flags (a.expression i) = none :=
    hready.undeclared _ (hfree a ha)
  let value := Trigger.eval n (m.read (run n)) ⟨scope.guard step 1, some condition⟩
  refine ⟨m.setFlag (transitionFlag name) value, rfl, rfl, ⟨?_, ?_⟩, ?_⟩
  · intro x hx
    have hne : x ≠ transitionFlag name := fun heq ↦ hx (heq ▸ List.mem_cons_self)
    exact (m.flags_setFlag_of_ne value hne).trans (hready.undeclared x hx)
  · intro hpos flag current hmem
    obtain ⟨e, he, heq⟩ := List.mem_map.mp hmem
    obtain ⟨rfl, rfl⟩ := Statement.latch.inj heq
    have hne := latchName_ne_transitionFlag name (latched i p) e
    exact (m.flags_setFlag_of_ne value hne).trans (hready.latched hpos _ _ hmem)
  · have hread : (m.setFlag (transitionFlag name) value).read (run n) (transitionFlag name) =
        value := by
      simp [Memory.read, Memory.setFlag]
    have hguard := eval_guard scope step 1 n
    simp only [Trigger.eval, Option.all_none, Bool.true_and, Option.all_some, Condition.eval,
      hread]
    simp only [value, Trigger.eval, Bool.and_eq_true, Option.all_some, hguard, startsOf,
      Option.mem_some, UInt32.toNat_one]
    have hvalue (k : Nat) (hk : k + 1 = n) :
        condition.eval (m.read (run n)) = true ↔ p.Holds (traceOf i run) k := by
      subst hk
      apply eval_lookingCondition hcondition hflags
      intro a ha
      exact hready.latched (Nat.succ_pos k) _ _
        (List.mem_map_of_mem (mem_latched.mpr ⟨a, ha, rfl⟩))
    constructor
    · rintro ⟨⟨k, hk, hcovers⟩, hcond⟩
      refine ⟨k, hk, hcovers, ?_⟩
      rintro q rfl
      exact (hvalue k hk).mp hcond
    · rintro ⟨k, hk, hcovers, hholds⟩
      exact ⟨⟨k, hk, hcovers⟩, (hvalue k hk).mpr (hholds p rfl)⟩

/-- The latches of a premise that looks ahead keep what its expressions are now. -/
theorem latches_lookingPremise {p : Formula} {premise : Premise}
    (h : lookingPremise i name step scope p = .ok premise)
    (hfree : ∀ a ∈ p.atoms, Declaration.flag (a.expression i) ∉ premise.declarations) {n : Nat}
    {m : Memory} (hready : premise.Ready run n m.flags) :
    ∃ m', execAll n (run n) premise.latches m = some m' ∧ m'.counters = m.counters ∧
      premise.Ready run (n + 1) m'.flags := by
  obtain ⟨condition, hcondition, rfl⟩ := lookingPremise_eq_ok h
  have hexpression (e : String) (he : e ∈ latched i p) :
      ∃ a ∈ p.atoms, a.expression i = e := by
    obtain ⟨a, ha, heq⟩ := mem_latched.mp he
    exact ⟨a, presentAtoms_subset ha, heq⟩
  obtain ⟨m', hexec, hcounters, hvalues, hrest⟩ := exec_latches n (run n)
    (latchName name (latched i p)) (latched i p) m
    (fun e he ↦ by
      obtain ⟨a, ha, rfl⟩ := hexpression e he
      exact hready.undeclared _ (hfree a ha))
    (fun e he e' he' heq ↦ by
      obtain ⟨a, ha, rfl⟩ := hexpression e' he'
      apply hfree a ha
      rw [← heq]
      exact List.mem_cons_of_mem _ (List.mem_map_of_mem he))
    (fun e he e' _ heq ↦ latchName_injective he heq)
  refine ⟨m', hexec, hcounters, ⟨?_, ?_⟩⟩
  · intro x hx
    rw [hrest x fun e he heq ↦ hx (heq ▸ List.mem_cons_of_mem _ (List.mem_map_of_mem he))]
    exact hready.undeclared x hx
  · intro _ flag current hmem
    obtain ⟨e, he, heq⟩ := List.mem_map.mp hmem
    obtain ⟨rfl, rfl⟩ := Statement.latch.inj heq
    exact hvalues e he

/-- A premise that looks ahead is observed one step late. -/
theorem observes_lookingPremise {p : Formula} {premise : Premise}
    (h : lookingPremise i name step scope p = .ok premise)
    (hfree : ∀ a ∈ p.atoms, Declaration.flag (a.expression i) ∉ premise.declarations) :
    premise.lag = 1 ∧
      premise.Observes run (startsOf (traceOf i run) scope (some p) 1) := by
  have hlag : premise.lag = 1 := by
    obtain ⟨condition, -, rfl⟩ := lookingPremise_eq_ok h
    rfl
  exact ⟨hlag, fun _ _ hready ↦ updates_lookingPremise h hfree hready,
    fun _ _ hready ↦ latches_lookingPremise h hfree hready⟩

/-- A property has no premise, one that looks at the present or, unless its conclusion is due at
once, one that looks ahead. -/
theorem premiseOf_cases {c : Formula} {delay : UInt32} {p : Option Formula} {premise : Premise}
    (h : premiseOf i name step scope c delay p = .ok premise) :
    (p = none ∧ premise = ⟨⟨scope.guard step 0, none⟩, 0, [], [], []⟩) ∨
    (∃ q condition, p = some q ∧ presentCondition i q = .ok condition ∧
      premise = ⟨⟨scope.guard step 0, some condition⟩, 0, [], [], []⟩) ∨
    ∃ q, p = some q ∧ delay ≠ 0 ∧ lookingPremise i name step scope q = .ok premise := by
  cases p with
  | none => exact Or.inl ⟨rfl, (Except.ok.inj h).symm⟩
  | some q =>
    right
    simp only [premiseOf] at h
    split at h
    · left
      cases hcondition : presentCondition i q with
      | error e =>
        rw [hcondition] at h
        cases h
      | ok condition =>
        rw [hcondition] at h
        exact ⟨q, condition, rfl, hcondition, (Except.ok.inj h).symm⟩
    · right
      split at h
      · cases h
      · split at h
        · cases h
        · rename_i hdelay
          exact ⟨q, rfl, hdelay, h⟩

/-- The premise of a property is observed where it holds, no later than its conclusion is due. -/
theorem observes_premiseOf {c : Formula} {delay : UInt32} {p : Option Formula} {premise : Premise}
    (h : premiseOf i name step scope c delay p = .ok premise)
    (hfree : ∀ q ∈ p, ∀ a ∈ q.atoms, Declaration.flag (a.expression i) ∉ premise.declarations) :
    premise.lag ≤ delay ∧
      premise.Observes run (startsOf (traceOf i run) scope p premise.lag.toNat) := by
  rcases premiseOf_cases h with ⟨rfl, rfl⟩ | ⟨q, condition, rfl, hcondition, rfl⟩ |
    ⟨q, rfl, hdelay, hlooking⟩
  · exact ⟨UInt32.zero_le, observes_noPremise⟩
  · exact ⟨UInt32.zero_le, observes_presentPremise hcondition⟩
  · obtain ⟨hlag, hobserves⟩ : premise.lag = 1 ∧ premise.Observes run _ :=
      observes_lookingPremise hlooking (hfree q rfl)
    have hne : delay.toNat ≠ 0 := fun hzero ↦ hdelay (UInt32.toNat_inj.mp hzero)
    rw [hlag]
    refine ⟨?_, hobserves⟩
    rw [UInt32.le_iff_toNat_le, UInt32.toNat_one]
    omega

end TemporalRequirements.Monitor

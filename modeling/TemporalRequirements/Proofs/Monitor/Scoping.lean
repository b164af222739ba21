import TemporalRequirements.Proofs.Monitor.Naming

/-!
# Names in the host program

The host program reads the expressions of a monitor where the step counter and the variables of
monitors are declared, and these hide the signals of their names.  A monitor reads the expressions
of atoms and its own flags.  If no atom names what is declared, the monitor does at every step what
it does where all names are those of signals.
-/

namespace TemporalRequirements.Monitor

open Text (identifiersOf)

def Trigger.leaves (t : Trigger) : List String := t.premise.toList.flatMap Condition.leaves

def Statement.leaves : Statement → List String
  | .observe _ trigger | .start _ trigger => trigger.leaves
  | .latch _ current => [current]
  | .advance _ => []
  | .cancel _ _ premise => premise.leaves
  | .check trigger conclusion => trigger.leaves ++ conclusion.leaves
  | .checkAt _ _ conclusion | .checkThrough _ _ _ conclusion
  | .checkBy _ _ _ conclusion => conclusion.leaves

section

variable {read read' : String → Bool} {now now' : Observation} {m m' : Memory} {n : Nat}

theorem Condition.eval_congr {c : Condition} (h : ∀ e ∈ c.leaves, read e = read' e) :
    c.eval read = c.eval read' := by
  induction c with
  | truth b => rfl
  | leaf text => exact h text List.mem_cons_self
  | not c ih => rw [eval, eval, ih h]
  | binary op l r ihl ihr =>
    rw [eval, eval, ihl fun e he ↦ h e (List.mem_append_left _ he),
      ihr fun e he ↦ h e (List.mem_append_right _ he)]

theorem Trigger.eval_congr {t : Trigger} (h : ∀ e ∈ t.leaves, read e = read' e) :
    t.eval n read = t.eval n read' := by
  obtain ⟨guard, premise⟩ := t
  cases premise with
  | none => rfl
  | some c =>
    have hc : c.eval read = c.eval read' := Condition.eval_congr fun e he ↦
      h e (List.mem_flatMap.mpr ⟨c, List.mem_cons_self, he⟩)
    simp only [Trigger.eval, Option.all_some, hc]

/-- A statement does the same for observations that agree on what it reads. -/
theorem Statement.exec_congr {s : Statement}
    (h : ∀ e ∈ s.leaves, m.read now e = m.read now' e) :
    s.exec n now m = s.exec n now' m := by
  cases s with
  | observe flag trigger => simp only [exec, Trigger.eval_congr h]
  | latch flag current => simp only [exec, h current List.mem_cons_self]
  | advance counter => rfl
  | cancel counter delay premise => simp only [exec, Condition.eval_congr h]
  | start counter trigger => simp only [exec, Trigger.eval_congr h]
  | check trigger conclusion =>
    have htrigger : trigger.eval n (m.read now) = trigger.eval n (m.read now') :=
      Trigger.eval_congr fun e he ↦ h e (List.mem_append_left _ he)
    have hconclusion : conclusion.eval (m.read now) = conclusion.eval (m.read now') :=
      Condition.eval_congr fun e he ↦ h e (List.mem_append_right _ he)
    simp only [exec, htrigger, hconclusion]
  | checkAt counter delay conclusion | checkThrough counter delay last conclusion
  | checkBy counter delay last conclusion => simp only [exec, Condition.eval_congr h]

/-- A statement sets one variable at most. -/
theorem Statement.exec_cases {s : Statement} (h : s.exec n now m = some m') :
    m' = m ∨ (∃ counter value, m' = m.setCounter counter value) ∨
      ∃ flag value, m' = m.setFlag flag value := by
  have hsame (hm : some m = some m') : m' = m := (Option.some.inj hm).symm
  cases s with
  | observe flag trigger | latch flag current =>
    exact Or.inr (Or.inr ⟨flag, _, (Option.some.inj h).symm⟩)
  | advance counter | cancel counter delay premise | start counter trigger =>
    obtain rfl := Option.some.inj h
    split
    · exact Or.inr (Or.inl ⟨counter, _, rfl⟩)
    · exact Or.inl rfl
  | check trigger conclusion =>
    rw [exec] at h
    split at h
    · cases h
    · exact Or.inl (hsame h)
  | checkAt counter delay conclusion =>
    rw [exec] at h
    split at h
    · split at h
      · exact Or.inr (Or.inl ⟨counter, _, (Option.some.inj h).symm⟩)
      · cases h
    · exact Or.inl (hsame h)
  | checkThrough counter delay last conclusion =>
    rw [exec] at h
    split at h
    · split at h
      · obtain rfl := Option.some.inj h
        split
        · exact Or.inr (Or.inl ⟨counter, _, rfl⟩)
        · exact Or.inl rfl
      · cases h
    · exact Or.inl (hsame h)
  | checkBy counter delay last conclusion =>
    rw [exec] at h
    split at h
    · split at h
      · exact Or.inr (Or.inl ⟨counter, _, (Option.some.inj h).symm⟩)
      · split at h
        · exact Or.inl (hsame h)
        · cases h
    · exact Or.inl (hsame h)

/-- A flag stays one. -/
theorem Statement.isSome_flags_exec {s : Statement} (h : s.exec n now m = some m') {x : String}
    (hx : (m.flags x).isSome = true) : (m'.flags x).isSome = true := by
  rcases exec_cases h with rfl | ⟨counter, value, rfl⟩ | ⟨flag, value, rfl⟩
  · exact hx
  · exact hx
  · rw [Memory.setFlag]
    dsimp only
    split
    · rfl
    · exact hx

end

/-! ## Atoms and flags -/

def Known (i : Interface) (atoms : List Atom) (declarations : List Declaration) (e : String) :
    Prop :=
  (∃ a ∈ atoms, e = a.expression i) ∨ Declaration.flag e ∈ declarations

theorem Known.mono {i : Interface} {atoms atoms' : List Atom}
    {declarations declarations' : List Declaration} {e : String} (h : Known i atoms declarations e)
    (hatoms : atoms ⊆ atoms') (hdeclarations : declarations ⊆ declarations') :
    Known i atoms' declarations' e :=
  h.imp (fun ⟨a, ha, he⟩ ↦ ⟨a, hatoms ha, he⟩) fun he ↦ hdeclarations he

section

variable {i : Interface} {name step : String} {scope : Scope} {f : Formula}

theorem known_presentCondition {c : Condition} (h : presentCondition i f = .ok c) {e : String}
    (he : e ∈ c.leaves) (declarations : List Declaration) : Known i f.atoms declarations e := by
  obtain ⟨a, ha, rfl | ⟨-, -, rfl⟩⟩ := mem_leaves_conditionOf h he
  · exact Or.inl ⟨a, ha, rfl⟩
  · exact Or.inl ⟨a, ha, rfl⟩

structure Premise.IsKnown (p : Premise) (i : Interface) (atoms : List Atom) : Prop where
  trigger : ∀ e ∈ p.trigger.leaves, Known i atoms p.declarations e
  statements : ∀ s ∈ p.updates ++ p.latches, ∀ e ∈ s.leaves, Known i atoms p.declarations e

/-- A premise that looks ahead reads its atoms, its flag and its latches. -/
theorem isKnown_lookingPremise {p : Formula} {premise : Premise}
    (h : lookingPremise i name step scope p = .ok premise) : premise.IsKnown i p.atoms := by
  obtain ⟨condition, hcondition, rfl⟩ := lookingPremise_eq_ok h
  have hleaf {e : String} (he : e ∈ latched i p) {declarations : List Declaration} :
      Known i p.atoms declarations e := by
    obtain ⟨a, ha, rfl⟩ := mem_latched.mp he
    exact Or.inl ⟨a, presentAtoms_subset ha, rfl⟩
  refine ⟨?_, List.forall_mem_cons.mpr ⟨?_, ?_⟩⟩
  · intro e he
    obtain rfl : e = transitionFlag name := by simpa [Trigger.leaves, Condition.leaves] using he
    exact Or.inr List.mem_cons_self
  · intro e he
    have hmem : e ∈ condition.leaves := by simpa [Statement.leaves, Trigger.leaves] using he
    obtain ⟨a, ha, rfl | ⟨-, hpresent, rfl⟩⟩ := mem_leaves_conditionOf hcondition hmem
    · exact Or.inl ⟨a, ha, rfl⟩
    · exact Or.inr (List.mem_cons_of_mem _
        (List.mem_map_of_mem (mem_latched.mpr ⟨a, hpresent, rfl⟩)))
  · intro s hs e he
    obtain ⟨current, hcurrent, rfl⟩ := List.mem_map.mp hs
    rw [List.mem_singleton.mp he]
    exact hleaf hcurrent

/-- A premise reads its atoms and the flags that it declares. -/
theorem isKnown_premiseOf {c : Formula} {delay : UInt32} {p : Option Formula} {premise : Premise}
    {atoms : List Atom} (hatoms : ∀ q ∈ p, q.atoms ⊆ atoms)
    (h : premiseOf i name step scope c delay p = .ok premise) : premise.IsKnown i atoms := by
  rcases premiseOf_cases h with ⟨rfl, rfl⟩ | ⟨q, condition, rfl, hcondition, rfl⟩ |
    ⟨q, rfl, -, hlooking⟩
  · exact ⟨nofun, nofun⟩
  · refine ⟨fun e he ↦ ?_, nofun⟩
    have hmem : e ∈ condition.leaves := by simpa [Trigger.leaves] using he
    exact (known_presentCondition hcondition hmem _).mono (hatoms q rfl) (List.Subset.refl _)
  · have hknown := isKnown_lookingPremise hlooking
    exact ⟨fun e he ↦ (hknown.trigger e he).mono (hatoms q rfl) (List.Subset.refl _),
      fun s hs e he ↦ (hknown.statements s hs e he).mono (hatoms q rfl) (List.Subset.refl _)⟩

theorem mem_leaves_counterUpdates {counter : String} {delay : UInt32} {trigger : Trigger}
    {s : Statement} (hs : s ∈ counterUpdates counter delay trigger) {e : String}
    (he : e ∈ s.leaves) : e ∈ trigger.leaves := by
  rcases mem_counterUpdates hs with rfl | ⟨c, hc, rfl⟩ | rfl
  · cases he
  · exact List.mem_flatMap.mpr ⟨c, Option.mem_toList.mpr hc, he⟩
  · exact he

theorem leaves_counterCheck (counter : String) (delay : UInt32) (window : Window)
    (conclusion : Condition) :
    (counterCheck counter delay window conclusion).leaves = conclusion.leaves := by
  cases window <;> rfl

/-- The monitor of a conclusion reads atoms and declared flags. -/
theorem known_ofConclusion {premise : Premise} {atoms : List Atom} {timed : Timed}
    {conclusion : Condition} (hpremise : premise.IsKnown i atoms)
    (hconclusion : ∀ e ∈ conclusion.leaves, ∀ declarations, Known i atoms declarations e)
    {s : Statement} (hs : s ∈ (ofConclusion name premise timed conclusion).updates ++
      (ofConclusion name premise timed conclusion).checks) {e : String} (he : e ∈ s.leaves) :
    Known i atoms (ofConclusion name premise timed conclusion).declarations e := by
  have hsub := declarations_ofConclusion_superset name premise timed conclusion
  have htrigger (he : e ∈ premise.trigger.leaves) :=
    (hpremise.trigger e he).mono (List.Subset.refl _) hsub
  have hstatement (hs : s ∈ premise.updates ++ premise.latches) :=
    (hpremise.statements s hs e he).mono (List.Subset.refl _) hsub
  rcases ofConclusion_cases name premise timed conclusion with ⟨-, heq⟩ | ⟨-, heq⟩
  · rw [heq] at hs
    rcases List.mem_append.mp hs with hs | hs
    · exact hstatement (List.mem_append_left _ hs)
    · rcases List.mem_cons.mp hs with rfl | hs
      · exact (List.mem_append.mp he).elim htrigger fun he ↦ hconclusion e he _
      · exact hstatement (List.mem_append_right _ hs)
  · rw [heq] at hs
    rcases List.mem_append.mp hs with hs | hs
    · rcases List.mem_append.mp hs with hs | hs
      · exact hstatement (List.mem_append_left _ hs)
      · exact htrigger (mem_leaves_counterUpdates hs he)
    · rcases List.mem_cons.mp hs with rfl | hs
      · rw [leaves_counterCheck] at he
        exact hconclusion e he _
      · exact hstatement (List.mem_append_right _ hs)

/-- The monitor of an equivalence reads its atoms. -/
theorem known_ofEquivalence {guard : Option Guard} {l r : Formula} {m : Monitor}
    (h : ofEquivalence i guard l r = .ok m) {s : Statement} (hs : s ∈ m.updates ++ m.checks)
    {e : String} (he : e ∈ s.leaves) : Known i (l.atoms ++ r.atoms) m.declarations e := by
  obtain ⟨cl, cr, hcl, hcr, rfl⟩ := ofEquivalence_eq_ok h
  have hside : e ∈ cl.leaves ∨ e ∈ cr.leaves := by
    rcases List.mem_cons.mp hs with rfl | hs
    · simpa [Statement.leaves, Trigger.leaves] using he
    · rw [List.mem_singleton.mp hs] at he
      simpa [Statement.leaves, Trigger.leaves, or_comm] using he
  rcases hside with he | he
  · exact (known_presentCondition hcl he _).mono (List.subset_append_left _ _) (List.Subset.refl _)
  · exact (known_presentCondition hcr he _).mono (List.subset_append_right _ _) (List.Subset.refl _)

/-- The monitor of a formula reads the atoms of the formula and its own flags. -/
theorem known_ofFormula {m : Monitor} (h : ofFormula i name step scope f = .ok m) {s : Statement}
    (hs : s ∈ m.updates ++ m.checks) {e : String} (he : e ∈ s.leaves) :
    Known i f.atoms m.declarations e := by
  rcases ofFormula_cases h with ⟨l, r, rfl, hm⟩ |
    ⟨timed, conclusion, premise, htimed, hconclusion, hpremise, rfl⟩
  · exact known_ofEquivalence hm hs he
  · refine known_ofConclusion ?_ (fun e he declarations ↦ ?_) hs he
    · exact isKnown_premiseOf (fun q hq a ha ↦ splitImplication_atoms (Or.inr ⟨q, hq, ha⟩)) hpremise
    · refine (known_presentCondition hconclusion he declarations).mono ?_ (List.Subset.refl _)
      exact fun a ha ↦ splitImplication_atoms (Or.inl (atoms_of_peel htimed ▸ ha))

end

/-! ## Names that are declared -/

/-- A program that runs the lines of monitors: what it shows at each step, given their variables. -/
abbrev Host := Nat → Memory → Observation

/-- How a program finds the truth of expressions: from the values of the names in them. -/
structure Evaluator where
  truth : String → (String → Int) → Bool
  congr : ∀ e values values', (∀ x ∈ identifiersOf e, values x = values' x) →
    truth e values = truth e values'

/-- The value of a name where the step counter and the given variables of monitors are declared:
other names are those of signals. -/
def visible (declared : List String) (step : String) (n : Nat) (m : Memory)
    (signals : String → Int) (x : String) : Int :=
  if x = step then n
  else if x ∈ declared then ((m.flags x).map fun b ↦ (b.toNat : Int)).getD (m.counters x)
  else signals x

namespace Evaluator

variable (E : Evaluator) {declared : List String} {step : String} {signals : Nat → String → Int}

/-- The program in which the step counter and variables of monitors are declared. -/
def host (declared : List String) (step : String) (signals : Nat → String → Int) : Host :=
  fun n m e ↦ E.truth e (visible declared step n m (signals n))

/-- What the signals alone show. -/
def observations (signals : Nat → String → Int) : Observations :=
  fun n e ↦ E.truth e (signals n)

theorem host_eq_observations {e : String}
    (h : ∀ x ∈ identifiersOf e, x ≠ step ∧ x ∉ declared) (n : Nat) (m : Memory) :
    E.host declared step signals n m e = E.observations signals n e := by
  apply E.congr
  intro x hx
  rw [visible, if_neg (h x hx).1, if_neg (h x hx).2]

end Evaluator

namespace Host

variable (host : Host)

/-- The variables after statements in their order, each of which reads its expressions one by one,
unless a check is not met. -/
def performAll (n : Nat) : List Statement → Memory → Option Memory
  | [], m => some m
  | s :: rest, m => (s.exec n (host n m) m).bind (performAll n rest)

/-- The variables before the step of this number, unless a check was not met earlier. -/
def perform (monitor : Monitor) : Nat → Option Memory
  | 0 => some monitor.initial
  | n + 1 => (perform monitor n).bind fun m ↦
    (host.performAll n monitor.updates m).bind (host.performAll n monitor.checks)

variable {host} {run : Observations} {declarations : List Declaration} {m m' : Memory} {n : Nat}
  {ss : List Statement}

def HasFlags (declarations : List Declaration) (m : Memory) : Prop :=
  ∀ x, Declaration.flag x ∈ declarations → (m.flags x).isSome = true

theorem hasFlags_initial (monitor : Monitor) : HasFlags monitor.declarations monitor.initial := by
  intro x hx
  have hflag : monitor.initial.flags x = some false := if_pos hx
  rw [hflag]
  rfl

theorem HasFlags.execAll (hm : HasFlags declarations m)
    (h : Monitor.execAll n (run n) ss m = some m') : HasFlags declarations m' := by
  induction ss generalizing m with
  | nil => exact Option.some.inj h ▸ hm
  | cons s ss ih =>
    obtain ⟨next, hnext, hrest⟩ := Option.bind_eq_some_iff.mp h
    exact ih (fun x hx ↦ s.isSome_flags_exec hnext (hm x hx)) hrest

theorem hasFlags_memoryAt {monitor : Monitor} (h : monitor.memoryAt run n = some m) :
    HasFlags monitor.declarations m := by
  induction n generalizing m with
  | zero => exact Option.some.inj h ▸ hasFlags_initial monitor
  | succ n ih =>
    obtain ⟨before, hbefore, hexec⟩ := Option.bind_eq_some_iff.mp h
    obtain ⟨next, hnext, hrest⟩ := Option.bind_eq_some_iff.mp hexec
    exact ((ih hbefore).execAll hnext).execAll hrest

/-- Whether what statements read is a declared flag or shown alike by the program and by a run. -/
def Shows (host : Host) (run : Observations) (declarations : List Declaration)
    (ss : List Statement) : Prop :=
  ∀ s ∈ ss, ∀ e ∈ s.leaves, Declaration.flag e ∈ declarations ∨ ∀ n m, host n m e = run n e

/-- A host that shows what statements read runs them as the monitor does. -/
theorem performAll_eq_execAll (hss : Shows host run declarations ss)
    (hm : HasFlags declarations m) : host.performAll n ss m = Monitor.execAll n (run n) ss m := by
  induction ss generalizing m with
  | nil => rfl
  | cons s ss ih =>
    have hread : s.exec n (host n m) m = s.exec n (run n) m := by
      apply Statement.exec_congr
      intro e he
      rcases hss s List.mem_cons_self e he with hflag | hshown
      · obtain ⟨b, hb⟩ := Option.isSome_iff_exists.mp (hm e hflag)
        rw [Memory.read, Memory.read, hb, Option.getD_some, Option.getD_some]
      · rw [Memory.read, Memory.read, hshown n m]
    rw [performAll, Monitor.execAll, hread]
    apply Option.bind_congr
    intro next hnext
    exact ih (fun t ht ↦ hss t (List.mem_cons_of_mem s ht))
      fun x hx ↦ s.isSome_flags_exec hnext (hm x hx)

/-- A monitor does in the program what it does in the run. -/
theorem perform_eq_memoryAt {monitor : Monitor}
    (h : Shows host run monitor.declarations (monitor.updates ++ monitor.checks)) (n : Nat) :
    host.perform monitor n = monitor.memoryAt run n := by
  induction n with
  | zero => rfl
  | succ n ih =>
    rw [perform, memoryAt, ih]
    refine Option.bind_congr fun m hm ↦ ?_
    have hflags := hasFlags_memoryAt hm
    rw [performAll_eq_execAll (fun s hs ↦ h s (List.mem_append_left _ hs)) hflags, Monitor.exec]
    refine Option.bind_congr fun next hnext ↦ ?_
    exact performAll_eq_execAll (fun s hs ↦ h s (List.mem_append_right _ hs))
      (hflags.execAll hnext)

end Host

end TemporalRequirements.Monitor

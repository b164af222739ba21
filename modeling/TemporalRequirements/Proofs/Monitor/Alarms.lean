import TemporalRequirements.Proofs.Decomposition.Reconstruct
import TemporalRequirements.Proofs.Monitor.Completeness
import TemporalRequirements.Proofs.Monitor.Composition
import TemporalRequirements.Proofs.Monitor.Truths

/-!
# Alarms

What is shown of a monitor over truth values holds of its lines, if the step counter is none of its
variables: they raise no false alarm, and miss nothing where one counter is enough.  If the step
counter has the name of a variable, the lines change the one where they mean the other, and both
statements are wrong.
-/

namespace TemporalRequirements.Monitor

open Text

variable {i : Interface} {name step text : String} {scope : Scope} {c : Chunk} {m : Monitor}
  {run : Nat → Values}

/-- Whether a statement changes what is declared and compares no number but that of the step. -/
def Statement.Belongs (s : Statement) (ds : List Declaration) (step : String) : Prop :=
  (∀ d ∈ s.declaration?, d ∈ ds) ∧ ∀ t ∈ s.trigger?, ∀ g ∈ t.guard, g.step = step

theorem Statement.Belongs.mono {s : Statement} {ds ds' : List Declaration}
    (h : s.Belongs ds step) (hsub : ds ⊆ ds') : s.Belongs ds' step :=
  ⟨fun d hd ↦ hsub (h.1 d hd), h.2⟩

theorem belongs_check {ds : List Declaration} {trigger : Trigger} {conclusion : Condition}
    (h : ∀ g ∈ trigger.guard, g.step = step) :
    (Statement.check trigger conclusion).Belongs ds step :=
  ⟨nofun, fun _ ht ↦ Option.some.inj ht ▸ h⟩

/-- The statements of a premise change what it declares. -/
theorem belongs_premiseOf {c : Formula} {delay : UInt32} {p : Option Formula} {premise : Premise}
    (h : premiseOf i name step scope c delay p = .ok premise) :
    (∀ g ∈ premise.trigger.guard, g.step = step) ∧
      ∀ s ∈ premise.updates ++ premise.latches, s.Belongs premise.declarations step := by
  rcases premiseOf_cases h with ⟨rfl, rfl⟩ | ⟨q, condition, rfl, -, rfl⟩ | ⟨q, rfl, -, hlooking⟩
  · exact ⟨fun g hg ↦ step_of_guard hg, nofun⟩
  · exact ⟨fun g hg ↦ step_of_guard hg, nofun⟩
  · obtain ⟨condition, -, rfl⟩ := lookingPremise_eq_ok hlooking
    refine ⟨nofun, List.forall_mem_cons.mpr ⟨⟨fun d hd ↦ ?_, fun t ht g hg ↦ ?_⟩, fun s hs ↦ ?_⟩⟩
    · exact Option.some.inj hd ▸ List.mem_cons_self
    · exact step_of_guard (Option.some.inj ht ▸ hg)
    · obtain ⟨e, he, rfl⟩ := List.mem_map.mp hs
      refine ⟨fun d hd ↦ ?_, nofun⟩
      exact Option.some.inj hd ▸ List.mem_cons_of_mem _ (List.mem_map_of_mem he)

/-- The statements of a conclusion change its counter and what its premise declares. -/
theorem belongs_ofConclusion {premise : Premise} {timed : Timed} {conclusion : Condition}
    (htrigger : ∀ g ∈ premise.trigger.guard, g.step = step)
    (hpremise : ∀ s ∈ premise.updates ++ premise.latches, s.Belongs premise.declarations step) :
    ∀ s ∈ (ofConclusion name premise timed conclusion).updates ++
      (ofConclusion name premise timed conclusion).checks,
      s.Belongs (ofConclusion name premise timed conclusion).declarations step := by
  have hsub := declarations_ofConclusion_superset name premise timed conclusion
  have hupdates (s : Statement) (hs : s ∈ premise.updates) :=
    (hpremise s (List.mem_append_left _ hs)).mono hsub
  have hlatches (s : Statement) (hs : s ∈ premise.latches) :=
    (hpremise s (List.mem_append_right _ hs)).mono hsub
  rcases ofConclusion_cases name premise timed conclusion with ⟨-, heq⟩ | ⟨-, heq⟩
  · rw [heq] at hupdates hlatches ⊢
    exact List.forall_mem_append.mpr ⟨hupdates,
      List.forall_mem_cons.mpr ⟨belongs_check htrigger, hlatches⟩⟩
  · rw [heq] at hupdates hlatches ⊢
    have hcounter : ∀ d ∈ some (Declaration.counter ("Counter_" ++ name)),
        d ∈ (counterMonitor ("Counter_" ++ name) premise (timed.delay - premise.lag)
          timed.window conclusion).declarations := fun d hd ↦
      Option.some.inj hd ▸ List.mem_append_right _ List.mem_cons_self
    refine List.forall_mem_append.mpr ⟨List.forall_mem_append.mpr ⟨hupdates, fun s hs ↦ ?_⟩,
      List.forall_mem_cons.mpr ⟨?_, hlatches⟩⟩
    · rcases mem_counterUpdates hs with rfl | ⟨c, -, rfl⟩ | rfl
      · exact ⟨hcounter, nofun⟩
      · exact ⟨hcounter, nofun⟩
      · exact ⟨hcounter, fun t ht ↦ Option.some.inj ht ▸ htrigger⟩
    · cases timed.window <;> exact ⟨hcounter, nofun⟩

/-- The statements of a monitor change what it declares. -/
theorem belongs_ofFormula {f : Formula} {m : Monitor}
    (h : ofFormula i name step scope f = .ok m) :
    ∀ s ∈ m.updates ++ m.checks, s.Belongs m.declarations step := by
  rcases ofFormula_cases h with ⟨l, r, rfl, hm⟩ |
    ⟨timed, conclusion, premise, -, -, hpremise, rfl⟩
  · obtain ⟨cl, cr, -, -, rfl⟩ := ofEquivalence_eq_ok hm
    exact List.forall_mem_cons.mpr ⟨belongs_check fun g hg ↦ step_of_guard hg,
      List.forall_mem_singleton.mpr (belongs_check fun g hg ↦ step_of_guard hg)⟩
  · obtain ⟨htrigger, hstatements⟩ := belongs_premiseOf hpremise
    exact belongs_ofConclusion htrigger hstatements

/-- Whether no atom of a property names the step counter or a variable of its monitor. -/
def NamesApart (i : Interface) (step : String) (c : Chunk) (m : Monitor) : Prop :=
  ∀ a ∈ c.formula.atoms, ∀ x ∈ identifiersOf (a.expression i), x ≠ step ∧ x ∉ m.names

instance (i : Interface) (step : String) (c : Chunk) (m : Monitor) :
    Decidable (NamesApart i step c m) :=
  inferInstanceAs (Decidable (∀ a ∈ c.formula.atoms, ∀ x ∈ identifiersOf (a.expression i), _))

/-- What the atoms of a property and the constants of C name. -/
def NamedBy (i : Interface) (c : Chunk) (x : String) : Prop :=
  (∃ b, x = truthText b) ∨ ∃ a ∈ c.formula.atoms, x ∈ identifiersOf (a.expression i)

theorem atomsOver_namedBy (hi : i.identifier = safeName) (hparse : Chunk.parse text = .ok c) :
    AtomsOver i (NamedBy i c) (scopeOf c).2 := by
  intro a ha
  rw [scopeOf_atoms] at ha
  exact ⟨Atom.plain_expression hi (wellRead_of_parseChunk hparse a ha),
    fun x hx ↦ Or.inr ⟨a, ha, hx⟩⟩

theorem isNamed_ofChunk (hi : i.identifier = safeName) (hname : IsIdentifier name)
    (hstep : IsIdentifier step) (hparse : Chunk.parse text = .ok c)
    (h : ofChunk i name step c = .ok m) : m.IsNamed name step (NamedBy i c) :=
  isNamed_ofFormula hstep (fun _ ↦ hname.isNamePart) (fun b ↦ Or.inl ⟨b, rfl⟩)
    (atomsOver_namedBy hi hparse) (ofFormula_of_ofChunk h)

/-- The expression of an atom is no name that stands for something else. -/
theorem NamesApart.expression (hfree : NamesApart i step c m) (hstep : IsIdentifier step)
    (hidentifiers : ∀ x ∈ m.names, IsIdentifier x) {a : Atom} (ha : a ∈ c.formula.atoms) :
    a.expression i ≠ step ∧ a.expression i ∉ m.names := by
  have hself (h : IsIdentifier (a.expression i)) :
      a.expression i ≠ step ∧ a.expression i ∉ m.names :=
    hfree a ha _ (h.identifiersOf ▸ List.mem_cons_self)
  exact ⟨fun heq ↦ (hself (heq.symm ▸ hstep)).1 heq,
    fun hmem ↦ (hself (hidentifiers _ hmem)).2 hmem⟩

/-- The lines of a property tell its variables, the step counter and its atoms apart, if they have
different names. -/
theorem fits_ofChunk (hi : i.identifier = safeName) (hname : IsIdentifier name)
    (hstep : IsIdentifier step) (hparse : Chunk.parse text = .ok c)
    (h : ofChunk i name step c = .ok m) (hfree : NamesApart i step c m) (hown : step ∉ m.names) :
    m.Fits step ∧ ∀ a ∈ c.formula.atoms, Declaration.flag (a.expression i) ∉ m.declarations := by
  have hnamed := isNamed_ofChunk hi hname hstep hparse h
  have hidentifiers (x : String) (hx : x ∈ m.names) : IsIdentifier x :=
    ((hnamed.generated x hx).shape fun _ ↦ hname.isNamePart).1
  have hatom {a : Atom} (ha : a ∈ c.formula.atoms) := hfree.expression hstep hidentifiers ha
  refine ⟨⟨hnamed.nodup, hown, fun s hs ↦ ?_⟩, fun a ha hflag ↦
    (hatom ha).2 (List.mem_map_of_mem hflag)⟩
  obtain ⟨hdeclared, hguard⟩ := belongs_ofFormula (ofFormula_of_ofChunk h) s hs
  refine ⟨hdeclared, hguard, fun e he ↦ ?_⟩
  rcases known_ofFormula (ofFormula_of_ofChunk h) hs he with ⟨a, ha, rfl⟩ | hflag
  · obtain ⟨hne, hmem⟩ := hatom (scopeOf_atoms c ▸ ha)
    exact ⟨hne, fun hcounter ↦ hmem (List.mem_map_of_mem hcounter)⟩
  · exact ⟨ne_step_of_mem hown hflag, counter_notMem_of_flag hnamed.nodup hflag⟩

/-! ## No false alarm -/

/-- The lines of a property raise no false alarm: a run in which an assertion fails does not satisfy
the property in its scope, if its delay and window fit into a C integer and the step counter, the
variables of the monitor and what the atoms name are different. -/
theorem not_holds_of_alarms (hi : i.identifier = safeName) (hname : IsIdentifier name)
    (hstep : IsIdentifier step) (hparse : Chunk.parse text = .ok c)
    (h : ofChunk i name step c = .ok m)
    (hreach : reach (splitImplication (scopeOf c).2).2 < 2 ^ 31) (hfree : NamesApart i step c m)
    (hown : step ∉ m.names) (hcompared : m.ComparesTruths run)
    (halarms : m.distinct.Alarms step run) : ¬ c.scoped.Holds (traceOf i (truthsOf run)) 0 := by
  obtain ⟨hfits, hflags⟩ := fits_ofChunk hi hname hstep hparse h hfree hown
  exact not_holds_of_fails h hreach hflags
    ((alarms_iff_fails hfits.distinct hcompared.distinct).mp halarms)

/-- Every `a` that `b` follows at once is followed by `c` one to three steps later. -/
def answered : Chunk :=
  ⟨none, .unary .always (.binary .implies
    (.binary .and (.atom (.var "a")) (.unary .next (.atom (.var "b"))))
    (.unary .next (.bounded .eventuallyWithin 2 (.atom (.var "c")))))⟩

/-- The trigger is observed one step late, so the conclusion is due at once. -/
def answeredMonitor : Monitor where
  declarations := [.flag "TransCondition_P_0", .flag "Prev_P_0_0", .counter "Counter_P_0"]
  updates := [
    .observe "TransCondition_P_0"
      ⟨some ⟨"step", .ge, 1⟩, some (.binary .and (.leaf "Prev_P_0_0") (.leaf "b"))⟩,
    .advance "Counter_P_0",
    .start "Counter_P_0" ⟨none, some (.leaf "TransCondition_P_0")⟩]
  checks := [.checkBy "Counter_P_0" 0 2 (.leaf "c"), .latch "Prev_P_0_0" "a"]

theorem ofChunk_answered : Chunk.parse "G(a && X b -> X F<=2 c)" = .ok answered ∧
    ofChunk .empty "P_0" "step" answered = .ok answeredMonitor :=
  ⟨eq_ok_of_toOption (by decide +kernel), rfl⟩

theorem isIdentifier_step : IsIdentifier "step" :=
  ⟨'s', "tep".toList, rfl, rfl, forall_mem_of_all rfl⟩

theorem isIdentifier_property : IsIdentifier "P_0" :=
  ⟨'P', "_0".toList, rfl, rfl, forall_mem_of_all rfl⟩

/-- The lines of the answer compare nothing but the counter. -/
theorem comparesTruths_answered (run : Nat → Values) : answeredMonitor.ComparesTruths run := by
  have hnone : ∀ c ∈ answeredMonitor.conditions, c.compared = [] := by decide
  intro c hc e he
  rw [hnone c hc] at he
  cases he

/-- A run with `a` and then `b`, and never `c`. -/
def unanswered : Nat → Values := fun n text ↦
  if text = "a" ∧ n = 0 then 7 else if text = "b" ∧ n = 1 then 1 else 0

theorem not_holds_of_alarms_unanswered :
    Interface.empty.identifier = safeName ∧ IsIdentifier "P_0" ∧ IsIdentifier "step" ∧
      Chunk.parse "G(a && X b -> X F<=2 c)" = .ok answered ∧
      ofChunk .empty "P_0" "step" answered = .ok answeredMonitor ∧
      reach (splitImplication (scopeOf answered).2).2 < 2 ^ 31 ∧
      NamesApart .empty "step" answered answeredMonitor ∧ "step" ∉ answeredMonitor.names ∧
      answeredMonitor.ComparesTruths unanswered ∧
      answeredMonitor.distinct.Alarms "step" unanswered ∧
      ¬ answered.scoped.Holds (traceOf .empty (truthsOf unanswered)) 0 := by
  obtain ⟨hparse, hmonitor⟩ := ofChunk_answered
  obtain ⟨hreach, hfree, hown⟩ : reach (splitImplication (scopeOf answered).2).2 < 2 ^ 31 ∧
      NamesApart .empty "step" answered answeredMonitor ∧ "step" ∉ answeredMonitor.names := by
    decide +kernel
  have hcompared := comparesTruths_answered unanswered
  have halarms : answeredMonitor.distinct.Alarms "step" unanswered := ⟨4, by decide +kernel⟩
  exact ⟨rfl, isIdentifier_property, isIdentifier_step, hparse, hmonitor, hreach, hfree, hown,
    hcompared, halarms, not_holds_of_alarms rfl isIdentifier_property isIdentifier_step hparse
      hmonitor hreach hfree hown hcompared halarms⟩

/-- Every `p` is followed by `q`. -/
def followed : Chunk :=
  ⟨none, .unary .always (.binary .implies (.atom (.var "p")) (.unary .next (.atom (.var "q"))))⟩

/-- The lines of a property whose counter is the step counter: the counter begins the first step at
zero, so that `q` is asserted at once, although there was no `p`. -/
theorem alarms_of_sharedCounter :
    Interface.empty.identifier = safeName ∧ IsIdentifier "P_0" ∧ IsIdentifier "Counter_P_0" ∧
      Chunk.parse "G(p -> X q)" = .ok followed ∧
      reach (splitImplication (scopeOf followed).2).2 < 2 ^ 31 ∧
      ∃ m, ofChunk .empty "P_0" "Counter_P_0" followed = .ok m ∧
        NamesApart .empty "Counter_P_0" followed m ∧ m.ComparesTruths (fun _ _ ↦ 0) ∧
        m.distinct.Alarms "Counter_P_0" (fun _ _ ↦ 0) ∧
        followed.scoped.Holds (traceOf .empty (truthsOf fun _ _ ↦ 0)) 0 := by
  have hparse : Chunk.parse "G(p -> X q)" = .ok followed :=
    eq_ok_of_toOption (by decide +kernel)
  refine ⟨rfl, isIdentifier_property, ⟨'C', "ounter_P_0".toList, rfl, rfl, forall_mem_of_all rfl⟩,
    hparse, by decide, _, rfl, by decide +kernel, fun _ _ _ _ _ _ ↦ Or.inl rfl,
    ⟨1, by decide +kernel⟩, ?_⟩
  intro k _ hp
  cases hp

/-! ## Nothing missed -/

/-- Whether conditions that are spelled alike have the same value, as expressions of C have. -/
def HasOneValue (m : Monitor) (run : Nat → Values) : Prop :=
  ∀ c ∈ m.conditions, ∀ d ∈ m.conditions, c.text = d.text →
    ∀ n, c.value (run n) = d.value (run n)

/-- Lines of an equivalence that are spelled alike have sides with the same value. -/
theorem linesDiffer_of_hasOneValue (hi : i.identifier = safeName) (hstep : IsIdentifier step)
    (hparse : Chunk.parse text = .ok c) (h : ofChunk i name step c = .ok m)
    (hcompared : m.ComparesTruths run) (hvalue : m.HasOneValue run) {l r : Formula}
    (hbody : (scopeOf c).2 = .binary .iff l r) :
    LinesDiffer i (truthsOf run) ((scopeOf c).1.guard step 0) l r := by
  have hatoms := atomsOver_namedBy hi hparse
  have hformula := ofFormula_of_ofChunk h
  rw [hbody] at hatoms hformula
  obtain ⟨cl, cr, hl, hr, rfl⟩ := ofEquivalence_eq_ok hformula
  intro cl' cr' hl' hr' htext n
  obtain rfl : cl = cl' := Except.ok.inj (hl.symm.trans hl')
  obtain rfl : cr = cr' := Except.ok.inj (hr.symm.trans hr')
  have hover (d : Condition) (hd : d = cl ∨ d = cr) : d.IsOver (NamedBy i c) := by
    rcases hd with rfl | rfl
    · exact isOver_presentCondition (fun a ha ↦ hatoms a (List.mem_append_left _ ha)) hl
    · exact isOver_presentCondition (fun a ha ↦ hatoms a (List.mem_append_right _ ha)) hr
  have hplain (d e : Condition) (hd : d = cl ∨ d = cr) (he : e = cl ∨ e = cr) :
      ∀ x ∈ (Statement.check ⟨(scopeOf c).1.guard step 0, some d⟩ e).expressions, Plain x := by
    have htrigger : Trigger.IsOver step (Among [] (NamedBy i c))
        ⟨(scopeOf c).1.guard step 0, some d⟩ :=
      isOver_scoped fun d' hd' ↦ Option.some.inj hd' ▸ (hover d hd).mono fun _ hx ↦ Or.inr hx
    exact fun x hx ↦
      (isOver_check hstep (fun b ↦ Or.inl ⟨b, rfl⟩) htrigger (hover e he) x hx).plain
  have hsides : cl.text = cr.text := by
    have hexpressions := expressions_eq_of_text_eq rfl rfl (hplain cl cr (Or.inl rfl) (Or.inr rfl))
      (hplain cr cl (Or.inr rfl) (Or.inl rfl)) htext
    exact (List.singleton_inj.mp (List.append_inj' hexpressions rfl).2).symm
  have hmem (d : Condition) (hd : d = cl ∨ d = cr) : d ∈ conditions ⟨[], [],
      [.check ⟨(scopeOf c).1.guard step 0, some cl⟩ cr,
        .check ⟨(scopeOf c).1.guard step 0, some cr⟩ cl]⟩ := by
    rcases hd with rfl | rfl
    · exact List.mem_cons_self
    · exact List.mem_cons_of_mem _ List.mem_cons_self
  have htruth (d : Condition) (hd : d = cl ∨ d = cr) :
      (d.value (run n) != 0) = d.eval (truthsOf run n) :=
    Condition.value_bne_zero (fun _ _ ↦ rfl) fun e he ↦
      hcompared d (hmem d hd) e he List.not_mem_nil n
  rw [← htruth cl (Or.inl rfl), ← htruth cr (Or.inr rfl),
    hvalue cl (hmem cl (Or.inl rfl)) cr (hmem cr (Or.inr rfl)) hsides n]

/-- The lines of a property for which one counter is enough miss nothing: some assertion fails in
every run that does not satisfy the property in its scope, if the step counter, the variables of the
monitor and what the atoms name are different. -/
theorem alarms_of_not_holds (hi : i.identifier = safeName) (hname : IsIdentifier name)
    (hstep : IsIdentifier step) (hparse : Chunk.parse text = .ok c)
    (h : ofChunk i name step c = .ok m) (henough : OneCounterIsEnough (scopeOf c).2)
    (hfree : NamesApart i step c m) (hown : step ∉ m.names) (hcompared : m.ComparesTruths run)
    (hvalue : m.HasOneValue run)
    (hviolated : ¬ c.scoped.Holds (traceOf i (truthsOf run)) 0) : m.distinct.Alarms step run := by
  obtain ⟨hfits, hflags⟩ := fits_ofChunk hi hname hstep hparse h hfree hown
  refine (alarms_iff_fails hfits.distinct hcompared.distinct).mpr
    (fails_of_not_holds h henough (fun l r hbody ↦ ?_) hflags hviolated)
  exact linesDiffer_of_hasOneValue hi hstep hparse h hcompared hvalue hbody

/-- A run with `a` and `b` at every step, and never `c`. -/
def neverAnswered : Nat → Values := fun _ text ↦ if text = "a" ∨ text = "b" then 1 else 0

theorem alarms_of_not_holds_neverAnswered :
    Interface.empty.identifier = safeName ∧ IsIdentifier "P_0" ∧ IsIdentifier "step" ∧
      Chunk.parse "G(a && X b -> X F<=2 c)" = .ok answered ∧
      ofChunk .empty "P_0" "step" answered = .ok answeredMonitor ∧
      OneCounterIsEnough (scopeOf answered).2 ∧
      NamesApart .empty "step" answered answeredMonitor ∧ "step" ∉ answeredMonitor.names ∧
      answeredMonitor.ComparesTruths neverAnswered ∧ answeredMonitor.HasOneValue neverAnswered ∧
      ¬ answered.scoped.Holds (traceOf .empty (truthsOf neverAnswered)) 0 ∧
      answeredMonitor.distinct.Alarms "step" neverAnswered := by
  obtain ⟨hparse, hmonitor⟩ := ofChunk_answered
  have henough : OneCounterIsEnough (scopeOf answered).2 :=
    ⟨_, rfl, rfl, Or.inr ⟨2, rfl, by decide⟩⟩
  obtain ⟨hfree, hown, halike⟩ : NamesApart .empty "step" answered answeredMonitor ∧
      "step" ∉ answeredMonitor.names ∧ ∀ c ∈ answeredMonitor.conditions,
        ∀ d ∈ answeredMonitor.conditions, c.text = d.text → c = d := by
    decide +kernel
  have hcompared := comparesTruths_answered neverAnswered
  have hvalue : answeredMonitor.HasOneValue neverAnswered := fun c hc d hd htext _ ↦ by
    rw [halike c hc d hd htext]
  have hviolated : ¬ answered.scoped.Holds (traceOf .empty (truthsOf neverAnswered)) 0 := by
    intro hholds
    obtain ⟨k, -, -, hanswer⟩ := hholds 0 (Nat.le_refl 0) ⟨rfl, rfl⟩
    cases hanswer
  exact ⟨rfl, isIdentifier_property, isIdentifier_step, hparse, hmonitor, henough, hfree, hown,
    hcompared, hvalue, hviolated, alarms_of_not_holds rfl isIdentifier_property isIdentifier_step
      hparse hmonitor henough hfree hown hcompared hvalue hviolated⟩

/-- A monitor raises no alarm if every step passes and keeps an invariant. -/
theorem not_alarms (Inv : Variables → Prop) (hdeclared : Inv m.declared)
    (hstep : ∀ n v, Inv v → ∃ v', (Environment.performAll (fun n _ ↦ run n) step n m.updates
      (v.set step n)).bind (Environment.performAll (fun n _ ↦ run n) step n m.checks) = some v' ∧
        Inv v') : ¬ m.Alarms step run := by
  rintro ⟨n, hn⟩
  have hrun (n : Nat) : ∃ v, Environment.run (fun n _ ↦ run n) step m n = some v ∧ Inv v := by
    induction n with
    | zero => exact ⟨m.declared, rfl, hdeclared⟩
    | succ n ih =>
      obtain ⟨v, hv, hinv⟩ := ih
      obtain ⟨v', hv', hinv'⟩ := hstep n v hinv
      exact ⟨v', by rw [Environment.run, hv, Option.bind_some, hv'], hinv'⟩
  obtain ⟨v, hv, -⟩ := hrun n
  rw [hn] at hv
  cases hv

/-- Pressing `start` makes it `busy` at once. -/
def pressed : Chunk :=
  ⟨none, .unary .always (.binary .implies
    (.binary .and (.unary .not (.atom (.var "start"))) (.unary .next (.atom (.var "start"))))
    (.unary .next (.atom (.var "busy"))))⟩

/-- A run where `start` is pressed after the first step and nothing gets busy. -/
def idle : Nat → Values := fun n text ↦ if text = "start" ∧ 0 < n then 1 else 0

/-- Where `p` holds, not both or neither of `a` and `b` do. -/
def unlike : Chunk :=
  ⟨none, .unary .always (.binary .implies (.atom (.var "p"))
    (.unary .not (.binary .iff (.atom (.var "a")) (.atom (.var "b")))))⟩

/-- A run where both are true, but different numbers. -/
def distinctNumbers : Nat → Values := fun _ text ↦ if text = "b" then 2 else 1

/-- The trigger is read from the step counter, which is called like the latch of `start`. -/
def pressedMonitor : Monitor where
  declarations := [.flag "TransCondition_T_0", .flag "Prev_T_0_0"]
  updates := [.observe "TransCondition_T_0" ⟨some ⟨"Prev_T_0_0", .ge, 1⟩,
    some (.binary .and (.not (.leaf "Prev_T_0_0")) (.leaf "start"))⟩]
  checks := [.check ⟨none, some (.leaf "TransCondition_T_0")⟩ (.leaf "busy"),
    .latch "Prev_T_0_0" "start"]

/-- The number of a step is either less than one or true. -/
theorem not_alarms_pressed (run : Nat → Values) : ¬ pressedMonitor.Alarms "Prev_T_0_0" run := by
  refine not_alarms (fun _ ↦ True) trivial fun n v _ ↦ ?_
  have htrigger : Trigger.value ((v.set "Prev_T_0_0" n).read (run n))
      ⟨some ⟨"Prev_T_0_0", .ge, 1⟩,
        some (.binary .and (.not (.leaf "Prev_T_0_0")) (.leaf "start"))⟩ = 0 := by
    have hread : (v.set "Prev_T_0_0" n).read (run n) "Prev_T_0_0" = n := rfl
    rcases Nat.eq_zero_or_pos n with rfl | hn
    · rfl
    · have hne : ((n : Int) == 0) = false := beq_eq_false_iff_ne.mpr (by omega)
      simp [Trigger.value, Condition.value, ConditionOp.value, hread, hne]
  have hobserve : (Statement.observe "TransCondition_T_0" ⟨some ⟨"Prev_T_0_0", .ge, 1⟩,
      some (.binary .and (.not (.leaf "Prev_T_0_0")) (.leaf "start"))⟩).perform "Prev_T_0_0" (run n)
      (v.set "Prev_T_0_0" n) =
        some ((v.set "Prev_T_0_0" n).set "TransCondition_T_0" 0) := by
    rw [Statement.perform, htrigger]
    rfl
  rw [pressedMonitor, Environment.performAll_cons, hobserve]
  exact ⟨_, rfl, trivial⟩

/-- The sides of the equivalence are compared as numbers. -/
def unlikeMonitor : Monitor where
  declarations := []
  updates := []
  checks := [.check ⟨none, some (.leaf "p")⟩ (.not (.binary .equal (.leaf "a") (.leaf "b")))]

theorem not_alarms_unlike : ¬ unlikeMonitor.Alarms "step" distinctNumbers := by
  refine not_alarms (fun v ↦ ∀ x, x ≠ "step" → v x = none) (fun _ _ ↦ rfl) fun n v hv ↦
    ⟨v.set "step" n, ?_, fun x hx ↦ (if_neg hx).trans (hv x hx)⟩
  have hread (e : String) (he : e ≠ "step") :
      (v.set "step" n).read (distinctNumbers n) e = distinctNumbers n e := by
    rw [Variables.read, Variables.set, if_neg he, hv e he, Option.getD_none]
  have hconclusion : Condition.value ((v.set "step" n).read (distinctNumbers n))
      (.not (.binary .equal (.leaf "a") (.leaf "b"))) = 1 := by
    simp only [Condition.value, hread "a" (by decide), hread "b" (by decide)]
    rfl
  rw [unlikeMonitor]
  change Option.bind (some (v.set "step" n)) _ = _
  rw [Option.bind_some, Environment.performAll_cons, Statement.perform, hconclusion,
    if_neg fun h ↦ absurd h.2 (by decide)]
  rfl

/-- Where the step counter is the latch of a premise, the premise is never observed.  Where numbers
other than zero and one are compared, different numbers are both true. -/
theorem not_alarms_of_sharedLatch :
    Interface.empty.identifier = safeName ∧
    (Chunk.parse "G(!start && X(start) -> X(busy))" = .ok pressed ∧
      IsIdentifier "T_0" ∧ IsIdentifier "Prev_T_0_0" ∧ OneCounterIsEnough (scopeOf pressed).2 ∧
      ofChunk .empty "T_0" "Prev_T_0_0" pressed = .ok pressedMonitor ∧
      NamesApart .empty "Prev_T_0_0" pressed pressedMonitor ∧
      pressedMonitor.ComparesTruths idle ∧ pressedMonitor.HasOneValue idle ∧
      ¬ pressed.scoped.Holds (traceOf .empty (truthsOf idle)) 0 ∧
      ¬ pressedMonitor.distinct.Alarms "Prev_T_0_0" idle) ∧
    (Chunk.parse "G(p -> !(a <-> b))" = .ok unlike ∧ OneCounterIsEnough (scopeOf unlike).2 ∧
      ofChunk .empty "P_0" "step" unlike = .ok unlikeMonitor ∧
      NamesApart .empty "step" unlike unlikeMonitor ∧ "step" ∉ unlikeMonitor.names ∧
      unlikeMonitor.HasOneValue distinctNumbers ∧
      ¬ unlike.scoped.Holds (traceOf .empty (truthsOf distinctNumbers)) 0 ∧
      ¬ unlikeMonitor.distinct.Alarms "step" distinctNumbers) := by
  refine ⟨rfl, ?_, ?_⟩
  · obtain ⟨hfree, hcompares, halike, hdistinct⟩ :
        NamesApart .empty "Prev_T_0_0" pressed pressedMonitor ∧
          (∀ c ∈ pressedMonitor.conditions, c.compared = []) ∧
          (∀ c ∈ pressedMonitor.conditions, ∀ d ∈ pressedMonitor.conditions,
            c.text = d.text → c = d) ∧ pressedMonitor.distinct = pressedMonitor := by
      decide +kernel
    refine ⟨eq_ok_of_toOption (by decide +kernel), ⟨'T', "_0".toList, rfl, rfl,
      forall_mem_of_all rfl⟩, ⟨'P', "rev_T_0_0".toList, rfl, rfl, forall_mem_of_all rfl⟩,
      ⟨_, rfl, rfl, Or.inl rfl⟩, rfl, hfree, fun c hc e he ↦ ?_, fun c hc d hd htext n ↦ ?_,
      fun hholds ↦ ?_, hdistinct ▸ not_alarms_pressed idle⟩
    · rw [hcompares c hc] at he
      cases he
    · rw [halike c hc d hd htext]
    · cases hholds 0 (Nat.le_refl 0) ⟨nofun, rfl⟩
  · obtain ⟨hfree, halike, hdistinct⟩ : NamesApart .empty "step" unlike unlikeMonitor ∧
        (∀ c ∈ unlikeMonitor.conditions, ∀ d ∈ unlikeMonitor.conditions,
          c.text = d.text → c = d) ∧ unlikeMonitor.distinct = unlikeMonitor := by
      decide +kernel
    refine ⟨eq_ok_of_toOption (by decide +kernel), ⟨_, rfl, rfl, Or.inl rfl⟩, rfl, hfree, nofun,
      fun c hc d hd htext n ↦ ?_, fun hholds ↦ ?_, hdistinct ▸ not_alarms_unlike⟩
    · rw [halike c hc d hd htext]
    · exact hholds 0 (Nat.le_refl 0) rfl (iff_of_true rfl rfl)

end TemporalRequirements.Monitor

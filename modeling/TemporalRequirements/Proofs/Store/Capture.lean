import TemporalRequirements.Program.Options
import TemporalRequirements.Proofs.Interface.Collision
import TemporalRequirements.Proofs.Monitor.Scoping
import TemporalRequirements.Proofs.Store.Monitors

/-!
# Signals that lines of monitors hide

The lines of a store declare variables named after its requirements, and read the step counter.
Nothing keeps these names apart from those of signals.  A signal is hidden by one of them exactly if
it is spelled like it, and where no atom names one, the lines read the signals that the atoms name.
-/

namespace TemporalRequirements

open Text (IsIdentifier identifiersOf)

def Grammar.Phrase.variables : Phrase → List String
  | .operand t | .signed t | .level _ t => t.variables
  | .arguments ts | .items ts => Term.variablesList ts
  | .tail _ _ t => t.variables

def Grammar.Phrase.HasNames : Phrase → Prop
  | .tail _ l t => (∀ v ∈ l.variables, NameText v.toList) → ∀ v ∈ t.variables, NameText v.toList
  | p => ∀ v ∈ p.variables, NameText v.toList

/-- The variables of a phrase are spelled as names. -/
theorem Grammar.TermText.hasNames {p : Phrase} {s : List Char} (h : TermText p s) :
    p.HasNames := by
  induction h with
  | gap _ _ ih => exact ih
  | number _ | truth _ => exact nofun
  | @var w hw =>
    intro v hv
    rw [List.mem_singleton.mp hv, String.toList_ofList]
    exact hw
  | call _ _ ih => exact ih
  | paren _ _ ih => exact ih
  | noArguments _ _ => exact nofun
  | arguments _ _ _ ih => exact ih
  | lastItem _ ih =>
    exact List.forall_mem_append.mpr ⟨ih, nofun⟩
  | item _ _ _ ih ihrest => exact List.forall_mem_append.mpr ⟨ih, ihrest⟩
  | unsigned _ ih => exact ih
  | negative _ _ ih => exact ih
  | factor _ ih => exact ih
  | chain _ _ ih ihtail => exact ihtail ih
  | stop => exact id
  | link _ _ _ ih ihtail => exact fun hl ↦ ihtail (List.forall_mem_append.mpr ⟨hl, ih⟩)

/-- The variables of a predicate that was read are names. -/
theorem Grammar.PredicateText.hasNames {p : Predicate} {s : List Char} (h : PredicateText p s) :
    ∀ v ∈ p.variables, NameText v.toList := by
  cases h with
  | holds hs => exact hs.hasNames
  | compare hl _ hr => exact List.forall_mem_append.mpr ⟨hl.hasNames, hr.hasNames⟩

section

variable {v g : String}

/-- A name that starts with a letter or an underscore needs no start of its own. -/
theorem not_needsStart_plainName
    (h : ∃ c rest, v.toList = c :: rest ∧ Text.isNameStart c = true) :
    ¬ NeedsStart (plainName v) := by
  obtain ⟨c, rest, htext, hc⟩ := h
  intro hneeds
  have hhead : (plainName v).head? = some c := by
    rw [plainName, htext, List.map_cons, List.head?_cons,
      if_pos (Text.isNamePart_of_isNameStart hc)]
  have hdigit := hneeds c hhead
  rw [Grammar.isDigit_of_isNameStart hc] at hdigit
  cases hdigit

theorem Text.IsIdentifier.not_needsStart (hg : IsIdentifier g) : ¬ NeedsStart (plainName g) := by
  obtain ⟨c, rest, htext, hc, -⟩ := hg
  exact not_needsStart_plainName ⟨c, rest, htext, hc⟩

theorem Text.IsIdentifier.plainName (hg : IsIdentifier g) : plainName g = g.toList :=
  plainName_of_isNamePart fun _ hc ↦ hg.isNamePart hc

/-- An identifier that is no reserved word is its own safe name. -/
theorem Text.IsIdentifier.safeName (hg : IsIdentifier g) (hword : g ∉ reservedWords) :
    safeName g = g := by
  rw [safeName_eq, startedName_of_not_needsStart hg.not_needsStart, hg.plainName,
    String.ofList_toList, if_neg hword]

/-- A name that is its own safe name is an identifier and no reserved word. -/
theorem isIdentifier_of_safeName_eq (h : safeName g = g) :
    IsIdentifier g ∧ g ∉ reservedWords := by
  obtain ⟨c, rest, htext, hc⟩ := exists_safeName_eq_cons g
  rw [h] at htext
  have hparts (d : Char) (hd : d ∈ g.toList) : Text.isNamePart d = true :=
    isNamePart_of_mem_safeName (h.symm ▸ hd)
  refine ⟨⟨c, rest, htext, ?_, fun d hd ↦ hparts d (htext ▸ List.mem_cons_of_mem c hd)⟩, ?_⟩
  · have hpart := hparts c (htext ▸ List.mem_cons_self)
    simpa [Text.isNamePart, Char.isAlphanum, hc, Text.isNameStart] using hpart
  · intro hmem
    have hlength := congrArg (fun t ↦ t.toList.length) (safeName_of_mem_reservedWords hmem)
    simp [h] at hlength

/-- Whether the safe name of a name is written with dots for some underscores, or is a reserved word
with an underscore behind. -/
def IsSpelledAs (v g : String) : Prop :=
  plainName v = g.toList ∨ (v ∈ reservedWords ∧ g = v ++ "_")

instance (v g : String) : Decidable (IsSpelledAs v g) := inferInstanceAs (Decidable (_ ∨ _))

/-- A name has an identifier for its safe name if and only if it is spelled like it. -/
theorem safeName_eq_identifier_iff (hv : Grammar.NameText v.toList) (hg : IsIdentifier g)
    (hword : g ∉ reservedWords) : safeName v = g ↔ IsSpelledAs v g := by
  have hsafe := hg.safeName hword
  constructor
  · intro h
    rcases clashes_of_safeName_eq (h.trans hsafe.symm) with h | h
    · cases h with
      | replaced h => exact Or.inl (h.trans hg.plainName)
      | started _ hneeds => exact absurd hneeds hg.not_needsStart
      | reserved _ hmem => exact absurd hmem hword
    · cases h with
      | replaced h => exact Or.inl (h.symm.trans hg.plainName)
      | started _ hneeds => exact absurd hneeds (not_needsStart_plainName hv.starts)
      | reserved h hmem =>
        refine Or.inr ⟨hmem, String.toList_inj.mp ?_⟩
        rw [← hg.plainName, h, String.toList_append]
        rfl
  · rintro (h | ⟨hmem, rfl⟩)
    · exact (safeName_eq_of_clashes (.replaced (h.trans hg.plainName.symm))).trans hsafe
    · exact safeName_of_mem_reservedWords hmem

end

/-- A variable of a monitor is named like no reserved word. -/
theorem Monitor.IsGenerated.notMem_reservedWords {name x : String} (h : IsGenerated name x) :
    x ∉ reservedWords := by
  intro hmem
  apply underscore_notMem_of_mem_reservedWords hmem
  cases h <;> simp [Monitor.transitionFlag]

/-- The step counter of options without a fault is its own safe name. -/
theorem Program.Options.safeName_stepVariable {o : Options} {isFile : String → Bool}
    (h : o.fault? isFile = none) : safeName o.config.stepVariable = o.config.stepVariable := by
  rw [fault?] at h
  split at h
  · cases h
  · split at h
    · cases h
    · split at h
      · cases h
      · rename_i hstep
        change safeName o.stepVar = o.stepVar
        simpa using hstep

namespace Store

variable {s : Store} {i : Interface} {step : String}

/-! ## Names that the lines keep for themselves -/

/-- The step counter and the variables that the lines of a store declare. -/
def Captures (s : Store) (i : Interface) (step g : String) : Prop :=
  g = step ∨ ∃ d : Monitor.Declaration, d.name = g ∧
    d.text ∈ (Monitor.render s i step).1.declarations

/-- The variables that the lines declare are those of the monitors. -/
theorem exists_declaration_iff {g : String} : (∃ d : Monitor.Declaration, d.name = g ∧
    d.text ∈ (Monitor.render s i step).1.declarations) ↔ g ∈ (s.monitor i step).names := by
  have hlines : (Monitor.render s i step).1.declarations =
      ((s.placedChunks.map (bundleOf i step)).flatMap Bundle.declarations).eraseDups := by
    rw [render_eq]
    rfl
  rw [hlines, monitor, Monitor.mem_names_concat]
  constructor
  · rintro ⟨d, rfl, hd⟩
    obtain ⟨b, hb, hd⟩ := List.mem_flatMap.mp (List.mem_eraseDups.mp hd)
    obtain ⟨x, hx, rfl⟩ := List.mem_map.mp hb
    cases hm : monitor? i step x with
    | none =>
      obtain ⟨name, e, heq⟩ := bundleOf_of_none hm
      rw [heq] at hd
      cases hd
    | some m =>
      rw [bundleOf_of_some hm] at hd
      obtain ⟨d', hd', htext⟩ := List.mem_map.mp (List.mem_eraseDups.mp hd)
      obtain rfl := Monitor.text_declaration_injective htext
      exact ⟨m, List.mem_filterMap.mpr ⟨x, hx, hm⟩, List.mem_map_of_mem hd'⟩
  · rintro ⟨m, hm, hg⟩
    obtain ⟨x, hx, hm⟩ := List.mem_filterMap.mp hm
    obtain ⟨d, hd, rfl⟩ := List.mem_map.mp hg
    refine ⟨d, rfl, List.mem_eraseDups.mpr (List.mem_flatMap.mpr ⟨_, List.mem_map_of_mem hx, ?_⟩)⟩
    rw [bundleOf_of_some hm]
    exact List.mem_eraseDups.mpr (List.mem_map_of_mem hd)

theorem captures_iff {g : String} :
    s.Captures i step g ↔ g = step ∨ g ∈ (s.monitor i step).names :=
  or_congr_right exists_declaration_iff

/-- A captured name is an identifier and no reserved word. -/
theorem Captures.isIdentifier (h : s.Reachable i) (hi : i.identifier = safeName)
    (hstep : safeName step = step) {g : String} (hg : s.Captures i step g) :
    IsIdentifier g ∧ g ∉ reservedWords := by
  have hcounter := isIdentifier_of_safeName_eq hstep
  rcases captures_iff.mp hg with rfl | hg
  · exact hcounter
  · obtain ⟨m, hm, hg⟩ := Monitor.mem_names_concat.mp hg
    obtain ⟨x, hx, hm⟩ := List.mem_filterMap.mp hm
    have hname := hasName_of_monitor? h hi hcounter.1 hx hm
    exact ⟨(hname.shape hg).1, (hname.2.generated g hg).notMem_reservedWords⟩

/-! ## What the lines read -/

/-- The lines of a store read the atoms of its properties and their own flags. -/
theorem known_monitor {t : Monitor.Statement}
    (ht : t ∈ (s.monitor i step).updates ++ (s.monitor i step).checks) {e : String}
    (he : e ∈ t.leaves) : Monitor.Known i (s.placedChunks.flatMap fun x ↦ x.2.formula.atoms)
      (s.monitor i step).declarations e := by
  obtain ⟨m, hm, ht⟩ : ∃ m ∈ s.monitors i step, t ∈ m.updates ++ m.checks := by
    rcases List.mem_append.mp ht with ht | ht
    · obtain ⟨m, hm, ht⟩ := List.mem_flatMap.mp ht
      exact ⟨m, hm, List.mem_append_left _ ht⟩
    · obtain ⟨m, hm, ht⟩ := List.mem_flatMap.mp ht
      exact ⟨m, hm, List.mem_append_right _ ht⟩
  obtain ⟨x, hx, hm'⟩ := List.mem_filterMap.mp hm
  have hknown := Monitor.known_ofFormula (Monitor.ofFormula_of_ofChunk (ofChunk_of_monitor? hm'))
    ht he
  rw [Monitor.scopeOf_atoms] at hknown
  exact hknown.mono (fun a ha ↦ List.mem_flatMap.mpr ⟨x, hx, ha⟩)
    fun d hd ↦ List.mem_flatMap.mpr ⟨m, hm, hd⟩

/-- A host whose names are apart from the monitor's shows what its statements read. -/
theorem shows_monitor (hfree : ∀ y ∈ s.atomIdentifiers i, ¬ s.Captures i step y)
    (E : Monitor.Evaluator) (signals : Nat → String → Int) :
    Monitor.Host.Shows (E.host (s.monitor i step).names step signals) (E.observations signals)
      (s.monitor i step).distinct.declarations
      ((s.monitor i step).distinct.updates ++ (s.monitor i step).distinct.checks) := by
  intro t ht e he
  have hsub : t ∈ (s.monitor i step).updates ++ (s.monitor i step).checks := by
    refine List.mem_append.mpr ((List.mem_append.mp ht).imp ?_ ?_)
    · exact fun ht ↦ Monitor.distinctLines_subset _ ht
    · exact fun ht ↦ Monitor.distinctLines_subset _ ht
  rcases known_monitor hsub he with ⟨a, ha, rfl⟩ | hflag
  · obtain ⟨x, hx, ha⟩ := List.mem_flatMap.mp ha
    refine Or.inr fun n m ↦ E.host_eq_observations (fun y hy ↦ ?_) n m
    have hcaptures := hfree y (List.mem_flatMap.mpr ⟨x, hx, List.mem_flatMap.mpr ⟨a, ha, hy⟩⟩)
    exact not_or.mp (captures_iff.not.mp hcaptures)
  · exact Or.inl hflag

/-- A variable of an atom is printed under the name of the step counter or of a variable that the
lines declare if and only if it is spelled like it.  If no atom names one of these, the lines do at
every step what they do where all names are those of signals. -/
theorem captured_iff_isSpelledAs (h : s.Reachable i) (hi : i.identifier = safeName)
    {o : Program.Options} {isFile : String → Bool} (ho : o.fault? isFile = none) :
    (∀ x ∈ s.placedChunks, ∀ a ∈ x.2.formula.atoms, ∀ v ∈ a.predicate.variables, ∀ g,
      s.Captures i o.config.stepVariable g → ((Style.program i).variableName v = g ↔
        if i.readsAsLiteral v then v = g else IsSpelledAs v g)) ∧
    ((∀ y ∈ s.atomIdentifiers i, ¬ s.Captures i o.config.stepVariable y) →
      ∀ (E : Monitor.Evaluator) (signals : Nat → String → Int) (n : Nat),
        let m := s.monitor i o.config.stepVariable
        (E.host m.names o.config.stepVariable signals).perform m.distinct n =
          m.distinct.memoryAt (E.observations signals) n) := by
  refine ⟨fun x hx a ha v hv g hg ↦ ?_, fun hfree E signals n ↦ ?_⟩
  · obtain ⟨hidentifier, hword⟩ :=
      hg.isIdentifier h hi (Program.Options.safeName_stepVariable ho)
    change (if i.readsAsLiteral v then v else i.identifier v) = g ↔ _
    split
    · exact Iff.rfl
    · rw [hi]
      have hname : Grammar.NameText v.toList := (h.wellRead hx a ha).spelled.hasNames v hv
      exact safeName_eq_identifier_iff hname hidentifier hword
  · exact Monitor.Host.perform_eq_memoryAt (shows_monitor hfree E signals) n

def plainRun : Program.Options :=
  ⟨"requirements.csv", none, none, Program.Options.defaultOutDir, none, false, defaultUnrollLimit,
    EngineConfig.standard.stepVariable, false, Program.Options.defaultDebugLevel⟩

/-- The engine of that run with one property. -/
def plainEngine (text : String) : Engine :=
  (Engine.start .empty plainRun.config).run [.add "R" text .property, .formalizeAll]

/-- An expression is true if nothing that it names is zero. -/
def nonzero : Monitor.Evaluator where
  truth e values := (identifiersOf e).all fun x ↦ values x != 0
  congr e values values' h := by
    rw [Bool.eq_iff_iff, List.all_eq_true, List.all_eq_true]
    exact forall₂_congr fun x hx ↦ by rw [h x hx]

/-- A signal is hidden by the counter of its own property; no signal of the valves is hidden. -/
theorem captured_iff_isSpelledAs_valves :
    let e := plainEngine "G (open -> X Counter.R_0)"
    let m := valves.store.monitor .empty "i"
    Program.Options.parse ["-r", "requirements.csv"] = .ok plainRun ∧
      plainRun.fault? (fun _ ↦ false) = none ∧ e.store.Reachable .empty ∧
      valves.store.Reachable .empty ∧ Interface.empty.identifier = safeName ∧
      (∃ x ∈ e.store.placedChunks, ∃ a ∈ x.2.formula.atoms, "Counter.R_0" ∈ a.predicate.variables) ∧
      e.store.Captures .empty "i" "Counter_R_0" ∧
      (Style.program .empty).variableName "Counter.R_0" = "Counter_R_0" ∧
      (∀ y ∈ valves.store.atomIdentifiers .empty, ¬ valves.store.Captures .empty "i" y) ∧
      ∀ signals n, (nonzero.host m.names "i" signals).perform m.distinct n =
        m.distinct.memoryAt (nonzero.observations signals) n := by
  intro e m
  have hreachable : e.store.Reachable .empty := Engine.reachable_run .empty plainRun.config _
  have hvalves : valves.store.Reachable .empty := Engine.reachable_run .empty .standard _
  have hvalid : plainRun.fault? (fun _ ↦ false) = none := by decide +kernel
  have hatom : ∃ x ∈ e.store.placedChunks, ∃ a ∈ x.2.formula.atoms,
      "Counter.R_0" ∈ a.predicate.variables := by decide +kernel
  have hcaptures : e.store.Captures .empty "i" "Counter_R_0" :=
    captures_iff.mpr (Or.inr (by decide +kernel))
  have hspelled : if Interface.empty.readsAsLiteral "Counter.R_0" then
      "Counter.R_0" = "Counter_R_0" else IsSpelledAs "Counter.R_0" "Counter_R_0" := by
    decide +kernel
  have hfree : ∀ y ∈ valves.store.atomIdentifiers .empty,
      ¬ valves.store.Captures .empty "i" y := by
    have hnames : ∀ y ∈ valves.store.atomIdentifiers .empty,
        ¬ (y = "i" ∨ y ∈ (valves.store.monitor .empty "i").names) := by decide +kernel
    intro y hy hcaptures
    exact hnames y hy (captures_iff.mp hcaptures)
  refine ⟨rfl, hvalid, hreachable, hvalves, rfl, hatom, hcaptures, ?_, hfree, ?_⟩
  · obtain ⟨x, hx, a, ha, hv⟩ := hatom
    exact ((captured_iff_isSpelledAs hreachable rfl hvalid).1 x hx a ha _ hv _ hcaptures).mpr
      hspelled
  · exact (captured_iff_isSpelledAs hvalves rfl hvalid).2 hfree nonzero

/-- An expression is true if it is `i > 3` and `i` is large. -/
def large : Monitor.Evaluator where
  truth e values := e == "i > 3" && decide (3 < values "i")
  congr e values values' h := by
    by_cases he : e = "i > 3"
    · subst he
      rw [h "i" (by decide)]
    · rw [beq_eq_false_iff_ne.mpr he, Bool.false_and, Bool.false_and]

/-- A signal is hidden by the step counter: the assertion fails at the first step although the
signal is always large. -/
theorem captures_stepCounter :
    let e := plainEngine "i > 3"
    let m := e.store.monitor .empty "i"
    plainRun.fault? (fun _ ↦ false) = none ∧ e.store.Reachable .empty ∧
      (∃ x ∈ e.store.placedChunks, ∃ a ∈ x.2.formula.atoms, ∃ v ∈ a.predicate.variables,
        e.store.Captures .empty plainRun.config.stepVariable
          ((Style.program .empty).variableName v)) ∧
      (Monitor.render e.store .empty "i").1.asserts =
        ["if (i == 0) \x7b assert(i > 3); \x7d"] ∧
      (large.host m.names "i" fun _ _ ↦ 5).perform m.distinct 1 = none ∧
      m.distinct.memoryAt (large.observations fun _ _ ↦ 5) 1 ≠ none := by
  intro e m
  have hatom : ∃ x ∈ e.store.placedChunks, ∃ a ∈ x.2.formula.atoms, ∃ v ∈ a.predicate.variables,
      (Style.program .empty).variableName v = "i" := by decide +kernel
  obtain ⟨hlines, hfails, hholds⟩ :
      (Monitor.render e.store .empty "i").1.asserts =
          ["if (i == 0) \x7b assert(i > 3); \x7d"] ∧
        ((large.host m.names "i" fun _ _ ↦ 5).perform m.distinct 1).isNone = true ∧
        (m.distinct.memoryAt (large.observations fun _ _ ↦ 5) 1).isSome = true := by
    decide +kernel
  refine ⟨by decide +kernel, Engine.reachable_run .empty plainRun.config _, ?_, hlines,
    Option.isNone_iff_eq_none.mp hfails, Option.isSome_iff_ne_none.mp hholds⟩
  obtain ⟨x, hx, a, ha, v, hv, hname⟩ := hatom
  exact ⟨x, hx, a, ha, v, hv, Or.inl hname⟩

end Store

end TemporalRequirements

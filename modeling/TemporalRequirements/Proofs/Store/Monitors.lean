import TemporalRequirements.Proofs.Monitor.Composition
import TemporalRequirements.Proofs.Store.Independence
import TemporalRequirements.Proofs.Store.Places

/-!
# The bundle of a store

The bundle of a store has the lines of the monitors of all its properties and a comment for every
property without a monitor.  A program that runs it fails at the first step at which the bundle of
some property fails alone, if no atom names a variable of a monitor.
-/

namespace TemporalRequirements

open Text Monitor

namespace Monitor

def isComment (line : String) : Bool := "/*".toList.isPrefixOf line.toList

theorem isComment_errorComment (name : String) (e : MonitorError) :
    isComment (errorComment name e) = true := by
  rw [isComment, List.isPrefixOf_iff_prefix]
  exact ⟨_, by simp only [errorComment, String.toList_append, List.append_assoc]; rfl⟩

/-- The line of a statement is no comment. -/
theorem isComment_text {s : Statement} (h : ∀ x ∈ s.target?, capital x = true) :
    isComment s.text = false := by
  have hslash {c : Char} (htext : ∃ rest, s.text.toList = c :: rest) (hc : c ≠ '/') :
      isComment s.text = false := by
    obtain ⟨rest, hrest⟩ := htext
    have hopen : "/*".toList = ['/', '*'] := rfl
    rw [isComment, hrest, hopen, List.isPrefixOf_cons_cons]
    simp [hc.symm]
  cases htarget : s.target? with
  | some x =>
    have hcapital := h x htarget
    rcases exists_text_of_target? htarget with ⟨rest, hrest⟩ | ⟨rest, hrest⟩
    · cases hx : x.toList with
      | nil =>
        rw [capital, hx] at hcapital
        cases hcapital
      | cons c tail =>
        rw [hx] at hrest
        refine hslash ⟨_, hrest⟩ ?_
        rintro rfl
        rw [capital, hx, List.head?_cons, Option.any_some] at hcapital
        exact absurd hcapital (by decide)
    · exact hslash (c := 'i') ⟨_, hrest⟩ (by decide)
  | none =>
    cases s with
    | check trigger conclusion =>
      cases htext : trigger.text? with
      | some e =>
        exact hslash (c := 'i') ⟨_, by
          simp only [Statement.text, htext, ifLine, String.toList_append, List.append_assoc]
          rfl⟩ (by decide)
      | none =>
        exact hslash (c := 'a') ⟨_, by
          simp only [Statement.text, htext, assertText, String.toList_append, List.append_assoc]
          rfl⟩ (by decide)
    | _ => cases htarget

/-- Whether the lines of a bundle are those of a monitor, each kept once, beside comments. -/
structure Lists (b : Bundle) (m : Monitor) : Prop where
  declarations : b.declarations = m.declarations.map Declaration.text
  counters : b.counters = m.distinct.updates.map Statement.text
  asserts : b.asserts.filter (fun line ↦ !isComment line) = m.distinct.checks.map Statement.text

/-- Different variables are declared by different lines. -/
theorem text_declaration_injective {d d' : Declaration} (h : d.text = d'.text) : d = d' := by
  have hlist := congrArg String.toList h
  cases d with
  | flag name =>
    cases d' with
    | flag name' =>
      exact congrArg _ (String.toList_inj.mp (by simpa [Declaration.text] using hlist))
    | counter name' => simp [Declaration.text] at hlist
  | counter name =>
    cases d' with
    | flag name' => simp [Declaration.text] at hlist
    | counter name' =>
      exact congrArg _ (String.toList_inj.mp (by simpa [Declaration.text] using hlist))

theorem nodup_declarations {m : Monitor} (h : m.names.Nodup) :
    (m.declarations.map Declaration.text).Nodup :=
  (List.Nodup.of_map _ h).map fun _ _ ↦ text_declaration_injective

variable {step name : String} {V : String → Prop} {m : Monitor}

/-- No check of a monitor is a comment. -/
theorem HasName.asserts_bundle (h : HasName step V m name) :
    m.bundle.asserts.filter (fun line ↦ !isComment line) =
      m.distinct.checks.map Statement.text := by
  rw [← (lines_distinct m).2]
  refine List.filter_eq_self.mpr fun line hline ↦ ?_
  obtain ⟨t, ht, rfl⟩ := List.mem_map.mp hline
  have htarget := (h.2.statements t (List.mem_append_right _ (distinctLines_subset _ ht))).target
  rw [isComment_text fun x hx ↦ (h.shape (htarget x hx)).2]
  rfl

theorem HasName.lists_bundle (h : HasName step V m name) (hnodup : m.names.Nodup) :
    Lists m.bundle m :=
  ⟨eraseDups_of_nodup (nodup_declarations hnodup), (lines_distinct m).1.symm, h.asserts_bundle⟩

end Monitor

namespace Store

variable (s : Store) (i : Interface) (step : String)

/-! ## Monitors of properties -/

/-- The monitor of a property, if it has one. -/
def monitor? (x : ChunkRef × Chunk) : Option Monitor :=
  (Monitor.ofChunk i (Monitor.chunkName i x.1.requirement x.1.index) step x.2).toOption

def bundleOf (x : ChunkRef × Chunk) : Bundle :=
  (Monitor.chunkBundle i step x.1.requirement x.1.index x.2).1

/-- The monitors of the properties that have one, in order. -/
def monitors : List Monitor := s.placedChunks.filterMap (monitor? i step)

def monitor : Monitor := .concat (s.monitors i step)

def atomIdentifiers : List String :=
  s.placedChunks.flatMap fun x ↦ x.2.formula.atoms.flatMap fun a ↦ identifiersOf (a.expression i)

/-- What a monitor may name beside its own variables and the step counter. -/
def Named (x : String) : Prop := (∃ b, x = truthText b) ∨ x ∈ s.atomIdentifiers i

variable {s i step}

theorem ofChunk_of_monitor? {x : ChunkRef × Chunk} {m : Monitor} (h : monitor? i step x = some m) :
    Monitor.ofChunk i (Monitor.chunkName i x.1.requirement x.1.index) step x.2 = .ok m := by
  rw [monitor?] at h
  cases hm : Monitor.ofChunk i (Monitor.chunkName i x.1.requirement x.1.index) step x.2 with
  | error e =>
    rw [hm] at h
    cases h
  | ok m' =>
    rw [hm] at h
    exact congrArg Except.ok (Option.some.inj h)

/-- The atoms of formal properties were read. -/
theorem Reachable.wellRead (h : s.Reachable i) {x : ChunkRef × Chunk} (hx : x ∈ s.placedChunks) :
    ∀ a ∈ x.2.formula.atoms, a.WellRead := by
  obtain ⟨e, he, hmem⟩ := s.exists_of_chunk?
    (s.map_fst_placedChunks ▸ List.mem_map_of_mem hx) (chunk?_of_mem_placedChunks hx)
  obtain ⟨chunks, hwell, hd⟩ := h.isRead _ e (s.get?_of_mem_formalProperties he)
  rw [hd] at hmem
  exact hwell x.2 hmem

/-- The monitor of a property is named after it. -/
theorem hasName_of_monitor? (h : s.Reachable i) (hi : i.identifier = safeName)
    (hstep : IsIdentifier step) {x : ChunkRef × Chunk} (hx : x ∈ s.placedChunks) {m : Monitor}
    (hm : monitor? i step x = some m) :
    Monitor.HasName step (s.Named i) m (Monitor.chunkName i x.1.requirement x.1.index) := by
  have hname := Monitor.isNamePart_of_mem_chunkName hi x.1.requirement x.1.index
  refine ⟨hname, Monitor.isNamed_ofFormula hstep hname (fun b ↦ Or.inl ⟨b, rfl⟩) ?_
    (Monitor.ofFormula_of_ofChunk (ofChunk_of_monitor? hm))⟩
  intro a ha
  rw [Monitor.scopeOf_atoms] at ha
  refine ⟨Atom.plain_expression hi (h.wellRead hx a ha), fun y hy ↦ Or.inr ?_⟩
  exact List.mem_flatMap.mpr ⟨x, hx, List.mem_flatMap.mpr ⟨a, ha, hy⟩⟩

theorem mem_ids_of_mem_placedChunks {x : ChunkRef × Chunk} (hx : x ∈ s.placedChunks) :
    x.1.requirement ∈ s.ids := by
  obtain ⟨e, he, -⟩ := s.exists_of_chunk?
    (s.map_fst_placedChunks ▸ List.mem_map_of_mem hx) (chunk?_of_mem_placedChunks hx)
  exact s.mem_ids_of_mem_formalProperties he

/-- The monitors of a store can be run together. -/
theorem parallel_monitors (h : s.Reachable i) (hi : i.identifier = safeName)
    (hstep : IsIdentifier step) (hnames : (s.ids.map i.identifier).Nodup)
    (hfree : ∀ x ∈ s.atomIdentifiers i, x ∉ (s.monitor i step).names)
    (hown : step ∉ (s.monitor i step).names) : Monitor.Parallel (s.monitors i step) := by
  have hhasName {x : ChunkRef × Chunk} (hx : x ∈ s.placedChunks) {m : Monitor}
      (hm : monitor? i step x = some m) := hasName_of_monitor? h hi hstep hx hm
  refine Monitor.parallel_of_hasName (V := s.Named i) (fun m hm ↦ ?_) ?_ ?_ hown
  · obtain ⟨x, hx, hm⟩ := List.mem_filterMap.mp hm
    exact ⟨_, hhasName hx hm⟩
  · have hrefs : s.placedChunks.Pairwise fun x y ↦ x.1 ≠ y.1 :=
      List.pairwise_map.mp s.nodup_placedChunks
    have hpairs : s.placedChunks.Pairwise fun x y ↦
        x ∈ s.placedChunks ∧ y ∈ s.placedChunks ∧ x.1 ≠ y.1 :=
      hrefs.imp_of_mem fun hx hy hne ↦ ⟨hx, hy, hne⟩
    refine hpairs.filterMap (monitor? i step) ?_
    rintro x y ⟨hx, hy, hne⟩ a ha b hb
    refine ⟨_, _, fun heq ↦ hne ?_, hhasName hx ha, hhasName hy hb⟩
    obtain ⟨hid, hindex⟩ := Monitor.chunkName_injective heq
    have hrequirement := List.inj_on_of_nodup_map hnames (mem_ids_of_mem_placedChunks hx)
      (mem_ids_of_mem_placedChunks hy) hid
    exact congrArg₂ ChunkRef.mk hrequirement hindex
  · rintro x hx (⟨b, rfl⟩ | hatom)
    · obtain ⟨m, hm, hx⟩ := Monitor.mem_names_concat.mp hx
      obtain ⟨y, hy, hm⟩ := List.mem_filterMap.mp hm
      have hcapital := ((hhasName hy hm).shape hx).2
      cases b <;> exact absurd hcapital (by decide)
    · exact hfree x hatom hx

/-! ## Lines of the bundle -/

theorem render_eq (s : Store) (i : Interface) (step : String) :
    (Monitor.render s i step).1 = .concat (s.placedChunks.map (bundleOf i step)) := by
  rw [Monitor.render, s.flatMap_numberedChunks (Monitor.chunkBundle i step), List.map_map]
  rfl

theorem bundleOf_of_some {x : ChunkRef × Chunk} {m : Monitor} (h : monitor? i step x = some m) :
    bundleOf i step x = m.bundle := by
  rw [bundleOf, Monitor.chunkBundle, ofChunk_of_monitor? h]

/-- A property without a monitor has a comment. -/
theorem bundleOf_of_none {x : ChunkRef × Chunk} (h : monitor? i step x = none) :
    ∃ name e, bundleOf i step x = ⟨[], [], [Monitor.errorComment name e]⟩ := by
  rw [monitor?] at h
  rw [bundleOf, Monitor.chunkBundle]
  cases hm : Monitor.ofChunk i (Monitor.chunkName i x.1.requirement x.1.index) step x.2 with
  | ok m =>
    rw [hm] at h
    cases h
  | error e => exact ⟨_, e, rfl⟩

/-- What the monitors have without duplicates, with nothing for a property without a monitor, is
what all of them have without duplicates. -/
theorem eraseDups_flatMap_monitors (f : Monitor → List String) {g : ChunkRef × Chunk → List String}
    (hsome : ∀ x ∈ s.placedChunks, ∀ m, monitor? i step x = some m → g x = (f m).eraseDups)
    (hnone : ∀ x, monitor? i step x = none → g x = []) :
    (s.placedChunks.flatMap g).eraseDups = ((s.monitors i step).flatMap f).eraseDups := by
  have hparts (x : ChunkRef × Chunk) (hx : x ∈ s.placedChunks) :
      g x = ((monitor? i step x).toList.flatMap f).eraseDups := by
    cases hm : monitor? i step x with
    | none => exact hnone x hm
    | some m => rw [hsome x hx m hm, Option.toList_some, List.flatMap_singleton]
  rw [List.flatMap_congr hparts, TemporalRequirements.eraseDups_flatMap, monitors,
    List.filterMap_eq_flatMap_toList, List.flatMap_assoc]

/-- The bundle has the lines of all monitors, if the bundle of a property has those of its own. -/
theorem lists_render (hnodup : (s.monitor i step).names.Nodup)
    (hown : ∀ x ∈ s.placedChunks, ∀ m, monitor? i step x = some m → Lists (bundleOf i step x) m) :
    Lists (Monitor.render s i step).1 (s.monitor i step) := by
  rw [render_eq]
  refine ⟨?_, ?_, ?_⟩
  · rw [← eraseDups_of_nodup (nodup_declarations hnodup)]
    change (List.flatMap Bundle.declarations (List.map _ _)).eraseDups =
      (List.map _ (List.flatMap _ _)).eraseDups
    rw [List.flatMap_map, List.map_flatMap]
    refine eraseDups_flatMap_monitors _ (fun x hx m hm ↦ ?_) fun x hm ↦ ?_
    · have hmem : m ∈ s.monitors i step := List.mem_filterMap.mpr ⟨x, hx, hm⟩
      rw [(hown x hx m hm).declarations,
        eraseDups_of_nodup (nodup_declarations (nodup_names_of_mem hnodup hmem))]
    · obtain ⟨name, e, heq⟩ := bundleOf_of_none hm
      rw [heq]
  · rw [monitor, Monitor.distinct, map_text_distinctLines]
    change (List.flatMap Bundle.counters (List.map _ _)).eraseDups =
      (List.map _ (List.flatMap _ _)).eraseDups
    rw [List.flatMap_map, List.map_flatMap]
    refine eraseDups_flatMap_monitors _ (fun x hx m hm ↦ ?_) fun x hm ↦ ?_
    · rw [(hown x hx m hm).counters]
      exact map_text_distinctLines m.updates
    · obtain ⟨name, e, heq⟩ := bundleOf_of_none hm
      rw [heq]
  · rw [monitor, Monitor.distinct, map_text_distinctLines]
    change (List.eraseDups (List.flatMap Bundle.asserts (List.map _ _))).filter _ =
      (List.map _ (List.flatMap _ _)).eraseDups
    rw [List.flatMap_map, List.map_flatMap, ← eraseDups_filter, List.filter_flatMap]
    refine eraseDups_flatMap_monitors _ (fun x hx m hm ↦ ?_) fun x hm ↦ ?_
    · rw [(hown x hx m hm).asserts]
      exact map_text_distinctLines m.checks
    · obtain ⟨name, e, heq⟩ := bundleOf_of_none hm
      simp [heq, isComment_errorComment]

/-- A bundle that does together what the bundles of its properties do alone. -/
structure Composes (s : Store) (i : Interface) (step : String) (env : Environment) : Prop where
  /-- The bundle has the lines of the monitor of all properties. -/
  whole : Lists (Monitor.render s i step).1 (s.monitor i step)
  /-- The bundle of a property has the lines of its monitor. -/
  own : ∀ x ∈ s.placedChunks, ∀ m, monitor? i step x = some m → Lists (bundleOf i step x) m
  /-- The lines have failed before a step if and only if those of some property alone have. -/
  fails : ∀ n, env.run step (s.monitor i step).distinct.spelled n = none ↔
    ∃ m ∈ s.monitors i step, env.run step m.distinct.spelled n = none
  /-- What a line names is a word of C, the step counter, named by an atom or declared once. -/
  declared : ∀ line ∈ (Monitor.render s i step).1.counters ++ (Monitor.render s i step).1.asserts,
    isComment line = false → ∀ x ∈ identifiersOf line,
      x ∈ keywords ∨ x = step ∨ s.Named i x ∨ (s.monitor i step).names.count x = 1

/-- The bundle of a store composes the monitors of its properties, if the step counter is none of
their variables. -/
theorem composes_monitors {env : Environment} (h : s.Reachable i) (hi : i.identifier = safeName)
    (hstep : IsIdentifier step) (hnames : (s.ids.map i.identifier).Nodup)
    (hfree : ∀ x ∈ s.atomIdentifiers i, x ∉ (s.monitor i step).names)
    (hown : step ∉ (s.monitor i step).names) (henv : env.Respects) :
    s.Composes i step env := by
  have hparallel := parallel_monitors h hi hstep hnames hfree hown
  have hnamed (m : Monitor) (hm : m ∈ s.monitors i step) :
      ∃ name, HasName step (s.Named i) m name := by
    obtain ⟨x, hx, hm⟩ := List.mem_filterMap.mp hm
    exact ⟨_, hasName_of_monitor? h hi hstep hx hm⟩
  have hnames' (m : Monitor) (hm : m ∈ s.monitors i step) (t : Statement)
      (ht : t ∈ m.updates ++ m.checks) (x : String) (hx : x ∈ identifiersOf t.text) :
      x ∈ keywords ∨ x = step ∨ s.Named i x ∨ (s.monitor i step).names.count x = 1 := by
    obtain ⟨name, hname⟩ := hnamed m hm
    obtain ⟨htarget, hexpressions⟩ := hname.2.statements t ht
    have hcount (hx : x ∈ m.names) : (s.monitor i step).names.count x = 1 :=
      List.count_eq_one_of_mem hparallel.nodup (mem_names_concat.mpr ⟨m, hm, hx⟩)
    rcases Statement.mem_names_of_text (fun v hv ↦ (hname.shape (htarget v hv)).1) hx with hx | hx
    · exact Or.inl hx
    · right
      rcases List.mem_append.mp hx with hx | hx
      · exact Or.inr (Or.inr (hcount (htarget x (Option.mem_toList.mp hx))))
      · obtain ⟨e, he, hx⟩ := List.mem_flatMap.mp hx
        rcases (hexpressions e he).identifiers x hx with hx | hx | hx
        · exact Or.inl hx
        · exact Or.inr (Or.inr (hcount hx))
        · exact Or.inr (Or.inl hx)
  have hbundle (x : ChunkRef × Chunk) (hx : x ∈ s.placedChunks) (m : Monitor)
      (hm : monitor? i step x = some m) : Lists (bundleOf i step x) m := by
    have hmem : m ∈ s.monitors i step := List.mem_filterMap.mpr ⟨x, hx, hm⟩
    obtain ⟨name, hname⟩ := hnamed m hmem
    rw [bundleOf_of_some hm]
    exact hname.lists_bundle (nodup_names_of_mem hparallel.nodup hmem)
  have hwhole := lists_render hparallel.nodup hbundle
  refine ⟨hwhole, hbundle, Environment.run_eq_none_iff henv hparallel, fun line hline hcomment ↦ ?_⟩
  rcases List.mem_append.mp hline with hline | hline
  · rw [hwhole.counters] at hline
    obtain ⟨t, ht, rfl⟩ := List.mem_map.mp hline
    obtain ⟨m, hm, ht⟩ := List.mem_flatMap.mp (distinctLines_subset _ ht)
    exact hnames' m hm t (List.mem_append_left _ ht)
  · have hkept : line ∈ (s.monitor i step).distinct.checks.map Statement.text :=
      hwhole.asserts ▸ List.mem_filter.mpr ⟨hline, by rw [hcomment]; rfl⟩
    obtain ⟨t, ht, rfl⟩ := List.mem_map.mp hkept
    obtain ⟨m, hm, ht⟩ := List.mem_flatMap.mp (distinctLines_subset _ ht)
    exact hnames' m hm t (List.mem_append_right _ ht)

/-- An engine with two requirements that share a property.  One property looks ahead, and one has no
monitor. -/
def valves : Engine :=
  (Engine.start .empty .standard).run
    [.add "V 1" "G (open -> X closed)\n\nG (open -> moved)" .property,
      .add "V2" ("moved\n\nG (open -> moved)\n\n" ++
        "G (open && X closed -> X X moved)\n\nG open U moved") .property, .formalizeAll]

/-- A valve that is open at the first step only, closed from then on, and moves until the second
step.  What the monitor observed before is found in its variable. -/
def stuck : Environment := fun n v text ↦ Bool.toInt <|
  if text = "i >= 1 && (Prev_V2_2_0 && closed)" then
    1 ≤ v.count "i" && (v.count "Prev_V2_2_0" != 0 && 1 ≤ n)
  else if text = "i == 0" then v.count "i" == 0
  else if text = "closed" then 1 ≤ n
  else if text = "moved" then n < 2
  else n == 0 && text == "open"

theorem respects_stuck : stuck.Respects := by
  intro n text v v' h
  have hcount (x : String) (hx : x ∈ identifiersOf text) : v.count x = v'.count x := by
    rw [Variables.count, Variables.count, h x hx]
  by_cases htrigger : text = "i >= 1 && (Prev_V2_2_0 && closed)"
  · subst htrigger
    rw [stuck, stuck, if_pos rfl, if_pos rfl, hcount "i" (by decide),
      hcount "Prev_V2_2_0" (by decide)]
  · rw [stuck, stuck, if_neg htrigger, if_neg htrigger]
    by_cases hguard : text = "i == 0"
    · rw [if_pos hguard, if_pos hguard, hcount "i" (hguard ▸ by decide)]
    · rw [if_neg hguard, if_neg hguard]

/-- The valve does not move two steps after it opened, though it was closed one step after.  So the
last of five properties that have monitors fails then, alone and in the bundle. -/
theorem composes_monitors_valves :
    valves.store.Reachable .empty ∧ Interface.empty.identifier = safeName ∧ IsIdentifier "i" ∧
      (valves.store.ids.map Interface.empty.identifier).Nodup ∧
      (∀ x ∈ valves.store.atomIdentifiers .empty, x ∉ (valves.store.monitor .empty "i").names) ∧
      "i" ∉ (valves.store.monitor .empty "i").names ∧
      stuck.Respects ∧ valves.store.Composes .empty "i" stuck ∧
      (valves.store.monitor .empty "i").names =
        ["Counter_V_1_0", "TransCondition_V2_2", "Prev_V2_2_0", "Counter_V2_2"] ∧
      (valves.store.monitors .empty "i").map (fun m ↦ (stuck.run "i" m.distinct.spelled 3).isSome) =
        [true, true, true, true, false] ∧
      stuck.run "i" (valves.store.monitor .empty "i").distinct.spelled 2 ≠ none ∧
      stuck.run "i" (valves.store.monitor .empty "i").distinct.spelled 3 = none := by
  have hreachable : valves.store.Reachable .empty := Engine.reachable_run .empty .standard _
  have hstep : IsIdentifier "i" := ⟨'i', [], rfl, rfl, nofun⟩
  obtain ⟨hnames, hfree, hown, hvariables, hruns, hfirst, hsecond⟩ :
      (valves.store.ids.map Interface.empty.identifier).Nodup ∧
        (∀ x ∈ valves.store.atomIdentifiers .empty,
          x ∉ (valves.store.monitor .empty "i").names) ∧
        "i" ∉ (valves.store.monitor .empty "i").names ∧
        (valves.store.monitor .empty "i").names =
          ["Counter_V_1_0", "TransCondition_V2_2", "Prev_V2_2_0", "Counter_V2_2"] ∧
        (valves.store.monitors .empty "i").map
            (fun m ↦ (stuck.run "i" m.distinct.spelled 3).isSome) =
          [true, true, true, true, false] ∧
        (stuck.run "i" (valves.store.monitor .empty "i").distinct.spelled 2).isSome = true ∧
        (stuck.run "i" (valves.store.monitor .empty "i").distinct.spelled 3).isNone = true := by
    decide +kernel
  exact ⟨hreachable, rfl, hstep, hnames, hfree, hown, respects_stuck,
    composes_monitors hreachable rfl hstep hnames hfree hown respects_stuck, hvariables, hruns,
    Option.isSome_iff_ne_none.mp hfirst, Option.isNone_iff_eq_none.mp hsecond⟩

/-- An engine with a property that has a counter and one that is checked at the first step. -/
def counted : Engine :=
  (Engine.start .empty .standard).run
    [.add "P" "G (p -> X q)" .property, .add "Q" "r" .property, .formalizeAll]

/-- A program whose step counter is called like the counter of the first property: `q` is true at
every step, `p` and `r` never are. -/
def sharing : Environment := fun _ v text ↦ Bool.toInt <|
  if text = "Counter_P_0 == 0" then v.count "Counter_P_0" == 0 else text == "q"

/-- The lines of the first property put the step counter to rest before the second one compares it,
so an assertion that fails alone is not checked in the bundle. -/
theorem not_composes_counted :
    counted.store.Reachable .empty ∧ Interface.empty.identifier = safeName ∧
      IsIdentifier "Counter_P_0" ∧ (counted.store.ids.map Interface.empty.identifier).Nodup ∧
      (∀ x ∈ counted.store.atomIdentifiers .empty, x ≠ "Counter_P_0" ∧
        x ∉ (counted.store.monitor .empty "Counter_P_0").names) ∧
      sharing.Respects ∧
      (∃ m ∈ counted.store.monitors .empty "Counter_P_0",
        sharing.run "Counter_P_0" m.distinct.spelled 1 = none) ∧
      sharing.run "Counter_P_0" (counted.store.monitor .empty "Counter_P_0").distinct.spelled 1 ≠
        none := by
  have hreachable : counted.store.Reachable .empty := Engine.reachable_run .empty .standard _
  have hstep : IsIdentifier "Counter_P_0" :=
    ⟨'C', "ounter_P_0".toList, rfl, rfl, forall_mem_of_all rfl⟩
  have hrespects : sharing.Respects := by
    intro n text v v' h
    by_cases hguard : text = "Counter_P_0 == 0"
    · subst hguard
      have hcount : v "Counter_P_0" = v' "Counter_P_0" := h "Counter_P_0" (by decide)
      rw [sharing, sharing, if_pos rfl, if_pos rfl, Variables.count, Variables.count, hcount]
    · rw [sharing, sharing, if_neg hguard, if_neg hguard]
  obtain ⟨hnames, hfree, halone, hbundle⟩ :
      (counted.store.ids.map Interface.empty.identifier).Nodup ∧
        (∀ x ∈ counted.store.atomIdentifiers .empty, x ≠ "Counter_P_0" ∧
          x ∉ (counted.store.monitor .empty "Counter_P_0").names) ∧
        (∃ m ∈ counted.store.monitors .empty "Counter_P_0",
          (sharing.run "Counter_P_0" m.distinct.spelled 1).isNone = true) ∧
        (sharing.run "Counter_P_0"
          (counted.store.monitor .empty "Counter_P_0").distinct.spelled 1).isSome = true := by
    decide +kernel
  refine ⟨hreachable, rfl, hstep, hnames, hfree, hrespects, ?_,
    Option.isSome_iff_ne_none.mp hbundle⟩
  obtain ⟨m, hm, hnone⟩ := halone
  exact ⟨m, hm, Option.isNone_iff_eq_none.mp hnone⟩

end Store

end TemporalRequirements

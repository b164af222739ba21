import TemporalRequirements.Engine
import TemporalRequirements.Proofs.Smt.Outcome
import TemporalRequirements.Proofs.Smt.TypeTable

/-!
# What a script accounts for

Every formal property is asserted in the block of its group or reported, and never both.  The
constants that a script declares are those of its assertions.  Both follow from the outcomes of the
properties: their assertions and messages are looked up by the property that they belong to.
-/

namespace TemporalRequirements

namespace Store

variable (s : Store)

/-- Groups of either kind hold every formal property once. -/
theorem perm_groups (mode : GroupingMode) : (s.groups mode).flatten.Perm s.formalChunks := by
  cases mode with
  | independent => exact s.partition_groups.perm
  | correctnessCheck =>
    simp only [groups]
    split
    · rename_i hempty
      rw [List.isEmpty_iff.mp hempty]
      rfl
    · simp

end Store

namespace Smt

theorem map_some_filterMap {α β : Type} (f : α → Option β) (l : List α) :
    (l.filterMap f).map some = (l.filter fun a ↦ (f a).isSome).map f := by
  induction l with
  | nil => rfl
  | cons a l ih =>
    cases h : f a with
    | none => simp [h, ih]
    | some b => simp [h, ih]

section

variable (s : Store) (i : Interface) (limit : UInt32)

def assertions : List Assertion :=
  s.placedChunks.flatMap fun x ↦
    (((Scope.of i).outcome limit x.2).assertion? (Scope.of i) x.1).toList

/-- The messages about the properties of a store. -/
def reports : List Diagnostic :=
  s.placedChunks.flatMap fun x ↦ ((Scope.of i).outcome limit x.2).report x.1

def outcome? (ref : ChunkRef) : Option Outcome :=
  (s.chunk? ref).map ((Scope.of i).outcome limit)

/-- The types that a script ends up with, and the names whose types it assumes. -/
def resolvedTypes : TypeTable × List String :=
  (collectTypes i ((assertions s i limit).flatMap Assertion.notes)).resolve

theorem results_eq : (s.formalProperties.flatMap fun (id, e) ↦
    e.numberedChunks.map fun (k, c) ↦ assertion (Scope.of i) limit id k c) =
      s.placedChunks.map fun x ↦ assertion (Scope.of i) limit x.1.requirement x.1.index x.2 :=
  s.flatMap_numberedChunks (assertion (Scope.of i) limit)

variable {s i limit}

theorem filterMap_results_ok {pick : Except Diagnostic Assertion → Option Assertion}
    (hok : ∀ a, pick (.ok a) = some a) (herror : ∀ d, pick (.error d) = none) :
    (s.placedChunks.map fun x ↦
      assertion (Scope.of i) limit x.1.requirement x.1.index x.2).filterMap pick =
        assertions s i limit := by
  rw [List.filterMap_map, List.filterMap_eq_flatMap_toList]
  apply List.flatMap_congr
  rintro ⟨ref, c⟩ -
  rcases assertion_cases (Scope.of i) limit ref c with ⟨a, heq, hsome, -⟩ | ⟨d, heq, hnone, -⟩
  · rw [Function.comp_apply, heq, hok, hsome]
  · rw [Function.comp_apply, heq, herror, hnone]

theorem filterMap_results_error {pick : Except Diagnostic Assertion → Option Diagnostic}
    (hok : ∀ a, pick (.ok a) = none) (herror : ∀ d, pick (.error d) = some d) :
    (s.placedChunks.map fun x ↦
      assertion (Scope.of i) limit x.1.requirement x.1.index x.2).filterMap pick =
        reports s i limit := by
  rw [List.filterMap_map, List.filterMap_eq_flatMap_toList]
  apply List.flatMap_congr
  rintro ⟨ref, c⟩ -
  rcases assertion_cases (Scope.of i) limit ref c with ⟨a, heq, -, hnone⟩ | ⟨d, heq, -, hsome⟩
  · rw [Function.comp_apply, heq, hok, hnone, Option.toList_none]
  · rw [Function.comp_apply, heq, herror, hsome, Option.toList_some]

variable (s i limit)

/-- A script is made from the assertions and the messages of the properties. -/
theorem build_eq (groups : List (List ChunkRef)) :
    build s i limit groups =
      ({ datatypes := i.enums.values.map (datatypeLine (Scope.of i))
         constants := (resolvedTypes s i limit).1.types.entries.map (constantLine i)
         blocks := (groups.map (block (assertions s i limit))).filter fun b ↦ !b.isEmpty
         types := (resolvedTypes s i limit).1 },
        reports s i limit ++ defaultWarning (resolvedTypes s i limit).2) := by
  rw [build]
  simp only [results_eq]
  rw [filterMap_results_ok (fun _ ↦ rfl) fun _ ↦ rfl,
    filterMap_results_error (fun _ ↦ rfl) fun _ ↦ rfl]
  rfl

variable {s i limit}

/-! ## The assertion and the messages of a property -/

theorem outcome?_of_mem_placedChunks {ref : ChunkRef} {c : Chunk}
    (h : (ref, c) ∈ s.placedChunks) :
    outcome? s i limit ref = some ((Scope.of i).outcome limit c) := by
  rw [outcome?, Store.chunk?_of_mem_placedChunks h, Option.map_some]

/-- The assertion of a property is found by its reference. -/
theorem find?_assertions {ref : ChunkRef} {c : Chunk} (h : (ref, c) ∈ s.placedChunks) :
    (assertions s i limit).find? (fun a ↦ a.ref = ref) =
      ((Scope.of i).outcome limit c).assertion? (Scope.of i) ref := by
  have hfilter := filter_flatMap_of_nodup s.nodup_placedChunks
    (fun x ↦ (((Scope.of i).outcome limit x.2).assertion? (Scope.of i) x.1).toList)
    (fun ref a ↦ a.ref = ref) ?_ h
  · rw [← List.head?_filter, assertions, hfilter, Option.head?_toList]
  · intro x a ha r
    rw [Option.mem_toList] at ha
    cases ho : (Scope.of i).outcome limit x.2 with
    | asserted body e =>
      rw [ho] at ha
      obtain rfl := Option.some.inj ha
      simp [eq_comm]
    | _ =>
      rw [ho] at ha
      cases ha

theorem filter_reports {ref : ChunkRef} {c : Chunk} (h : (ref, c) ∈ s.placedChunks) :
    (reports s i limit).filter (Diagnostic.isAbout ref) =
      ((Scope.of i).outcome limit c).report ref := by
  apply filter_flatMap_of_nodup s.nodup_placedChunks
    (fun x ↦ ((Scope.of i).outcome limit x.2).report x.1) Diagnostic.isAbout ?_ h
  exact fun x d hd r ↦ Diagnostic.isAbout_iff_eq (Outcome.isAbout_of_mem_report hd) r

theorem filter_defaultWarning (ref : ChunkRef) (names : List String) :
    (defaultWarning names).filter (Diagnostic.isAbout ref) = [] := by
  rw [defaultWarning]
  split
  · rfl
  · rfl

/-! ## The main result -/

variable (s i limit)

def line? (ref : ChunkRef) : Option String :=
  (outcome? s i limit ref).bind (Outcome.line? i ref)

def placed (groups : List (List ChunkRef)) : List (List ChunkRef) :=
  (groups.map fun g ↦ g.filter fun ref ↦ (line? s i limit ref).isSome).filter fun b ↦ !b.isEmpty

/-- A script with its messages that leaves no property out and declares no more than it uses. -/
structure Accounts (groups : List (List ChunkRef)) (result : Script × List Diagnostic) :
    Prop where
  /-- A block asserts the properties of one group that can be asserted. -/
  blocks : result.1.blocks.map (fun b ↦ b.map some) =
    (placed s i limit groups).map fun g ↦ g.map (line? s i limit)
  nodup_placed : (placed s i limit groups).flatten.Nodup
  /-- The asserted properties are the formal ones that can be unrolled and encoded. -/
  mem_placed : ∀ ref, ref ∈ (placed s i limit groups).flatten ↔
    ref ∈ s.formalChunks ∧ ∃ body e, outcome? s i limit ref = some (.asserted body e)
  /-- The messages about a formal property are none if it is asserted and one if it is not. -/
  reported : ∀ ref ∈ s.formalChunks, ∃ o, outcome? s i limit ref = some o ∧
    result.2.filter (Diagnostic.isAbout ref) = o.report ref
  constants : result.1.constants = result.1.types.types.entries.map (constantLine i)
  nodup_names : result.1.types.names.Nodup
  /-- The declared names are those of the constants in the assertions. -/
  mem_names : ∀ name, name ∈ result.1.types.names ↔
    ∃ ref ∈ (placed s i limit groups).flatten, ∃ body e,
      outcome? s i limit ref = some (.asserted body e) ∧ name ∈ e.constants
  /-- The constants of an assertion are the copies of variables in what is asserted. -/
  copies : ∀ ref body e, outcome? s i limit ref = some (.asserted body e) →
    e.constants = ((Scope.of i).copies 0 body).map (Scope.of i).nameOf
  /-- Types are told by asserted properties only. -/
  types : result.1.types = (collectTypes i (s.formalChunks.flatMap fun ref ↦
    ((outcome? s i limit ref).map (Outcome.notes (Scope.of i))).getD [])).resolve.1

variable {s i limit}

theorem outcome?_eq_asserted_iff {ref : ChunkRef} {body : Formula} {e : Expr} :
    outcome? s i limit ref = some (.asserted body e) ↔
      ∃ c, s.chunk? ref = some c ∧ c.body limit = .ok body ∧
        (Scope.of i).formula 0 body = .ok e := by
  simp only [outcome?, Option.map_eq_some_iff, Scope.outcome_eq_asserted_iff]

theorem constants_of_outcome? {ref : ChunkRef} {body : Formula} {e : Expr}
    (h : outcome? s i limit ref = some (.asserted body e)) :
    e.constants = ((Scope.of i).copies 0 body).map (Scope.of i).nameOf := by
  obtain ⟨c, -, -, he⟩ := outcome?_eq_asserted_iff.mp h
  exact (Scope.formula_ok he).2

theorem isSome_line?_iff {ref : ChunkRef} : (line? s i limit ref).isSome = true ↔
    ∃ body e, outcome? s i limit ref = some (.asserted body e) := by
  rw [line?]
  cases outcome? s i limit ref with
  | none => simp
  | some o => cases o <;> simp [Outcome.line?]

theorem flatten_placed (groups : List (List ChunkRef)) :
    (placed s i limit groups).flatten =
      groups.flatten.filter fun ref ↦ (line? s i limit ref).isSome := by
  rw [placed, List.flatten_filter_not_isEmpty, List.filter_flatten]

theorem block_assertions {g : List ChunkRef} (h : g ⊆ s.formalChunks) :
    block (assertions s i limit) g = g.filterMap (line? s i limit) := by
  rw [block]
  apply List.filterMap_congr
  intro ref href
  obtain ⟨c, hc⟩ := Store.exists_mem_placedChunks (h href)
  rw [find?_assertions hc, Outcome.map_text_assertion?, line?, outcome?_of_mem_placedChunks hc]
  rfl

/-- The blocks hold the lines of the asserted properties, group by group. -/
theorem map_some_blocks {groups : List (List ChunkRef)} (h : ∀ g ∈ groups, g ⊆ s.formalChunks) :
    ((groups.map (block (assertions s i limit))).filter fun b ↦ !b.isEmpty).map
      (fun b ↦ b.map some) = (placed s i limit groups).map fun g ↦ g.map (line? s i limit) := by
  have hline {g : List ChunkRef} (hg : g ∈ groups) :
      (block (assertions s i limit) g).map some =
        (g.filter fun ref ↦ (line? s i limit ref).isSome).map (line? s i limit) := by
    rw [block_assertions (h g hg), map_some_filterMap]
  have hnonempty : groups.filter ((fun b ↦ !b.isEmpty) ∘ block (assertions s i limit)) =
      groups.filter ((fun b ↦ !b.isEmpty) ∘ fun g ↦
        g.filter fun ref ↦ (line? s i limit ref).isSome) := by
    apply List.filter_congr
    intro g hg
    rw [Function.comp_apply, Function.comp_apply, ← List.isEmpty_map (f := some), hline hg,
      List.isEmpty_map]
  rw [placed, List.filter_map, List.filter_map, List.map_map, List.map_map, hnonempty]
  apply List.map_congr_left
  intro g hg
  exact hline (List.mem_filter.mp hg).1

theorem notes_assertions : (assertions s i limit).flatMap Assertion.notes =
    s.formalChunks.flatMap fun ref ↦
      ((outcome? s i limit ref).map (Outcome.notes (Scope.of i))).getD [] := by
  rw [assertions, List.flatMap_assoc, ← s.map_fst_placedChunks, List.flatMap_map]
  apply List.flatMap_congr
  rintro ⟨ref, c⟩ hx
  rw [Outcome.flatMap_notes_assertion?, outcome?_of_mem_placedChunks hx, Option.map_some,
    Option.getD_some]

/-- The names in the table are the constants of the asserted expressions. -/
theorem mem_names_resolvedTypes (name : String) :
    name ∈ (resolvedTypes s i limit).1.names ↔
      ∃ ref ∈ s.formalChunks, ∃ body e,
        outcome? s i limit ref = some (.asserted body e) ∧ name ∈ e.constants := by
  have hnotes {ref : ChunkRef} : name ∈ (((outcome? s i limit ref).map
      (Outcome.notes (Scope.of i))).getD []).map Prod.fst ↔
        ∃ body e, outcome? s i limit ref = some (.asserted body e) ∧ name ∈ e.constants := by
    cases ho : outcome? s i limit ref with
    | none => simp
    | some o =>
      cases o with
      | asserted body e =>
        obtain ⟨c, -, -, he⟩ := outcome?_eq_asserted_iff.mp ho
        have hencodable := Scope.exists_formula_ok_iff.mp ⟨e, he⟩
        rw [Option.map_some, Option.getD_some, Outcome.notes, Scope.mem_notes hencodable,
          ← (Scope.formula_ok he).2]
        simp
      | _ => simp [Outcome.notes]
  rw [resolvedTypes, TypeTable.names_resolve, mem_names_collectTypes, notes_assertions,
    List.map_flatMap, List.mem_flatMap]
  simp only [hnotes]

/-- A script accounts for every formal property of an engine. -/
theorem accounts_build (e : Engine) :
    Accounts e.store e.interface e.config.unrollLimit e.groups
      (build e.store e.interface e.config.unrollLimit e.groups) := by
  have hperm : e.groups.flatten.Perm e.store.formalChunks := e.store.perm_groups e.config.grouping
  have hplaced (ref : ChunkRef) :
      ref ∈ (placed e.store e.interface e.config.unrollLimit e.groups).flatten ↔
        ref ∈ e.store.formalChunks ∧
          ∃ body t, outcome? e.store e.interface e.config.unrollLimit ref =
            some (.asserted body t) := by
    rw [flatten_placed, List.mem_filter, isSome_line?_iff, hperm.mem_iff]
  rw [build_eq]
  refine ⟨?_, ?_, hplaced, ?_, rfl, TypeTable.nodup_names _, ?_, ?_, ?_⟩
  · exact map_some_blocks fun g hg ref href ↦ hperm.subset (List.mem_flatten_of_mem hg href)
  · rw [flatten_placed]
    exact (hperm.nodup_iff.mpr e.store.nodup_formalChunks).filter _
  · intro ref href
    obtain ⟨c, hc⟩ := Store.exists_mem_placedChunks href
    refine ⟨_, outcome?_of_mem_placedChunks hc, ?_⟩
    rw [List.filter_append, filter_defaultWarning, List.append_nil, filter_reports hc]
  · intro name
    rw [mem_names_resolvedTypes]
    constructor
    · rintro ⟨ref, href, body, t, houtcome, hname⟩
      exact ⟨ref, (hplaced ref).mpr ⟨href, body, t, houtcome⟩, body, t, houtcome, hname⟩
    · rintro ⟨ref, href, body, t, houtcome, hname⟩
      exact ⟨ref, ((hplaced ref).mp href).1, body, t, houtcome, hname⟩
  · exact fun ref body t ↦ constants_of_outcome?
  · exact congrArg (fun notes ↦ (collectTypes e.interface notes).resolve.1) notes_assertions

end

end Smt

end TemporalRequirements

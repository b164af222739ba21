import TemporalRequirements.Proofs.Decomposition.Tokens
import TemporalRequirements.Proofs.Engine.History
import TemporalRequirements.Proofs.Store.Components

/-!
# Verification groups are independent

The dependency tokens of a property are the identifiers in its formula except for those that are
spelled like an enumeration literal.  So properties in different groups have no variable in common,
unless its identifier is spelled like a literal.
-/

namespace TemporalRequirements

variable {i : Interface}

namespace Store

/-- The stores that operations lead to over one interface.  A failed operation changes nothing. -/
inductive Reachable (i : Interface) : Store → Prop where
  | empty : Reachable i .empty
  | insert {s : Store} (h : Reachable i s) (id text : String) (kind : RequirementKind) :
    Reachable i (s.insert id text kind)
  | erase {s : Store} (h : Reachable i s) (id : String) : Reachable i (s.erase id)
  | setStatus {s : Store} (h : Reachable i s) (id : String) (status : Status) :
    Reachable i (s.setStatus id status)
  | updateStructure {s s' : Store} (h : Reachable i s) {id text : String}
    {warnings : List Diagnostic} (hnext : s.updateStructure i id text = .ok (s', warnings)) :
    Reachable i s'

/-- A store in which every decomposition is of properties that were read. -/
def IsRead (s : Store) (i : Interface) : Prop :=
  ∀ id e, s.get? id = some e → e.decomposition.IsRead i

theorem IsRead.insert {s : Store} (h : s.IsRead i) (id text : String) (kind : RequirementKind) :
    (s.insert id text kind).IsRead i := by
  intro id' e he
  rw [Store.get?, Store.insert, OrderedMap.get?_insert] at he
  split at he
  · obtain rfl := Option.some.inj he
    cases hget : s.get? id with
    | none => exact Decomposition.isRead_empty i
    | some x => exact h id x hget
  · exact h id' e he

theorem IsRead.erase {s : Store} (h : s.IsRead i) (id : String) : (s.erase id).IsRead i := by
  intro id' e he
  rw [Store.get?, Store.erase, OrderedMap.get?_erase] at he
  split at he
  · cases he
  · exact h id' e he

/-- Changing an entry keeps the decompositions read, if it does so for this one. -/
theorem IsRead.modify {s : Store} (h : s.IsRead i) {id : String} {f : Entry → Entry}
    (hf : ∀ e, e.decomposition.IsRead i → (f e).decomposition.IsRead i) :
    IsRead ⟨s.entries.modify id f⟩ i := by
  intro id' e he
  rw [Store.get?, OrderedMap.get?_modify] at he
  split at he
  · obtain ⟨x, hx, rfl⟩ := Option.map_eq_some_iff.mp he
    exact hf x (h id' x hx)
  · exact h id' e he

/-- Formalizing leaves decompositions of properties that were read. -/
theorem IsRead.updateStructure {s s' : Store} (h : s.IsRead i) {id text : String}
    {warnings : List Diagnostic} (hnext : s.updateStructure i id text = .ok (s', warnings)) :
    s'.IsRead i := by
  unfold Store.updateStructure at hnext
  split at hnext
  · cases hnext
  · split at hnext
    · cases hnext
    · obtain ⟨rfl, -⟩ := Prod.mk.inj (Except.ok.inj hnext)
      exact h
    · rename_i d hdecompose
      obtain ⟨rfl, -⟩ := Prod.mk.inj (Except.ok.inj hnext)
      exact h.modify fun _ _ ↦ Decomposition.isRead_of_decompose hdecompose

theorem Reachable.isRead {s : Store} (h : s.Reachable i) : s.IsRead i := by
  induction h with
  | empty => exact fun id e he ↦ by cases he
  | insert _ id text kind ih => exact ih.insert id text kind
  | erase _ id ih => exact ih.erase id
  | setStatus _ id status ih => exact ih.modify fun _ hread ↦ hread
  | updateStructure _ hnext ih => exact ih.updateStructure hnext

end Store

namespace Engine

theorem reachable_formalize {e : Engine} (h : e.store.Reachable e.interface) (id : String) :
    (e.formalize id).1.store.Reachable e.interface := by
  unfold formalize
  split
  · exact h
  · split
    · rename_i hnext
      exact h.updateStructure hnext
    · exact h.setStatus id _

theorem reachable_formalizeEach {e : Engine} (h : e.store.Reachable e.interface)
    (ids : List String) : (e.formalizeEach ids).1.store.Reachable e.interface := by
  induction ids generalizing e with
  | nil => exact h
  | cons id ids ih =>
    have hnext := reachable_formalize h id
    rw [← interface_formalize e id] at hnext ⊢
    exact ih hnext

theorem reachable_call {e : Engine} (h : e.store.Reachable e.interface) (c : Call) :
    (e.call c).store.Reachable e.interface := by
  cases c with
  | add id text kind => exact h.insert id text kind
  | formalize id => exact reachable_formalize h id
  | formalizeAll => exact reachable_formalizeEach h e.store.ids

/-- The store of an engine is one that operations lead to. -/
theorem reachable_run (i : Interface) (config : EngineConfig) (calls : List Call) :
    ((start i config).run calls).store.Reachable i := by
  induction calls using List.reverseRecOn with
  | nil => exact .empty
  | append_singleton calls c ih =>
    have hinterface : ((start i config).run calls).interface = i :=
      (agrees_run i config calls).1
    have hnext : (((start i config).run calls).call c).store.Reachable i := by
      have hcall := reachable_call (e := (start i config).run calls) (by rwa [hinterface]) c
      rwa [hinterface] at hcall
    rwa [run, List.foldl_append]

end Engine

namespace Store

/-! ## Properties with an identifier in common -/

/-- The variables that a property mentions. -/
def mentioned (s : Store) (ref : ChunkRef) : List String :=
  match s.chunk? ref with
  | some c => c.formula.variables
  | none => []

/-- The identifiers that stand in a property for its variables, and the names of called
functions. -/
def identifiers (s : Store) (i : Interface) (ref : ChunkRef) : List String :=
  match s.chunk? ref with
  | some c => c.formula.identifiers i.identifier
  | none => []

/-- Formal properties with an identifier in common that is not spelled like a literal. -/
structure ShareIdentifier (s : Store) (i : Interface) (a b : ChunkRef) : Prop where
  left : a ∈ s.formalChunks
  right : b ∈ s.formalChunks
  shares : ∃ t, t ∈ s.identifiers i a ∧ t ∈ s.identifiers i b ∧ i.isLiteral t = false

variable {s : Store} {ref a b : ChunkRef}

/-- The identifier of a mentioned variable is one of the property. -/
theorem mem_identifiers {v : String} (h : v ∈ s.mentioned ref) :
    i.identifier v ∈ s.identifiers i ref := by
  unfold mentioned at h
  unfold identifiers
  cases hchunk : s.chunk? ref with
  | none =>
    rw [hchunk] at h
    cases h
  | some c =>
    rw [hchunk] at h
    exact (Formula.mem_identifiers_iff _).mpr (Or.inl (List.mem_map_of_mem h))

/-- A property depends on the identifiers in it that are not spelled like a literal. -/
theorem Reachable.hasToken_iff (h : s.Reachable i) (hi : i.identifier = safeName) {t : String} :
    s.HasToken ref t ↔ t ∈ s.identifiers i ref ∧ i.isLiteral t = false := by
  rw [HasToken, identifiers]
  cases hget : s.get? ref.requirement with
  | none => simp [chunkTokens?, chunk?, hget]
  | some e =>
    have hread := h.isRead _ e hget
    have hchunk : s.chunk? ref = e.decomposition.chunks[ref.index]? := by
      rw [chunk?, hget, Option.bind_some]
    have htokens : s.chunkTokens? ref = e.decomposition.chunks[ref.index]?.map fun c ↦
        e.decomposition.tokensOf i.isLiteral c.formula := by
      rw [chunkTokens?, hget, Option.bind_some, hread.getElem?_chunkTokens]
    rw [hchunk, htokens]
    cases hc : e.decomposition.chunks[ref.index]? with
    | none => simp
    | some c =>
      rw [Option.map_some, ← hread.mem_tokensOf hi (List.mem_of_getElem? hc)]
      simp

/-- Properties share a token exactly if they share an identifier that is no literal. -/
theorem Reachable.adjacent_iff (h : s.Reachable i) (hi : i.identifier = safeName) :
    s.Adjacent a b ↔ s.ShareIdentifier i a b := by
  have htokens (t : String) : (s.HasToken a t ∧ s.HasToken b t) ↔
      (t ∈ s.identifiers i a ∧ t ∈ s.identifiers i b ∧ i.isLiteral t = false) := by
    rw [h.hasToken_iff hi, h.hasToken_iff hi]
    tauto
  constructor
  · rintro ⟨ha, hb, hshares⟩
    exact ⟨ha, hb, hshares.imp fun t ↦ (htokens t).mp⟩
  · rintro ⟨ha, hb, hshares⟩
    exact ⟨ha, hb, hshares.imp fun t ↦ (htokens t).mpr⟩

/-! ## The main result -/

/-- Formal properties that mention the same variable are in the same group, unless its identifier
is spelled like a literal.  Groups hold nothing else: what is in the same group is connected by
properties that have such identifiers in common. -/
theorem same_group_of_mentioned (h : s.Reachable i) (hi : i.identifier = safeName)
    (ha : a ∈ s.formalChunks) (hb : b ∈ s.formalChunks) :
    (∀ v, v ∈ s.mentioned a → v ∈ s.mentioned b → i.isLiteral (safeName v) = false →
      ∃ g ∈ s.groups .independent, a ∈ g ∧ b ∈ g) ∧
    ((∃ g ∈ s.groups .independent, a ∈ g ∧ b ∈ g) ↔
      Relation.ReflTransGen (s.ShareIdentifier i) a b) := by
  have hadjacent : s.Adjacent = s.ShareIdentifier i := by
    funext a b
    exact propext (h.adjacent_iff hi)
  have hgroup : (∃ g ∈ s.groups .independent, a ∈ g ∧ b ∈ g) ↔
      Relation.ReflTransGen (s.ShareIdentifier i) a b := by
    rw [← hadjacent]
    exact s.partition_groups.mem_iff ha
  refine ⟨fun v hva hvb hliteral ↦ ?_, hgroup⟩
  rw [← hi] at hliteral
  have hshares : s.ShareIdentifier i a b :=
    ⟨ha, hb, i.identifier v, mem_identifiers hva, mem_identifiers hvb, hliteral⟩
  exact hgroup.mpr (Relation.ReflTransGen.single hshares)

def modes : Interface :=
  ((Interface.empty.declareEnum ⟨"Mode", ["Idle", "Run"]⟩).declare ⟨"mode", .input, "Mode"⟩).declare
    ⟨"plant.speed", .input, "double"⟩

/-- An engine with two properties of the plant's speed and one of its mode. -/
def speeds : Engine :=
  (Engine.start modes .standard).run
    [.add "A" "G (mode == Idle -> plant.speed < 3)" .property,
      .add "B" "F (limit(2 * plant.speed) > 9)" .property, .add "C" "G (mode == Run)" .property,
      .formalizeAll]

theorem same_group_of_mentioned_speeds :
    speeds.store.Reachable modes ∧
      speeds.store.formalChunks = [⟨"A", 0⟩, ⟨"B", 0⟩, ⟨"C", 0⟩] ∧
      ∃ g ∈ speeds.store.groups .independent, ⟨"A", 0⟩ ∈ g ∧ ⟨"B", 0⟩ ∈ g := by
  have hreachable : speeds.store.Reachable modes := Engine.reachable_run modes .standard _
  have hformal : speeds.store.formalChunks = [⟨"A", 0⟩, ⟨"B", 0⟩, ⟨"C", 0⟩] := by decide +kernel
  have ha : ⟨"A", 0⟩ ∈ speeds.store.formalChunks := by
    rw [hformal]
    decide
  have hb : ⟨"B", 0⟩ ∈ speeds.store.formalChunks := by
    rw [hformal]
    decide
  obtain ⟨htogether, -⟩ := same_group_of_mentioned hreachable rfl ha hb
  exact ⟨hreachable, hformal,
    htogether "plant.speed" (by decide +kernel) (by decide +kernel) (by decide +kernel)⟩

/-- An interface with a signal that is spelled like a literal. -/
def shadowing : Interface :=
  (Interface.empty.declareEnum ⟨"Mode", ["Idle"]⟩).declare ⟨"Idle", .input, "boolean"⟩

/-- An engine with two properties of that signal. -/
def shadowed : Engine :=
  (Engine.start shadowing .standard).run
    [.add "A" "G Idle" .property, .add "B" "F Idle" .property, .formalizeAll]

/-- Two properties of a signal that is spelled like a literal are in different groups, though the
signal is not read as the literal. -/
theorem different_groups_shadowed :
    shadowed.store.Reachable shadowing ∧ shadowing.identifier = safeName ∧
      shadowed.store.formalChunks = [⟨"A", 0⟩, ⟨"B", 0⟩] ∧
      "Idle" ∈ shadowed.store.mentioned ⟨"A", 0⟩ ∧ "Idle" ∈ shadowed.store.mentioned ⟨"B", 0⟩ ∧
      shadowing.readsAsLiteral "Idle" = false ∧
      ¬ ∃ g ∈ shadowed.store.groups .independent, ⟨"A", 0⟩ ∈ g ∧ ⟨"B", 0⟩ ∈ g := by
  have hreachable : shadowed.store.Reachable shadowing :=
    Engine.reachable_run shadowing .standard _
  have hformal : shadowed.store.formalChunks = [⟨"A", 0⟩, ⟨"B", 0⟩] := by decide +kernel
  have ha : ⟨"A", 0⟩ ∈ shadowed.store.formalChunks := by
    rw [hformal]
    decide
  have hidentifiers : shadowed.store.identifiers shadowing ⟨"A", 0⟩ = ["Idle"] := by
    decide +kernel
  have hfree (t : String) : ¬ shadowed.store.HasToken ⟨"A", 0⟩ t := by
    intro htoken
    obtain ⟨hmem, hliteral⟩ := (hreachable.hasToken_iff rfl).mp htoken
    rw [hidentifiers] at hmem
    rw [List.mem_singleton.mp hmem] at hliteral
    revert hliteral
    decide +kernel
  refine ⟨hreachable, rfl, hformal, by decide +kernel, by decide +kernel, by decide +kernel, ?_⟩
  intro hgroup
  have hsame := eq_of_linked hfree ((shadowed.store.partition_groups.mem_iff ha).mp hgroup)
  exact absurd hsame (by decide)

end Store

end TemporalRequirements

import Mathlib.Data.List.Basic
import Mathlib.Data.List.Induction
import TemporalRequirements.Engine
import TemporalRequirements.Proofs.Decomposition.Reconstruct

/-!
# Histories of the engine

Whatever an engine is asked to do, its store agrees with the requirements as they were last added:
a formal requirement has the decomposition of its present text, and one with an error cannot be
decomposed.  A call changes an entry only by adding it anew or by giving it the outcome of
decomposing its present text, so every call keeps the agreement.
-/

namespace TemporalRequirements

inductive Call where
  | add (id text : String) (kind : RequirementKind)
  | formalize (id : String)
  | formalizeAll

def Engine.call (e : Engine) : Call → Engine
  | .add id text kind => e.add id text kind
  | .formalize id => (e.formalize id).1
  | .formalizeAll => e.formalizeAll.1

def Engine.run (e : Engine) (calls : List Call) : Engine := calls.foldl Engine.call e

structure Addition where
  id : String
  text : String
  kind : RequirementKind

def Call.addition? : Call → Option Addition
  | .add id text kind => some ⟨id, text, kind⟩
  | .formalize _ | .formalizeAll => none

/-- The identifiers of the added requirements, in order of first insertion. -/
def insertedIds (calls : List Call) : List String :=
  ((calls.filterMap Call.addition?).map Addition.id).eraseDups

def lastAddition? (calls : List Call) (id : String) : Option Addition :=
  (calls.reverse.filterMap Call.addition?).find? fun a ↦ a.id = id

/-- Adding a known requirement again leaves the order of requirements. -/
theorem insertedIds_append_add (calls : List Call) (id text : String) (kind : RequirementKind) :
    insertedIds (calls ++ [.add id text kind]) =
      if id ∈ insertedIds calls then insertedIds calls else insertedIds calls ++ [id] := by
  have hsplit : (calls ++ [Call.add id text kind]).filterMap Call.addition? =
      calls.filterMap Call.addition? ++ [⟨id, text, kind⟩] := by
    rw [List.filterMap_append]
    rfl
  have hmem : id ∈ insertedIds calls ↔ id ∈ (calls.filterMap Call.addition?).map Addition.id :=
    List.mem_eraseDups
  rw [insertedIds, hsplit, List.map_append, List.eraseDups_append, ← insertedIds]
  by_cases h : id ∈ (calls.filterMap Call.addition?).map Addition.id
  · rw [if_pos (hmem.mpr h)]
    simp [List.removeAll, h]
  · rw [if_neg (hmem.not.mpr h)]
    simp [List.removeAll, h, List.eraseDups_cons]

theorem insertedIds_append {c : Call} (h : c.addition? = none) (calls : List Call) :
    insertedIds (calls ++ [c]) = insertedIds calls := by
  rw [insertedIds, List.filterMap_append, List.filterMap_cons_none h, List.filterMap_nil,
    List.append_nil, insertedIds]

theorem lastAddition?_append_add (calls : List Call) (id text : String) (kind : RequirementKind)
    (id' : String) :
    lastAddition? (calls ++ [.add id text kind]) id' =
      if id = id' then some ⟨id, text, kind⟩ else lastAddition? calls id' := by
  have hadd : (Call.add id text kind).addition? = some ⟨id, text, kind⟩ := rfl
  rw [lastAddition?, List.reverse_append, List.reverse_singleton, List.singleton_append,
    List.filterMap_cons_some hadd, List.find?_cons]
  by_cases h : id = id' <;> simp [h, lastAddition?]

theorem lastAddition?_append {c : Call} (h : c.addition? = none) (calls : List Call)
    (id : String) : lastAddition? (calls ++ [c]) id = lastAddition? calls id := by
  rw [lastAddition?, List.reverse_append, List.reverse_singleton, List.singleton_append,
    List.filterMap_cons_none h, lastAddition?]

/-- A requirement that agrees with its last addition: a status other than pending is the outcome of
decomposing the present text. -/
structure Entry.Agrees (e : Entry) (i : Interface) (calls : List Call) (id : String) : Prop where
  added : lastAddition? calls id = some ⟨id, e.text, e.kind⟩
  formal : e.status = .formal → decompose i id e.text = .ok (some e.decomposition)
  error : ∀ reason, e.status = .error reason →
    ∃ cause, decompose i id e.text = .error cause ∧ cause.message = reason

structure Store.Agrees (s : Store) (i : Interface) (calls : List Call) : Prop where
  ids : s.ids = insertedIds calls
  entries : ∀ id e, s.get? id = some e → e.Agrees i calls id

variable {i : Interface} {calls : List Call}

/-! ## Steps -/

/-- Adding a requirement keeps the agreement. -/
theorem Store.Agrees.insert {s : Store} (h : s.Agrees i calls) (id text : String)
    (kind : RequirementKind) :
    (s.insert id text kind).Agrees i (calls ++ [.add id text kind]) where
  ids := by
    rw [insertedIds_append_add, ← h.ids]
    exact OrderedMap.keys_insert _ _ _
  entries := by
    intro id' e he
    rw [Store.get?, Store.insert, OrderedMap.get?_insert] at he
    by_cases hid : id = id'
    · rw [if_pos hid] at he
      obtain rfl := Option.some.inj he
      subst hid
      refine ⟨?_, fun hstatus ↦ ?_, fun reason hstatus ↦ ?_⟩
      · rw [lastAddition?_append_add, if_pos rfl]
      · cases hstatus
      · cases hstatus
    · rw [if_neg hid] at he
      obtain ⟨hadded, hformal, herror⟩ := h.entries id' e he
      refine ⟨?_, hformal, herror⟩
      rw [lastAddition?_append_add, if_neg hid]
      exact hadded

/-- Changing an entry keeps the agreement, if the entry agrees afterwards. -/
theorem Store.Agrees.modify {s : Store} (h : s.Agrees i calls) {id : String} {f : Entry → Entry}
    (hf : ∀ e, s.get? id = some e → (f e).Agrees i calls id) :
    Store.Agrees ⟨s.entries.modify id f⟩ i calls where
  ids := (OrderedMap.keys_modify _ _ _).trans h.ids
  entries := by
    intro id' e he
    rw [Store.get?, OrderedMap.get?_modify] at he
    by_cases hid : id = id'
    · rw [if_pos hid] at he
      obtain ⟨e', he', rfl⟩ := Option.map_eq_some_iff.mp he
      subst hid
      exact hf e' he'
    · rw [if_neg hid] at he
      exact h.entries id' e he

/-- A call that adds nothing keeps the agreement, if it holds with the calls before. -/
theorem Store.Agrees.append {s : Store} (h : s.Agrees i calls) {c : Call}
    (hc : c.addition? = none) : s.Agrees i (calls ++ [c]) where
  ids := by rw [insertedIds_append hc, h.ids]
  entries := by
    intro id e he
    obtain ⟨hadded, hformal, herror⟩ := h.entries id e he
    exact ⟨by rw [lastAddition?_append hc, hadded], hformal, herror⟩

namespace Engine

theorem interface_formalize (e : Engine) (id : String) :
    (e.formalize id).1.interface = e.interface := by
  unfold formalize
  split
  · rfl
  · split <;> rfl

/-- Formalizing a requirement leaves the store as it is, or gives the requirement the outcome of
decomposing its text. -/
theorem store_formalize_cases (e : Engine) (id : String) :
    (e.formalize id).1.store = e.store ∨
      ∃ entry, e.store.get? id = some entry ∧
        ((∃ d, decompose e.interface id entry.text = .ok (some d) ∧
          (e.formalize id).1.store = ⟨e.store.entries.modify id fun x ↦
            { x with status := .formal, decomposition := d }⟩) ∨
        ∃ cause, decompose e.interface id entry.text = .error cause ∧
          (e.formalize id).1.store = e.store.setStatus id (.error cause.message)) := by
  unfold formalize
  cases hget : e.store.get? id with
  | none => exact Or.inl rfl
  | some entry =>
    simp only [Store.updateStructure, hget]
    cases hdecompose : decompose e.interface id entry.text with
    | error cause => exact Or.inr ⟨entry, rfl, Or.inr ⟨cause, hdecompose, rfl⟩⟩
    | ok outcome =>
      cases outcome with
      | none => exact Or.inl rfl
      | some d => exact Or.inr ⟨entry, rfl, Or.inl ⟨d, hdecompose, rfl⟩⟩

def Agrees (e : Engine) (i : Interface) (calls : List Call) : Prop :=
  e.interface = i ∧ e.store.Agrees i calls

/-- Formalizing a requirement keeps the agreement. -/
theorem Agrees.formalize {e : Engine} (h : e.Agrees i calls) (id : String) :
    (e.formalize id).1.Agrees i calls := by
  obtain ⟨hinterface, hstore⟩ := h
  refine ⟨(e.interface_formalize id).trans hinterface, ?_⟩
  rcases e.store_formalize_cases id with
    hsame | ⟨entry, hget, ⟨d, hd, hnext⟩ | ⟨cause, hcause, hnext⟩⟩
  · rw [hsame]
    exact hstore
  · rw [hinterface] at hd
    rw [hnext]
    apply hstore.modify
    intro x hx
    obtain rfl := Option.some.inj (hget.symm.trans hx)
    refine ⟨(hstore.entries id entry hget).added, fun _ ↦ hd, ?_⟩
    intro reason hstatus
    cases hstatus
  · rw [hinterface] at hcause
    rw [hnext]
    apply hstore.modify
    intro x hx
    obtain rfl := Option.some.inj (hget.symm.trans hx)
    refine ⟨(hstore.entries id entry hget).added, ?_, ?_⟩
    · intro hstatus
      cases hstatus
    · intro reason hstatus
      exact ⟨cause, hcause, Status.error.inj hstatus⟩

theorem Agrees.formalizeEach {e : Engine} (h : e.Agrees i calls) (ids : List String) :
    (e.formalizeEach ids).1.Agrees i calls := by
  induction ids generalizing e with
  | nil => exact h
  | cons id ids ih => exact ih (h.formalize id)

/-- Every call keeps the agreement. -/
theorem Agrees.call {e : Engine} (h : e.Agrees i calls) (c : Call) :
    (e.call c).Agrees i (calls ++ [c]) := by
  cases c with
  | add id text kind => exact ⟨h.1, h.2.insert id text kind⟩
  | formalize id =>
    obtain ⟨hinterface, hstore⟩ := h.formalize id
    exact ⟨hinterface, hstore.append rfl⟩
  | formalizeAll =>
    obtain ⟨hinterface, hstore⟩ := h.formalizeEach e.store.ids
    exact ⟨hinterface, hstore.append rfl⟩

/-- After any calls a new engine agrees with what they added. -/
theorem agrees_run (i : Interface) (config : EngineConfig) (calls : List Call) :
    ((start i config).run calls).Agrees i calls := by
  induction calls using List.reverseRecOn with
  | nil => exact ⟨rfl, rfl, fun id e he ↦ by cases he⟩
  | append_singleton calls c ih =>
    rw [run, List.foldl_append]
    exact ih.call c

end Engine

/-! ## What is listed -/

namespace Store

/-- The properties of a requirement that are to be checked. -/
def listed (s : Store) (id : String) : List ChunkRef :=
  match s.get? id with
  | some e =>
    if e.status = .formal ∧ e.kind = .property then
      (List.range e.decomposition.chunks.length).map fun k ↦ ⟨id, k⟩
    else []
  | none => []

/-- The formal properties are listed requirement by requirement. -/
theorem formalChunks_eq_flatMap_listed (s : Store) : s.formalChunks = s.ids.flatMap s.listed := by
  have hlisted : ∀ x ∈ s.entries.entries, s.listed x.1 =
      if x.2.isFormalProperty then
        (List.range x.2.decomposition.chunks.length).map fun k ↦ (⟨x.1, k⟩ : ChunkRef)
      else [] := by
    intro x hx
    have hget : s.get? x.1 = some x.2 := (OrderedMap.get?_eq_some_iff _ _ _).mpr hx
    simp [listed, hget, Entry.isFormalProperty, Entry.isFormal]
  rw [formalChunks, formalProperties, ids, OrderedMap.keys, List.flatMap_map,
    List.flatMap_congr hlisted]
  generalize s.entries.entries = entries
  induction entries with
  | nil => rfl
  | cons x rest ih =>
    rw [List.filter_cons, List.flatMap_cons]
    split
    · rw [List.flatMap_cons, ih]
    · rw [ih, List.nil_append]

/-- What is listed of a requirement is a property of it that there is. -/
theorem mem_listed {s : Store} {id : String} {ref : ChunkRef} (h : ref ∈ s.listed id) :
    ref.requirement = id ∧ ∃ e, s.get? id = some e ∧ e.status = .formal ∧ e.kind = .property ∧
      ref.index < e.decomposition.chunks.length := by
  unfold listed at h
  split at h
  · rename_i e hget
    split at h
    · rename_i hformal
      obtain ⟨k, hk, rfl⟩ := List.mem_map.mp h
      exact ⟨rfl, e, hget, hformal.1, hformal.2, List.mem_range.mp hk⟩
    · cases h
  · cases h

end Store

theorem length_chunkTokens_of_decompose {id text : String} {d : Decomposition}
    (h : decompose i id text = .ok (some d)) : d.chunkTokens.length = d.chunks.length := by
  obtain ⟨chunks, -, -, rfl⟩ := exists_chunks_of_decompose h
  exact List.length_map _

/-- A store whose structures are those of the texts last added. -/
structure Store.Coherent (s : Store) (i : Interface) (calls : List Call) : Prop where
  /-- Requirements are in order of first insertion; adding one again keeps its place. -/
  ids : s.ids = insertedIds calls
  /-- A status other than pending is the outcome of decomposing the text last added. -/
  entries : ∀ id e, s.get? id = some e → e.Agrees i calls id
  chunks : s.formalChunks = (insertedIds calls).flatMap s.listed
  /-- What is listed is a property of the text last added, and has its tokens. -/
  current : ∀ ref ∈ s.formalChunks, ∃ text d tokens,
    lastAddition? calls ref.requirement = some ⟨ref.requirement, text, .property⟩ ∧
      decompose i ref.requirement text = .ok (some d) ∧
      (s.get? ref.requirement).map Entry.decomposition = some d ∧ ref.index < d.chunks.length ∧
      d.chunkTokens[ref.index]? = some tokens ∧ s.chunkTokens? ref = some tokens

/-- A store that agrees with the calls lists exactly the properties of present texts. -/
theorem Store.Agrees.coherent {s : Store} (h : s.Agrees i calls) : s.Coherent i calls where
  ids := h.ids
  entries := h.entries
  chunks := by rw [s.formalChunks_eq_flatMap_listed, h.ids]
  current := by
    intro ref href
    rw [s.formalChunks_eq_flatMap_listed] at href
    obtain ⟨id, -, hlisted⟩ := List.mem_flatMap.mp href
    obtain ⟨rfl, e, hget, hformal, hkind, hindex⟩ := mem_listed hlisted
    obtain ⟨hadded, hdecompose, -⟩ := h.entries _ e hget
    have hlength := length_chunkTokens_of_decompose (hdecompose hformal)
    obtain ⟨tokens, htokens⟩ : ∃ tokens, e.decomposition.chunkTokens[ref.index]? = some tokens :=
      ⟨_, List.getElem?_eq_getElem (hlength ▸ hindex)⟩
    refine ⟨e.text, e.decomposition, tokens, hkind ▸ hadded, hdecompose hformal, ?_, hindex,
      htokens, ?_⟩
    · rw [hget, Option.map_some]
    · rw [Store.chunkTokens?, hget, Option.bind_some, htokens]

/-- Whatever a new engine is asked to do, no structure in its store is that of an earlier text. -/
theorem coherent_run (i : Interface) (config : EngineConfig) (calls : List Call) :
    ((Engine.start i config).run calls).store.Coherent i calls :=
  (Engine.agrees_run i config calls).2.coherent

end TemporalRequirements

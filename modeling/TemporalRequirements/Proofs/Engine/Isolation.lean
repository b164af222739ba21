import TemporalRequirements.Proofs.Engine.History

/-!
# Requirements are formalized alone

What formalizing does to a requirement depends on its identifier and text only, and doing it again
changes nothing.  A call touches no other requirement, so that calls in any order, repeated or
not, leave the same store as soon as every requirement had its turn.
-/

namespace TemporalRequirements

variable {i : Interface}

/-- Only a blank text has no decomposition. -/
theorem decompose_eq_ok_none_iff {id text : String} :
    decompose i id text = .ok none ↔ Text.isBlankText text = true := by
  rw [decompose]
  by_cases hblank : Text.isBlankText text = true
  · simp [hblank]
  · rw [if_neg hblank]
    cases readChunks id 0 (splitChunks text) <;> simp [Except.map, hblank]

/-- The text of an atom that was read can be balanced, so there is nothing to warn about. -/
theorem warnings_of_decompose {id text : String} {d : Decomposition}
    (h : decompose i id text = .ok (some d)) : d.warnings id = [] := by
  obtain ⟨chunks, -, hwell, rfl⟩ := exists_chunks_of_decompose h
  rw [Decomposition.warnings, List.filterMap_eq_nil_iff]
  intro text htext
  obtain ⟨a, ha, rfl⟩ := List.mem_map.mp (List.mem_eraseDups.mp htext)
  obtain ⟨c, hc, hatom⟩ := List.mem_flatMap.mp ha
  have hread := hwell c hc a hatom
  rw [balanceWarning?, balance_eq_ok hread.core.trimStart hread.spelled.balanced]

def Entry.formalized (i : Interface) (id : String) (x : Entry) : Entry :=
  match decompose i id x.text with
  | .error cause => { x with status := .error cause.message }
  | .ok none => x
  | .ok (some d) => { x with status := .formal, decomposition := d }

theorem Entry.text_formalized (i : Interface) (id : String) (x : Entry) :
    (x.formalized i id).text = x.text := by
  unfold formalized
  split <;> rfl

theorem Entry.formalized_formalized (i : Interface) (id : String) (x : Entry) :
    (x.formalized i id).formalized i id = x.formalized i id := by
  rw [formalized, text_formalized]
  cases hdecompose : decompose i id x.text with
  | error cause => simp only [formalized, hdecompose]
  | ok outcome => cases outcome <;> simp only [formalized, hdecompose]

/-! ## Stores -/

namespace Store

def formalized (s : Store) (i : Interface) (ids : List String) : Store :=
  ⟨s.entries.mapValues fun id x ↦ if id ∈ ids then x.formalized i id else x⟩

theorem ids_formalized (s : Store) (i : Interface) (ids : List String) :
    (s.formalized i ids).ids = s.ids :=
  OrderedMap.keys_mapValues _ _

theorem get?_formalized (s : Store) (i : Interface) (ids : List String) (id : String) :
    (s.formalized i ids).get? id =
      (s.get? id).map fun x ↦ if id ∈ ids then x.formalized i id else x :=
  OrderedMap.get?_mapValues _ _ _

/-- Only the requirements in the store matter. -/
theorem formalized_congr {s : Store} {ids ids' : List String}
    (h : ∀ id x, s.get? id = some x → (id ∈ ids ↔ id ∈ ids')) :
    s.formalized i ids = s.formalized i ids' := by
  refine congrArg mk (OrderedMap.mapValues_congr fun id x hx ↦ ?_)
  simp only [h id x hx]

theorem formalized_eq_self {s : Store} {ids : List String}
    (h : ∀ id ∈ ids, ∀ x, s.get? id = some x → x.formalized i id = x) :
    s.formalized i ids = s := by
  refine congrArg mk (OrderedMap.mapValues_eq_self fun id x hx ↦ ?_)
  split
  · rename_i hid
    exact h id hid x hx
  · rfl

/-- Formalizing in two rounds is formalizing in one. -/
theorem formalized_formalized (s : Store) (i : Interface) (ids ids' : List String) :
    (s.formalized i ids).formalized i ids' = s.formalized i (ids ++ ids') := by
  rw [formalized, formalized, OrderedMap.mapValues_mapValues]
  refine congrArg mk (OrderedMap.mapValues_congr fun id x _ ↦ ?_)
  by_cases h : id ∈ ids <;> by_cases h' : id ∈ ids' <;>
    simp [h, h', Entry.formalized_formalized]

/-- Changing one requirement into what formalizing makes of it. -/
theorem modify_eq_formalized {s : Store} {id : String} {entry : Entry} {f : Entry → Entry}
    (hget : s.get? id = some entry) (hf : f entry = entry.formalized i id) :
    ⟨s.entries.modify id f⟩ = s.formalized i [id] := by
  rw [formalized, OrderedMap.modify_eq_mapValues]
  refine congrArg mk (OrderedMap.mapValues_congr fun id' x hx ↦ ?_)
  by_cases hid : id' = id
  · subst hid
    obtain rfl := Option.some.inj (hget.symm.trans hx)
    simpa using hf
  · simp [hid]

end Store

/-! ## Calls -/

namespace Engine

/-- All that a call can do: it fails and leaves the reason as a message, or it succeeds and leaves
none. -/
theorem formalize_cases (e : Engine) (id : String) :
    (∃ reason, (∀ x, e.store.get? id = some x →
        ∃ cause, decompose e.interface id x.text = .error cause ∧ cause.message = reason) ∧
      e.formalize id = ({ e with store := e.store.formalized e.interface [id] }.report
        (.failure (some id) reason), false)) ∨
    ∃ x outcome, e.store.get? id = some x ∧
      decompose e.interface id x.text = .ok outcome ∧
      e.formalize id = ({ e with store := e.store.formalized e.interface [id] }, true) := by
  cases hget : e.store.get? id with
  | none =>
    have hstore : e.store.formalized e.interface [id] = e.store := by
      refine Store.formalized_eq_self fun id' hid x hx ↦ ?_
      rw [List.mem_singleton.mp hid, hget] at hx
      cases hx
    refine Or.inl ⟨(FormalizeError.unknownRequirement id).message, fun x hx ↦ ?_, ?_⟩
    · cases hx
    · rw [formalize, hget, hstore]
  | some x =>
    cases hdecompose : decompose e.interface id x.text with
    | error cause =>
      have hstore : e.store.setStatus id (.error cause.message) =
          e.store.formalized e.interface [id] :=
        Store.modify_eq_formalized hget (by simp only [Entry.formalized, hdecompose])
      refine Or.inl ⟨cause.message, fun y hy ↦ ?_, ?_⟩
      · obtain rfl := Option.some.inj hy
        exact ⟨cause, hdecompose, rfl⟩
      · simp only [formalize, hget, Store.updateStructure, hdecompose, hstore]
    | ok outcome =>
      refine Or.inr ⟨x, outcome, rfl, hdecompose, ?_⟩
      cases outcome with
      | none =>
        have hstore : e.store.formalized e.interface [id] = e.store := by
          refine Store.formalized_eq_self fun id' hid y hy ↦ ?_
          obtain rfl := List.mem_singleton.mp hid
          obtain rfl := Option.some.inj (hget.symm.trans hy)
          simp only [Entry.formalized, hdecompose]
        simp only [formalize, hget, Store.updateStructure, hdecompose, hstore, List.append_nil]
      | some d =>
        have hstore : ⟨e.store.entries.modify id fun y ↦
            { y with status := .formal, decomposition := d }⟩ =
              e.store.formalized e.interface [id] :=
          Store.modify_eq_formalized hget (by simp only [Entry.formalized, hdecompose])
        simp only [formalize, hget, Store.updateStructure, hdecompose, hstore,
          warnings_of_decompose hdecompose, List.append_nil]

theorem store_formalize (e : Engine) (id : String) :
    (e.formalize id).1.store = e.store.formalized e.interface [id] := by
  rcases e.formalize_cases id with ⟨reason, -, heq⟩ | ⟨x, outcome, -, -, heq⟩
  · rw [heq]
    rfl
  · rw [heq]

structure FormalizesAlone (e : Engine) (id : String) : Prop where
  ids : (e.formalize id).1.store.ids = e.store.ids
  others : ∀ id' ≠ id, (e.formalize id).1.store.get? id' = e.store.get? id'
  /-- A failure leaves one message, and changes the status of the requirement only. -/
  failed : (e.formalize id).2 = false → ∃ reason,
    (e.formalize id).1.diagnostics = e.diagnostics ++ [.failure (some id) reason] ∧
      (e.formalize id).1.store.get? id =
        (e.store.get? id).map fun x ↦ { x with status := .error reason }
  succeeded : (e.formalize id).2 = true → (e.formalize id).1.diagnostics = e.diagnostics

theorem formalizesAlone (e : Engine) (id : String) : e.FormalizesAlone id where
  ids := by rw [store_formalize, Store.ids_formalized]
  others := by
    intro id' hid
    rw [store_formalize, Store.get?_formalized]
    simp [hid]
  failed := by
    intro hfailed
    rcases e.formalize_cases id with ⟨reason, hreason, heq⟩ | ⟨x, outcome, -, -, heq⟩
    · refine ⟨reason, by rw [heq]; rfl, ?_⟩
      rw [store_formalize, Store.get?_formalized]
      refine Option.map_congr fun x hx ↦ ?_
      obtain ⟨cause, hcause, rfl⟩ := hreason x hx
      simp [Entry.formalized, hcause]
    · rw [heq] at hfailed
      cases hfailed
  succeeded := by
    intro hsucceeded
    rcases e.formalize_cases id with ⟨reason, -, heq⟩ | ⟨x, outcome, -, -, heq⟩
    · rw [heq] at hsucceeded
      cases hsucceeded
    · rw [heq]

/-- Formalizing several requirements leaves the store as formalizing them at once does. -/
theorem store_formalizeEach (e : Engine) (ids : List String) :
    (e.formalizeEach ids).1.store = e.store.formalized e.interface ids := by
  induction ids generalizing e with
  | nil => exact (Store.formalized_eq_self fun id hid ↦ by cases hid).symm
  | cons id ids ih =>
    calc
      ((e.formalize id).1.formalizeEach ids).1.store =
          (e.formalize id).1.store.formalized e.interface ids := by
        rw [ih, interface_formalize]
      _ = e.store.formalized e.interface (id :: ids) := by
        rw [store_formalize, Store.formalized_formalized, List.singleton_append]

theorem run_formalize (e : Engine) (ids : List String) :
    e.run (ids.map .formalize) = (e.formalizeEach ids).1 := by
  induction ids generalizing e with
  | nil => rfl
  | cons id ids ih => exact ih (e.formalize id).1

/-- Whatever the state of an engine, requirements are formalized each for itself, and the order
and the number of calls do not matter to the store once every requirement had its turn. -/
theorem formalizes_alone_in_any_order (e : Engine) :
    (∀ id, e.FormalizesAlone id) ∧
      ∀ ids : List String, (∀ id ∈ e.store.ids, id ∈ ids) →
        (e.run (ids.map .formalize)).store = e.formalizeAll.1.store := by
  refine ⟨e.formalizesAlone, fun ids hids ↦ ?_⟩
  rw [run_formalize, store_formalizeEach, formalizeAll, store_formalizeEach]
  refine Store.formalized_congr fun id x hx ↦ ?_
  have hmem : id ∈ e.store.ids :=
    List.mem_map_of_mem (f := Prod.fst) ((OrderedMap.get?_eq_some_iff _ _ _).mp hx)
  exact ⟨fun _ ↦ hmem, fun _ ↦ hids id hmem⟩

/-- An engine with a requirement that cannot be read, one without a text and one that can be
read. -/
def mixed : Engine :=
  (start .empty .standard).run
    [.add "A" "G(a" .property, .add "B" " " .property, .add "C" "F b" .deadlock]

theorem formalizes_alone_in_any_order_mixed :
    let ids := ["C", "D", "A", "C", "B"]
    mixed.store.ids = ["A", "B", "C"] ∧ (∀ id ∈ mixed.store.ids, id ∈ ids) ∧
      (mixed.run (ids.map .formalize)).store = mixed.formalizeAll.1.store ∧
      mixed.formalizeAll.1.store.entries.values.map Entry.status =
        [.error "A: chunk 0: syntax error", .pending, .formal] := by
  intro ids
  have hids : ∀ id ∈ mixed.store.ids, id ∈ ids := by decide +kernel
  exact ⟨by decide +kernel, hids, (formalizes_alone_in_any_order mixed).2 ids hids,
    by decide +kernel⟩

end Engine

end TemporalRequirements

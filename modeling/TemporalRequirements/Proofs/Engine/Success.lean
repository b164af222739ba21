import TemporalRequirements.Program.Run
import TemporalRequirements.Proofs.Engine.Isolation

/-!
# What formalizing reports

A call reports success exactly if the requirement is formal afterwards or has no text: a blank
text cannot fail, and leaves the requirement pending.  So the number of successes counts the formal
requirements and those without a text.
-/

namespace TemporalRequirements

variable {i : Interface} {calls : List Call}

/-! ## Requirements without a text -/

/-- Whether a requirement waits for a text: it is pending, and its text is blank. -/
def Entry.isIdle (x : Entry) : Bool := x.status = .pending && Text.isBlankText x.text

/-- A blank requirement stays pending. -/
theorem Entry.Agrees.isIdle_eq {x : Entry} {id : String} (h : x.Agrees i calls id) :
    x.isIdle = Text.isBlankText x.text := by
  cases hblank : Text.isBlankText x.text with
  | false => simp [isIdle, hblank]
  | true =>
    have hnone : decompose i id x.text = .ok none := decompose_eq_ok_none_iff.mpr hblank
    cases hstatus : x.status with
    | pending => simp [isIdle, hstatus, hblank]
    | formal =>
      have hformal := h.formal hstatus
      rw [hnone] at hformal
      cases hformal
    | error reason =>
      obtain ⟨cause, hcause, -⟩ := h.error reason hstatus
      rw [hnone] at hcause
      cases hcause

/-- Whether the text of a requirement can be decomposed or is blank. -/
def Entry.isReadable (i : Interface) (id : String) (x : Entry) : Bool :=
  (decompose i id x.text).isOk

theorem Entry.isReadable_formalized (i : Interface) (id : String) (x : Entry) :
    (x.formalized i id).isReadable i id = x.isReadable i id := by
  rw [isReadable, text_formalized, isReadable]

/-- A requirement is readable if formalizing makes it formal or leaves it without a text. -/
theorem Entry.isReadable_eq (i : Interface) (id : String) (x : Entry) :
    x.isReadable i id =
      ((x.formalized i id).isFormal || Text.isBlankText (x.formalized i id).text) := by
  rw [text_formalized]
  cases hdecompose : decompose i id x.text with
  | error cause =>
    have hblank : Text.isBlankText x.text = false := by
      by_contra hblank
      rw [decompose_eq_ok_none_iff.mpr (by simpa using hblank)] at hdecompose
      cases hdecompose
    simp [isReadable, formalized, hdecompose, hblank, isFormal, Except.isOk, Except.toBool]
  | ok outcome =>
    cases outcome with
    | none =>
      have hblank := decompose_eq_ok_none_iff.mp hdecompose
      simp [isReadable, hdecompose, hblank, Except.isOk, Except.toBool]
    | some d => simp [isReadable, formalized, hdecompose, isFormal, Except.isOk, Except.toBool]

/-! ## Reports of calls -/

namespace Engine

/-- A call succeeds exactly on a known requirement whose text is read. -/
theorem formalize_snd (e : Engine) (id : String) :
    (e.formalize id).2 = (e.store.get? id).any (·.isReadable e.interface id) := by
  rcases e.formalize_cases id with ⟨reason, hreason, heq⟩ | ⟨x, outcome, hget, hread, heq⟩
  · rw [heq]
    cases hget : e.store.get? id with
    | none => rfl
    | some x =>
      obtain ⟨cause, hcause, -⟩ := hreason x hget
      simp [Entry.isReadable, hcause, Except.isOk, Except.toBool]
  · rw [heq, hget]
    simp [Entry.isReadable, hread, Except.isOk, Except.toBool]

/-- What calls report does not depend on the calls before. -/
theorem formalizeEach_snd (e : Engine) (ids : List String) :
    (e.formalizeEach ids).2 =
      ids.countP fun id ↦ (e.store.get? id).any (·.isReadable e.interface id) := by
  induction ids generalizing e with
  | nil => rfl
  | cons id ids ih =>
    have hkeeps : ∀ id', ((e.formalize id).1.store.get? id').any
        (·.isReadable (e.formalize id).1.interface id') =
          (e.store.get? id').any (·.isReadable e.interface id') := by
      intro id'
      rw [interface_formalize, store_formalize, Store.get?_formalized]
      cases e.store.get? id' with
      | none => rfl
      | some x => by_cases hid : id' ∈ [id] <;> simp [hid, Entry.isReadable_formalized]
    rw [List.countP_cons, ← formalize_snd]
    simp only [formalizeEach, ih, hkeeps]

/-- The count of successes is that of formal requirements and blank texts. -/
theorem formalizeAll_snd (e : Engine) :
    e.formalizeAll.2 = e.formalizeAll.1.store.entries.values.countP
      fun x ↦ x.isFormal || Text.isBlankText x.text := by
  rw [formalizeAll, formalizeEach_snd, store_formalizeEach, Store.ids, OrderedMap.keys,
    Store.formalized, OrderedMap.values, OrderedMap.mapValues, List.map_map, List.countP_map,
    List.countP_map]
  refine List.countP_congr fun x hx ↦ ?_
  have hget : e.store.get? x.1 = some x.2 := (OrderedMap.get?_eq_some_iff _ _ _).mpr hx
  have hmem : x.1 ∈ e.store.entries.entries.map Prod.fst := List.mem_map_of_mem hx
  simp only [Function.comp_apply, hget, Option.any_some, if_pos hmem, Entry.isReadable_eq]

/-- In an engine that agrees with its calls, an entry is idle if its text is blank. -/
theorem Agrees.isIdle_eq {e : Engine} (h : e.Agrees i calls) {x : Entry}
    (hx : x ∈ e.store.entries.values) : x.isIdle = Text.isBlankText x.text := by
  obtain ⟨⟨id, x⟩, hentry, rfl⟩ := List.mem_map.mp hx
  exact (h.2.entries id x ((OrderedMap.get?_eq_some_iff _ _ _).mpr hentry)).isIdle_eq

/-- What the calls on an engine report: a requirement is formalized if it is formal afterwards or
has no text, and the program fails if there are requirements but none of these. -/
theorem formalize_reports (i : Interface) (config : EngineConfig) (calls : List Call) :
    let e := (start i config).run calls
    (∀ id, (e.formalize id).2 = true ↔
      ∃ x, (e.formalize id).1.store.get? id = some x ∧ (x.isFormal || x.isIdle) = true) ∧
    (e.formalizeAll.2 = e.formalizeAll.1.store.entries.values.countP
      fun x ↦ x.isFormal || x.isIdle) ∧
    ∀ o artifacts loaded s,
      (Program.conclude o artifacts e.formalizeAll.2 loaded s).exitCode = 1 ↔ loaded ≠ 0 ∧
        ∀ x ∈ e.formalizeAll.1.store.entries.values, (x.isFormal || x.isIdle) = false := by
  intro e
  have hagrees : e.Agrees i calls := agrees_run i config calls
  have hcount : e.formalizeAll.2 = e.formalizeAll.1.store.entries.values.countP
      fun x ↦ x.isFormal || x.isIdle := by
    rw [formalizeAll_snd]
    refine List.countP_congr fun x hx ↦ ?_
    rw [(hagrees.formalizeEach e.store.ids).isIdle_eq hx]
  refine ⟨fun id ↦ ?_, hcount, fun o artifacts loaded s ↦ ?_⟩
  · have hafter : (e.formalize id).1.store.get? id =
        (e.store.get? id).map (·.formalized e.interface id) := by
      rw [store_formalize, Store.get?_formalized]
      simp
    rw [formalize_snd, hafter]
    cases hget : e.store.get? id with
    | none => simp
    | some x =>
      rw [hget, Option.map_some] at hafter
      have hidle := ((hagrees.formalize id).2.entries id _ hafter).isIdle_eq
      simp [Entry.isReadable_eq, hidle]
  · have hzero : e.formalizeAll.2 = 0 ↔ ∀ x ∈ e.formalizeAll.1.store.entries.values,
        (x.isFormal || x.isIdle) = false := by
      rw [hcount, List.countP_eq_zero]
      simp
    rw [← hzero, Program.conclude]
    by_cases hnone : e.formalizeAll.2 = 0 <;> by_cases hloaded : loaded = 0 <;>
      simp [hnone, hloaded, Program.Session.finish]

/-- An engine with one requirement, which has no text. -/
def unwritten : Engine := (start .empty .standard).run [.add "R" " " .property]

/-- Formalizing a requirement without a text succeeds though nothing is formal, and the program
reports no failure. -/
theorem formalize_unwritten :
    (unwritten.formalize "R").2 = true ∧
      ((unwritten.formalize "R").1.store.get? "R").map Entry.status = some .pending ∧
      ¬ (∀ id, (unwritten.formalize id).2 = true ↔
        ∃ x, (unwritten.formalize id).1.store.get? id = some x ∧ x.isFormal = true) ∧
      unwritten.formalizeAll.2 = 1 ∧
      unwritten.formalizeAll.1.store.entries.values.countP Entry.isFormal = 0 ∧
      ∀ o artifacts s,
        (Program.conclude o artifacts unwritten.formalizeAll.2 1 s).exitCode = 0 := by
  have hsucceeds : (unwritten.formalize "R").2 = true := by decide +kernel
  have hpending : ((unwritten.formalize "R").1.store.get? "R").map Entry.status =
      some .pending := by
    decide +kernel
  have hcount : unwritten.formalizeAll.2 = 1 := by decide +kernel
  refine ⟨hsucceeds, hpending, fun hclaim ↦ ?_, hcount, by decide +kernel, fun o artifacts s ↦ ?_⟩
  · obtain ⟨x, hget, hformal⟩ := (hclaim "R").mp hsucceeds
    rw [hget, Option.map_some] at hpending
    simp [Entry.isFormal, Option.some.inj hpending] at hformal
  · rw [hcount]
    rfl

end Engine

end TemporalRequirements

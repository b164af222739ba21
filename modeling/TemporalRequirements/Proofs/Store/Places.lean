import Mathlib
import TemporalRequirements.ModelChecker.Basic
import TemporalRequirements.Proofs.Store.Components
import TemporalRequirements.Proofs.Text.Digits

/-!
# Properties and their places

What is rendered for the properties of a store is looked up by their places, the requirement and the
number of each.  A message about a property names both, and no other property has a message that
does.
-/

namespace TemporalRequirements

namespace Store

variable (s : Store)

/-- The properties of formal requirements with their places, in order. -/
def placedChunks : List (ChunkRef × Chunk) :=
  s.formalProperties.flatMap fun (id, e) ↦ e.numberedChunks.map fun (k, c) ↦ (⟨id, k⟩, c)

/-- What is made of every property of every requirement is made of the properties in order. -/
theorem flatMap_numberedChunks {α : Type} (f : String → Nat → Chunk → α) :
    (s.formalProperties.flatMap fun (id, e) ↦ e.numberedChunks.map fun (k, c) ↦ f id k c) =
      s.placedChunks.map fun x ↦ f x.1.requirement x.1.index x.2 := by
  rw [placedChunks, List.map_flatMap]
  simp only [List.map_map]
  rfl

theorem get?_of_mem_formalProperties {id : String} {e : Entry} (h : (id, e) ∈ s.formalProperties) :
    s.get? id = some e :=
  (OrderedMap.get?_eq_some_iff _ _ _).mpr (List.mem_filter.mp h).1

theorem mem_ids_of_mem_formalProperties {id : String} {e : Entry}
    (h : (id, e) ∈ s.formalProperties) : id ∈ s.ids :=
  List.mem_map_of_mem (List.mem_filter.mp h).1

theorem nodup_formalProperties : (s.formalProperties.map Prod.fst).Nodup :=
  s.entries.nodup_keys.sublist (List.filter_sublist.map Prod.fst)

/-- The last decomposition of a requirement. -/
def decomposition (id : String) : Decomposition :=
  ((s.get? id).map Entry.decomposition).getD .empty

theorem decomposition_of_mem {id : String} {e : Entry}
    (h : (id, e) ∈ s.formalProperties) : s.decomposition id = e.decomposition := by
  rw [decomposition, s.get?_of_mem_formalProperties h, Option.map_some, Option.getD_some]

/-- What is made of every property is made with the last decomposition of its requirement. -/
theorem flatMap_formalProperties {α : Type} (f : String → Decomposition → Nat → Chunk → α) :
    (s.formalProperties.flatMap fun (id, e) ↦
        e.numberedChunks.map fun (k, c) ↦ f id e.decomposition k c) =
      s.placedChunks.map fun x ↦
        f x.1.requirement (s.decomposition x.1.requirement) x.1.index x.2 := by
  rw [← s.flatMap_numberedChunks fun id k c ↦ f id (s.decomposition id) k c]
  apply List.flatMap_congr
  rintro ⟨id, e⟩ he
  simp only [s.decomposition_of_mem he]

theorem map_fst_placedChunks : s.placedChunks.map Prod.fst = s.formalChunks := by
  rw [placedChunks, formalChunks, List.map_flatMap]
  apply List.flatMap_congr
  rintro ⟨id, e⟩ -
  simp only [Entry.numberedChunks, List.map_map]
  apply List.ext_getElem
  · simp
  · intro k h h'
    simp

theorem nodup_placedChunks : (s.placedChunks.map Prod.fst).Nodup :=
  s.map_fst_placedChunks ▸ s.nodup_formalChunks

theorem chunk?_of_mem_placedChunks {s : Store} {ref : ChunkRef} {c : Chunk}
    (h : (ref, c) ∈ s.placedChunks) : s.chunk? ref = some c := by
  obtain ⟨⟨id, e⟩, hentry, hchunk⟩ := List.mem_flatMap.mp h
  obtain ⟨⟨k, c'⟩, hnumbered, heq⟩ := List.mem_map.mp hchunk
  obtain ⟨href, rfl⟩ := Prod.mk.inj heq
  subst href
  obtain ⟨k', hk, hpair⟩ := List.mem_mapIdx.mp hnumbered
  obtain ⟨rfl, rfl⟩ := Prod.mk.inj hpair
  rw [chunk?, s.get?_of_mem_formalProperties hentry, Option.bind_some, List.getElem?_eq_getElem hk]

theorem exists_mem_placedChunks {s : Store} {ref : ChunkRef} (h : ref ∈ s.formalChunks) :
    ∃ c, (ref, c) ∈ s.placedChunks := by
  rw [← s.map_fst_placedChunks] at h
  obtain ⟨⟨ref, c⟩, hmem, rfl⟩ := List.mem_map.mp h
  exact ⟨c, hmem⟩

/-- A formal property is one of its requirement's. -/
theorem exists_of_chunk? {ref : ChunkRef} {c : Chunk} (h : ref ∈ s.formalChunks)
    (hc : s.chunk? ref = some c) :
    ∃ e, (ref.requirement, e) ∈ s.formalProperties ∧ c ∈ e.decomposition.chunks := by
  obtain ⟨⟨id, e⟩, he, hmem⟩ := List.mem_flatMap.mp h
  obtain ⟨k, -, rfl⟩ := List.mem_map.mp hmem
  rw [chunk?, s.get?_of_mem_formalProperties he, Option.bind_some] at hc
  exact ⟨e, he, List.mem_of_getElem? hc⟩

end Store

/-! ## Looking up what belongs to a property -/

/-- What one entry alone brings is all that is brought. -/
theorem flatMap_eq_of_nodup {ρ γ δ : Type} {l : List (ρ × γ)} (hl : (l.map Prod.fst).Nodup)
    {bring : ρ × γ → List δ} {x : ρ × γ} (hx : x ∈ l)
    (hothers : ∀ y ∈ l, y.1 ≠ x.1 → bring y = []) : l.flatMap bring = bring x := by
  induction l with
  | nil => cases hx
  | cons y l ih =>
    rw [List.map_cons, List.nodup_cons] at hl
    rw [List.flatMap_cons]
    have hlater : ∀ z ∈ l, z.1 ≠ y.1 := fun z hz heq ↦
      hl.1 (heq ▸ List.mem_map_of_mem hz)
    rcases List.mem_cons.mp hx with rfl | hx
    · have hnone : l.flatMap bring = [] := List.flatMap_eq_nil_iff.mpr fun z hz ↦
        hothers z (List.mem_cons_of_mem x hz) (hlater z hz)
      rw [hnone, List.append_nil]
    · rw [hothers y List.mem_cons_self (Ne.symm (hlater x hx)), List.nil_append,
        ih hl.2 hx fun z hz ↦ hothers z (List.mem_cons_of_mem y hz)]

/-- Of what properties bring along, that which belongs to one of them is what it brings. -/
theorem filter_flatMap_of_nodup {ρ γ δ : Type} {l : List (ρ × γ)} (hl : (l.map Prod.fst).Nodup)
    (bring : ρ × γ → List δ) (belongs : ρ → δ → Bool)
    (hown : ∀ x, ∀ d ∈ bring x, ∀ r, belongs r d = true ↔ r = x.1) {x : ρ × γ} (hx : x ∈ l) :
    (l.flatMap bring).filter (belongs x.1) = bring x := by
  have hkept : (bring x).filter (belongs x.1) = bring x :=
    List.filter_eq_self.mpr fun d hd ↦ (hown x d hd x.1).mpr rfl
  rw [List.filter_flatMap, flatMap_eq_of_nodup hl hx, hkept]
  intro y _ hne
  rw [List.filter_eq_nil_iff]
  intro d hd hbelongs
  exact hne ((hown y d hd x.1).mp hbelongs).symm

/-! ## Messages about a property -/

/-- What stands before a message about a property. -/
def ChunkRef.label (ref : ChunkRef) : String := "chunk " ++ toString ref.index ++ ": "

/-- Whether a message names the requirement and the number of a property. -/
def Diagnostic.isAbout (ref : ChunkRef) (d : Diagnostic) : Bool :=
  d.requirement = some ref.requirement && ref.label.toList.isPrefixOf d.message.toList

theorem Diagnostic.isAbout_label (severity : Severity) (ref : ChunkRef) (rest : String) :
    isAbout ref ⟨severity, some ref.requirement, ref.label ++ rest⟩ = true := by
  rw [isAbout, String.toList_append, Bool.and_eq_true, List.isPrefixOf_iff_prefix]
  exact ⟨decide_eq_true rfl, List.prefix_append _ _⟩

/-- A message is about one property at most. -/
theorem Diagnostic.eq_of_isAbout {d : Diagnostic} {ref ref' : ChunkRef} (h : d.isAbout ref = true)
    (h' : d.isAbout ref' = true) : ref = ref' := by
  obtain ⟨id, k⟩ := ref
  obtain ⟨id', k'⟩ := ref'
  rw [isAbout, Bool.and_eq_true, decide_eq_true_eq, List.isPrefixOf_iff_prefix] at h h'
  obtain ⟨rest, hrest⟩ := h.2
  obtain ⟨rest', hrest'⟩ := h'.2
  have hspelled {k : Nat} {rest : List Char} : "chunk ".toList ++ (Nat.toDigits 10 k ++
      ':' :: ' ' :: rest) = (ChunkRef.mk id k).label.toList ++ rest := by
    rw [ChunkRef.label, Nat.toString_eq_ofList_toDigits]
    simp [String.toList_append]
  have htext : Nat.toDigits 10 k ++ ':' :: ' ' :: rest =
      Nat.toDigits 10 k' ++ ':' :: ' ' :: rest' :=
    List.append_cancel_left (hspelled.trans ((hrest.trans hrest'.symm).trans hspelled.symm))
  -- A number ends at the colon, so the digits in front of it are the same.
  have hdigits := congrArg (List.takeWhile Char.isDigit) htext
  rw [Text.takeWhile_isDigit_toDigits_append rfl, Text.takeWhile_isDigit_toDigits_append rfl]
    at hdigits
  have hid : id = id' := Option.some.inj (h.1.symm.trans h'.1)
  rw [hid, Nat.repr_injective (congrArg String.ofList hdigits)]

/-- A message about a property is about no other. -/
theorem Diagnostic.isAbout_iff_eq {d : Diagnostic} {ref : ChunkRef} (h : d.isAbout ref = true)
    (ref' : ChunkRef) : d.isAbout ref' = true ↔ ref' = ref :=
  ⟨fun h' ↦ eq_of_isAbout h' h, fun heq ↦ heq ▸ h⟩

end TemporalRequirements

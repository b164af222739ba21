/-!
# Maps that keep their order

An `OrderedMap` is a list of entries with pairwise distinct keys, in the order in which the keys
first came.  Inserting a known key replaces its value and keeps its place; a new key goes to the
end.  The keys after each operation are given by `keys_insert`, `keys_modify` and `keys_erase`, and
the values by `get?_insert`, `get?_modify` and `get?_erase`.
-/

namespace TemporalRequirements

/-- A finite map with its entries in order of first insertion. -/
structure OrderedMap (α β : Type) where
  entries : List (α × β)
  nodup_keys : (entries.map Prod.fst).Nodup

namespace OrderedMap

variable {α β γ : Type}

/-- The map without entries. -/
def empty : OrderedMap α β := ⟨[], List.Pairwise.nil⟩

instance : Inhabited (OrderedMap α β) := ⟨empty⟩

def keys (m : OrderedMap α β) : List α := m.entries.map Prod.fst

def values (m : OrderedMap α β) : List β := m.entries.map Prod.snd

def size (m : OrderedMap α β) : Nat := m.entries.length

/-- Whether there are no entries. -/
def isEmpty (m : OrderedMap α β) : Bool := m.entries.isEmpty

variable [DecidableEq α]

def get? (m : OrderedMap α β) (k : α) : Option β :=
  (m.entries.find? (fun e ↦ e.1 = k)).map Prod.snd

def contains (m : OrderedMap α β) (k : α) : Bool := (m.get? k).isSome

/-- The entries with `v` as the value of `k`, which keeps its place or goes to the end. -/
def insertEntry (k : α) (v : β) : List (α × β) → List (α × β)
  | [] => [(k, v)]
  | e :: rest => if e.1 = k then (k, v) :: rest else e :: insertEntry k v rest

/-- A new key comes last, and a known one keeps its place. -/
theorem map_fst_insertEntry (k : α) (v : β) (es : List (α × β)) :
    (insertEntry k v es).map Prod.fst =
      if k ∈ es.map Prod.fst then es.map Prod.fst else es.map Prod.fst ++ [k] := by
  induction es with
  | nil => rfl
  | cons e rest ih =>
    rw [insertEntry]
    split
    · rename_i h
      simp [h]
    · rename_i h
      have h' : ¬ k = e.1 := fun heq ↦ h heq.symm
      simp only [List.map_cons, ih, List.mem_cons, h', false_or]
      split <;> simp

def insert (m : OrderedMap α β) (k : α) (v : β) : OrderedMap α β where
  entries := insertEntry k v m.entries
  nodup_keys := by
    rw [map_fst_insertEntry]
    split
    · exact m.nodup_keys
    · rename_i h
      refine List.nodup_append.mpr ⟨m.nodup_keys, by simp, ?_⟩
      intro a ha b hb heq
      obtain rfl := List.mem_singleton.mp hb
      exact h (heq ▸ ha)

/-- Changes the value of `k`, if there is one. -/
def modify (m : OrderedMap α β) (k : α) (f : β → β) : OrderedMap α β where
  entries := m.entries.map fun e ↦ if e.1 = k then (e.1, f e.2) else e
  nodup_keys := by
    have h : (m.entries.map fun e ↦ if e.1 = k then (e.1, f e.2) else e).map Prod.fst =
        m.entries.map Prod.fst := by
      rw [List.map_map]
      exact List.map_congr_left fun e _ ↦ by
        simp only [Function.comp_apply]
        split <;> rfl
    rw [h]
    exact m.nodup_keys

/-- Removes `k`; every other entry stays where it was. -/
def erase (m : OrderedMap α β) (k : α) : OrderedMap α β where
  entries := m.entries.filter fun e ↦ e.1 ≠ k
  nodup_keys := m.nodup_keys.sublist (List.filter_sublist.map Prod.fst)

/-- The map of a list of entries: of a repeated key, the first place and the last value. -/
def ofList (es : List (α × β)) : OrderedMap α β := es.foldl (fun m e ↦ m.insert e.1 e.2) empty

omit [DecidableEq α] in
/-- The map with every value replaced by a function of its key and itself. -/
def mapValues (m : OrderedMap α β) (f : α → β → γ) : OrderedMap α γ where
  entries := m.entries.map fun e ↦ (e.1, f e.1 e.2)
  nodup_keys := by
    have h : (m.entries.map fun e ↦ (e.1, f e.1 e.2)).map Prod.fst = m.entries.map Prod.fst := by
      rw [List.map_map]
      rfl
    rw [h]
    exact m.nodup_keys

/-! ## Keys and values after each operation -/

theorem keys_insert (m : OrderedMap α β) (k : α) (v : β) :
    (m.insert k v).keys = if k ∈ m.keys then m.keys else m.keys ++ [k] :=
  map_fst_insertEntry k v m.entries

theorem keys_modify (m : OrderedMap α β) (k : α) (f : β → β) : (m.modify k f).keys = m.keys := by
  simp only [keys, modify, List.map_map]
  exact List.map_congr_left fun e _ ↦ by
    simp only [Function.comp_apply]
    split <;> rfl

theorem keys_erase (m : OrderedMap α β) (k : α) :
    (m.erase k).keys = m.keys.filter (· ≠ k) := by
  simp only [keys, erase, List.filter_map]
  rfl

theorem find?_cons_map_snd (k : α) (e : α × β) (es : List (α × β)) :
    ((e :: es).find? (fun e ↦ e.1 = k)).map Prod.snd =
      if e.1 = k then some e.2 else (es.find? (fun e ↦ e.1 = k)).map Prod.snd := by
  by_cases h : e.1 = k
  · rw [List.find?_cons_of_pos (by simpa using h), if_pos h, Option.map_some]
  · rw [List.find?_cons_of_neg (by simpa using h), if_neg h]

/-- A key has the value that stands beside it. -/
theorem get?_eq_some_iff (m : OrderedMap α β) (k : α) (v : β) :
    m.get? k = some v ↔ (k, v) ∈ m.entries := by
  have h := m.nodup_keys
  rw [get?]
  generalize m.entries = es at h
  induction es with
  | nil => simp
  | cons e rest ih =>
    rw [List.map_cons, List.nodup_cons] at h
    rw [find?_cons_map_snd, List.mem_cons]
    by_cases hk : e.1 = k
    · have hrest : (k, v) ∉ rest := fun hmem ↦ h.1 (hk ▸ List.mem_map_of_mem hmem)
      simp [hk, hrest, Prod.ext_iff, eq_comm]
    · have hne : (k, v) ≠ e := fun heq ↦ hk (heq ▸ rfl)
      simp [hk, hne, ih h.2]

/-- Inserting an entry changes the value of its own key only. -/
theorem find?_insertEntry (k k' : α) (v : β) (es : List (α × β)) :
    ((insertEntry k v es).find? (fun e ↦ e.1 = k')).map Prod.snd =
      if k = k' then some v else (es.find? (fun e ↦ e.1 = k')).map Prod.snd := by
  induction es with
  | nil => rw [insertEntry, find?_cons_map_snd]
  | cons e rest ih =>
    rw [insertEntry]
    split
    · rename_i he
      rw [find?_cons_map_snd, find?_cons_map_snd]
      simp only [he]
      split <;> rfl
    · rename_i he
      rw [find?_cons_map_snd, find?_cons_map_snd, ih]
      by_cases h : k = k'
      · have hne : ¬ e.1 = k' := fun heq ↦ he (heq.trans h.symm)
        simp [h, hne]
      · simp [h]

/-- Inserting changes the value of one key only. -/
theorem get?_insert (m : OrderedMap α β) (k k' : α) (v : β) :
    (m.insert k v).get? k' = if k = k' then some v else m.get? k' :=
  find?_insertEntry k k' v m.entries

/-- Modifying changes the value of one key only. -/
theorem get?_modify (m : OrderedMap α β) (k k' : α) (f : β → β) :
    (m.modify k f).get? k' = if k = k' then (m.get? k').map f else m.get? k' := by
  simp only [get?, modify]
  induction m.entries with
  | nil => simp
  | cons e rest ih =>
    rw [List.map_cons, find?_cons_map_snd, find?_cons_map_snd, ih]
    by_cases hk : e.1 = k
    · subst hk
      by_cases h : e.1 = k' <;> simp [h]
    · by_cases h : k = k'
      · have hne : ¬ e.1 = k' := fun heq ↦ hk (heq.trans h.symm)
        simp [h, hne]
      · simp [h, hk]

/-- Replacing every value replaces that of each key. -/
theorem get?_mapValues (m : OrderedMap α β) (f : α → β → γ) (k : α) :
    (m.mapValues f).get? k = (m.get? k).map (f k) := by
  simp only [get?, mapValues]
  induction m.entries with
  | nil => rfl
  | cons e rest ih =>
    rw [List.map_cons, find?_cons_map_snd, find?_cons_map_snd, ih]
    by_cases hk : e.1 = k
    · rw [if_pos hk, if_pos hk, hk, Option.map_some]
    · rw [if_neg hk, if_neg hk]

/-- Erasing removes the value of one key only. -/
theorem get?_erase (m : OrderedMap α β) (k k' : α) :
    (m.erase k).get? k' = if k = k' then none else m.get? k' := by
  simp only [get?, erase]
  induction m.entries with
  | nil => simp
  | cons e rest ih =>
    rw [List.filter_cons, find?_cons_map_snd]
    by_cases hk : e.1 = k
    · subst hk
      rw [if_neg (by simp), ih]
      by_cases h : e.1 = k' <;> simp [h]
    · rw [if_pos (by simpa using hk), find?_cons_map_snd, ih]
      by_cases h : k = k'
      · have hne : ¬ e.1 = k' := fun heq ↦ hk (heq.trans h.symm)
        simp [h, hne]
      · simp [h]

/-! ## Replacing all values -/

omit [DecidableEq α] in
theorem eq_of_entries_eq {m m' : OrderedMap α β} (h : m.entries = m'.entries) : m = m' := by
  cases m
  cases m'
  cases h
  rfl

omit [DecidableEq α] in
theorem keys_mapValues (m : OrderedMap α β) (f : α → β → γ) : (m.mapValues f).keys = m.keys := by
  rw [keys, keys, mapValues, List.map_map]
  rfl

/-- Only the values of keys matter. -/
theorem mapValues_congr {m : OrderedMap α β} {f g : α → β → γ}
    (h : ∀ k v, m.get? k = some v → f k v = g k v) : m.mapValues f = m.mapValues g := by
  refine eq_of_entries_eq (List.map_congr_left fun e he ↦ ?_)
  rw [h e.1 e.2 ((m.get?_eq_some_iff e.1 e.2).mpr he)]

theorem mapValues_eq_self {m : OrderedMap α β} {f : α → β → β}
    (h : ∀ k v, m.get? k = some v → f k v = v) : m.mapValues f = m := by
  rw [mapValues_congr h]
  exact eq_of_entries_eq (List.map_id _)

omit [DecidableEq α] in
theorem mapValues_mapValues (m : OrderedMap α β) (f g : α → β → β) :
    (m.mapValues f).mapValues g = m.mapValues fun k v ↦ g k (f k v) :=
  eq_of_entries_eq (List.map_map ..)

theorem modify_eq_mapValues (m : OrderedMap α β) (k : α) (f : β → β) :
    m.modify k f = m.mapValues fun k' v ↦ if k' = k then f v else v := by
  refine eq_of_entries_eq (List.map_congr_left fun e _ ↦ ?_)
  by_cases h : e.1 = k <;> simp [h]

end OrderedMap

end TemporalRequirements

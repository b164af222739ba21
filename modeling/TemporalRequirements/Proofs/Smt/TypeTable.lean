import TemporalRequirements.Smt.Script

/-!
# The names in a table of types

Resolving types changes no name in the table and no order of names.  The names in the table of a
script are those that the notes speak of.
-/

namespace TemporalRequirements

theorem OrderedMap.mem_keys_of_get? {α β : Type} [DecidableEq α] {m : OrderedMap α β} {k : α}
    {v : β} (h : m.get? k = some v) : k ∈ m.keys :=
  List.mem_map_of_mem ((m.get?_eq_some_iff k v).mp h)

namespace Smt

namespace TypeTable

variable (t : TypeTable) (name : String)

/-- The names in the table, in order. -/
def names : List String := t.types.keys

theorem nodup_names : t.names.Nodup := t.types.nodup_keys

/-- Registering adds the name. -/
theorem mem_names_register (type : SmtType) (other : String) :
    other ∈ (t.register name type).names ↔ other ∈ t.names ∨ other = name := by
  rw [names, register, OrderedMap.keys_insert]
  split
  · rename_i hknown
    refine (or_iff_left_of_imp ?_).symm
    rintro rfl
    exact hknown
  · rw [List.mem_append, List.mem_singleton]
    rfl

/-! ## Resolving -/

/-- Fixing a type leaves the names. -/
theorem names_fix : (t.fix name).names = t.names := by
  rw [fix]
  split
  · rfl
  · rename_i type hknown
    split
    · rfl
    · split
      · exact (OrderedMap.keys_insert _ _ _).trans (if_pos (OrderedMap.mem_keys_of_get? hknown))
      · rfl

theorem names_foldl_fix (others : List String) : (others.foldl fix t).names = t.names := by
  induction others generalizing t with
  | nil => rfl
  | cons other others ih => exact (ih (t.fix other)).trans (t.names_fix other)

theorem names_pass : t.pass.names = t.names := t.names_foldl_fix t.types.keys

theorem names_passes (n : Nat) : (t.passes n).names = t.names := by
  induction n generalizing t with
  | zero => rfl
  | succ n ih =>
    simp only [passes]
    split
    · rfl
    · rw [ih, names_pass]

theorem names_defaultOpen : t.defaultOpen.names = t.names := by
  rw [names, OrderedMap.keys, defaultOpen, OrderedMap.mapValues, List.map_map]
  rfl

theorem names_resolve : t.resolve.1.names = t.names := by
  rw [resolve, names_defaultOpen, names_passes]

end TypeTable

/-! ## Collecting -/

theorem types_foldl_declare {α : Type} (name : α → String) (xs : List α) (t : TypeTable) :
    (xs.foldl (fun t x ↦ t.declare (name x)) t).types = t.types := by
  induction xs generalizing t with
  | nil => rfl
  | cons x xs ih => exact ih (t.declare (name x))

theorem mem_names_foldl_register (notes : List Note) (t : TypeTable) (name : String) :
    name ∈ (notes.foldl (fun t n ↦ t.register n.1 n.2) t).names ↔
      name ∈ t.names ∨ name ∈ notes.map Prod.fst := by
  induction notes generalizing t with
  | nil => simp
  | cons n notes ih =>
    rw [List.foldl_cons, ih, TypeTable.mem_names_register, List.map_cons, List.mem_cons, or_assoc]

/-- Declared signals get a type only if some note speaks of them. -/
theorem mem_names_collectTypes (i : Interface) (notes : List Note) (name : String) :
    name ∈ (collectTypes i notes).names ↔ name ∈ notes.map Prod.fst := by
  rw [collectTypes, mem_names_foldl_register, TypeTable.names,
    types_foldl_declare (fun x : Signal ↦ i.identifier x.name)]
  exact or_iff_right_of_imp fun h ↦ by cases h

end Smt

end TemporalRequirements

import Mathlib.Data.List.Basic

/-!
# Cuts of a list

A list is cut at its first element with a property.  Two cuts of one list are the same, or one of
them lies in a part of the other.
-/

namespace TemporalRequirements

variable {α : Type}

theorem exists_first {p : α → Prop} {l : List α} (h : ∃ x ∈ l, p x) :
    ∃ above x below, l = above ++ x :: below ∧ p x ∧ ∀ y ∈ above, ¬ p y := by
  classical
  obtain ⟨x, hx⟩ : ∃ x, l.find? (fun x ↦ decide (p x)) = some x :=
    Option.isSome_iff_exists.mp (List.find?_isSome.mpr (by simpa using h))
  obtain ⟨hp, above, below, hl, hnot⟩ := List.find?_eq_some_iff_append.mp hx
  exact ⟨above, x, below, hl, of_decide_eq_true hp, fun y hy ↦ by simpa using hnot y hy⟩

/-- An element of a joined list is in its second part or in its first. -/
theorem append_eq_append_cons {l₁ l₂ m a : List α} {x : α}
    (h : l₁ ++ l₂ = m ++ x :: a) :
    (∃ between, m = l₁ ++ between ∧ l₂ = between ++ x :: a) ∨
      ∃ rest, l₁ = m ++ x :: rest ∧ a = rest ++ l₂ := by
  rcases List.append_eq_append_iff.mp h with ⟨between, rfl, hl⟩ | ⟨rest, rfl, hl⟩
  · exact Or.inl ⟨between, rfl, hl⟩
  · rcases List.cons_eq_append_iff.mp hl with ⟨rfl, rfl⟩ | ⟨rest, rfl, rfl⟩
    · exact Or.inl ⟨[], by simp, rfl⟩
    · exact Or.inr ⟨rest, rfl, rfl⟩

/-- Two cuts of a list are one, or one of them lies in a part of the other. -/
theorem append_cons_eq_append_cons {l m a b : List α} {x y : α}
    (h : l ++ x :: a = m ++ y :: b) :
    (l = m ∧ x = y ∧ a = b) ∨ (∃ between, m = l ++ x :: between ∧ a = between ++ y :: b) ∨
      ∃ between, l = m ++ y :: between ∧ b = between ++ x :: a := by
  rcases append_eq_append_cons h with ⟨between, rfl, hl⟩ | ⟨between, rfl, rfl⟩
  · rcases List.cons_eq_append_iff.mp hl with ⟨rfl, hl⟩ | ⟨between, rfl, rfl⟩
    · obtain ⟨rfl, rfl⟩ := List.cons.inj hl
      exact Or.inl ⟨by simp, rfl, rfl⟩
    · exact Or.inr (Or.inl ⟨between, rfl, rfl⟩)
  · exact Or.inr (Or.inr ⟨between, rfl, rfl⟩)

/-- What is before the first separator is known from the whole, and so is what is after it. -/
theorem append_cons_injective {c : α} {s s' t t' : List α} (hs : c ∉ s) (hs' : c ∉ s')
    (h : s ++ c :: t = s' ++ c :: t') : s = s' ∧ t = t' := by
  rcases append_cons_eq_append_cons h with ⟨hs, -, ht⟩ | ⟨between, rfl, -⟩ | ⟨between, rfl, -⟩
  · exact ⟨hs, ht⟩
  · exact absurd (List.mem_append_right s List.mem_cons_self) hs'
  · exact absurd (List.mem_append_right s' List.mem_cons_self) hs

end TemporalRequirements

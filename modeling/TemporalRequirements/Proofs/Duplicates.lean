import Mathlib.Data.List.Nodup

/-!
# Leaving out duplicates

Of equal elements of a list the first one is kept.  What is kept stands in the order of its first
occurrences, and elements may be renamed or tested before or after duplicates are left out.
-/

namespace TemporalRequirements

variable {α : Type} [BEq α] [LawfulBEq α]

theorem nodup_eraseDups (l : List α) : l.eraseDups.Nodup := by
  cases l with
  | nil => exact List.nodup_nil
  | cons a l =>
    rw [List.eraseDups_cons, List.nodup_cons]
    refine ⟨?_, nodup_eraseDups _⟩
    rw [List.mem_eraseDups]
    simp
termination_by l.length
decreasing_by
  have hfilter := List.length_filter_le (fun b ↦ !b == a) l
  simp only [List.length_cons]
  omega

theorem eraseDups_of_nodup {l : List α} (h : l.Nodup) : l.eraseDups = l := by
  induction l with
  | nil => rfl
  | cons a l ih =>
    obtain ⟨ha, hl⟩ := List.nodup_cons.mp h
    have hfilter : (l.filter fun b ↦ !b == a) = l := List.filter_eq_self.mpr fun b hb ↦ by
      have hne : b ≠ a := ne_of_mem_of_not_mem hb ha
      simpa using hne
    rw [List.eraseDups_cons, hfilter, ih hl]

/-- Leaving out duplicates and leaving out what fails a test can be done in either order. -/
theorem eraseDups_filter (p : α → Bool) (l : List α) :
    (l.filter p).eraseDups = l.eraseDups.filter p := by
  cases l with
  | nil => rfl
  | cons a l =>
    have hrest := eraseDups_filter p (l.filter fun b ↦ !b == a)
    rw [List.eraseDups_cons, List.filter_cons, List.filter_cons]
    split
    · rw [List.eraseDups_cons, ← hrest, List.filter_comm]
    · rename_i ha
      rw [← hrest, List.filter_filter]
      congr 1
      apply List.filter_congr
      intro b _
      by_cases hb : b == a
      · rw [eq_of_beq hb, Bool.eq_false_iff.mpr ha, Bool.false_and]
      · simp [hb]
termination_by l.length
decreasing_by exact Nat.lt_succ_of_le (List.length_filter_le _ _)

/-- Duplicates may be left out of parts first. -/
theorem eraseDups_flatMap {β : Type} (f : β → List α) (l : List β) :
    (l.flatMap fun x ↦ (f x).eraseDups).eraseDups = (l.flatMap f).eraseDups := by
  induction l with
  | nil => rfl
  | cons x l ih =>
    have hremove (ys : List α) : ys.removeAll (f x).eraseDups = ys.removeAll (f x) := by
      simp [List.removeAll]
    rw [List.flatMap_cons, List.flatMap_cons, List.eraseDups_append, List.eraseDups_append,
      eraseDups_of_nodup (nodup_eraseDups _), hremove, List.removeAll, List.removeAll,
      eraseDups_filter, eraseDups_filter, ih]

/-- Elements that are told apart may be renamed first. -/
theorem eraseDups_map {β : Type} [BEq β] [LawfulBEq β] {f : α → β} {l : List α}
    (h : ∀ a ∈ l, ∀ b ∈ l, f a = f b → a = b) : (l.map f).eraseDups = l.eraseDups.map f := by
  match l, h with
  | [], _ => rfl
  | a :: l, h =>
    have hfilter : (l.map f).filter (fun b ↦ !b == f a) =
        (l.filter fun b ↦ !b == a).map f := by
      rw [List.filter_map]
      congr 1
      apply List.filter_congr
      intro b hb
      have hiff : f b = f a ↔ b = a :=
        ⟨h b (List.mem_cons_of_mem a hb) a List.mem_cons_self, congrArg f⟩
      have hbeq : (f b == f a) = (b == a) := by rw [Bool.eq_iff_iff, beq_iff_eq, beq_iff_eq, hiff]
      rw [Function.comp_apply, hbeq]
    have hrest := eraseDups_map (l := l.filter fun b ↦ !b == a) fun b hb c hc ↦
      h b (List.mem_cons_of_mem a (List.mem_of_mem_filter hb)) c
        (List.mem_cons_of_mem a (List.mem_of_mem_filter hc))
    rw [List.map_cons, List.eraseDups_cons, hfilter, hrest, List.eraseDups_cons, List.map_cons]
termination_by l.length
decreasing_by exact Nat.lt_succ_of_le (List.length_filter_le _ _)

/-- Leaving out other elements keeps two in their order. -/
theorem idxOf_lt_of_filter {p : α → Bool} {l : List α} {a b : α} (ha : p a = true)
    (hb : p b = true) (h : (l.filter p).idxOf a < (l.filter p).idxOf b) :
    l.idxOf a < l.idxOf b := by
  induction l with
  | nil => exact h
  | cons c l ih =>
    by_cases hc : p c = true
    · rw [List.filter_cons_of_pos hc] at h
      by_cases hcb : c = b
      · subst hcb
        simp at h
      · by_cases hca : c = a
        · subst hca
          simp [List.idxOf_cons_ne _ hcb]
        · rw [List.idxOf_cons_ne _ hca, List.idxOf_cons_ne _ hcb] at h ⊢
          exact Nat.succ_lt_succ (ih (Nat.lt_of_succ_lt_succ h))
    · rw [List.filter_cons_of_neg hc] at h
      have hca : c ≠ a := fun heq ↦ hc (heq ▸ ha)
      have hcb : c ≠ b := fun heq ↦ hc (heq ▸ hb)
      rw [List.idxOf_cons_ne _ hca, List.idxOf_cons_ne _ hcb]
      exact Nat.succ_lt_succ (ih h)

/-- What is kept stands in the order of its first occurrences. -/
theorem pairwise_idxOf_eraseDups (l : List α) :
    l.eraseDups.Pairwise fun a b ↦ l.idxOf a < l.idxOf b := by
  cases l with
  | nil => exact List.Pairwise.nil
  | cons a l =>
    have hne {b : α} (hb : b ∈ (l.filter fun b ↦ !b == a).eraseDups) : a ≠ b := by
      rw [List.mem_eraseDups, List.mem_filter] at hb
      rintro rfl
      simp at hb
    rw [List.eraseDups_cons, List.pairwise_cons]
    refine ⟨fun b hb ↦ by simp [List.idxOf_cons_ne _ (hne hb)], ?_⟩
    refine (pairwise_idxOf_eraseDups (l.filter fun b ↦ !b == a)).imp_of_mem fun hb hc hlt ↦ ?_
    rw [List.idxOf_cons_ne _ (hne hb), List.idxOf_cons_ne _ (hne hc)]
    refine Nat.succ_lt_succ (idxOf_lt_of_filter ?_ ?_ hlt)
    · simpa using (hne hb).symm
    · simpa using (hne hc).symm
termination_by l.length
decreasing_by exact Nat.lt_succ_of_le (List.length_filter_le _ _)

end TemporalRequirements

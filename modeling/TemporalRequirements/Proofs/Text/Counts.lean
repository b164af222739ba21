import TemporalRequirements.Proofs.Text.Balanced

/-!
# Well-nested texts by counting

A text is well nested if and only if no prefix of it closes more groups than it opens and it closes
all that it opens.  So what is left when a well-nested part is cut off either end of a well-nested
text is well nested.
-/

namespace TemporalRequirements.Text

/-! ## Texts that close groups opened before them -/

/-- A text that closes `depth` groups which were opened before it, and is well nested between. -/
def ClosesGroups : Nat → List Char → Prop
  | 0, s => Balanced s
  | depth + 1, s =>
    ∃ inner rest, s = inner ++ ')' :: rest ∧ Balanced inner ∧ ClosesGroups depth rest

namespace ClosesGroups

variable {depth : Nat} {s t : List Char}

theorem append (ht : ClosesGroups depth t) (hs : Balanced s) : ClosesGroups depth (s ++ t) := by
  cases depth with
  | zero => exact hs.append ht
  | succ depth =>
    obtain ⟨inner, rest, rfl, hinner, hrest⟩ := ht
    exact ⟨s ++ inner, rest, (List.append_assoc s inner _).symm, hs.append hinner, hrest⟩

theorem plain {c : Char} (hopen : c ≠ '(') (hclose : c ≠ ')') (h : ClosesGroups depth s) :
    ClosesGroups depth (c :: s) :=
  h.append (.plain hopen hclose .nil)

theorem closer (h : ClosesGroups depth s) : ClosesGroups (depth + 1) (')' :: s) :=
  ⟨[], s, rfl, Balanced.nil, h⟩

/-- An open parenthesis in front takes one of the groups that a text closes. -/
theorem opener (h : ClosesGroups (depth + 1) s) : ClosesGroups depth ('(' :: s) := by
  obtain ⟨inner, rest, rfl, hinner, hrest⟩ := h
  have hgroup := hrest.append hinner.wrap
  rwa [List.cons_append, List.append_assoc] at hgroup

end ClosesGroups

/-- A text closes its groups if no prefix closes too many and the whole closes all. -/
theorem closesGroups_of_counts {depth : Nat} {s : List Char}
    (hclosed : ∀ p, p <+: s → p.count ')' ≤ depth + p.count '(')
    (htotal : s.count ')' = depth + s.count '(') : ClosesGroups depth s := by
  have hne : ('(' : Char) ≠ ')' := by decide
  induction s generalizing depth with
  | nil =>
    obtain rfl : depth = 0 := by simpa using htotal.symm
    exact Balanced.nil
  | cons c s ih =>
    have hcons (p : List Char) (hp : p <+: s) : (c :: p).count ')' ≤ depth + (c :: p).count '(' :=
      hclosed (c :: p) (List.cons_prefix_cons.mpr ⟨rfl, hp⟩)
    by_cases hopen : c = '('
    · subst hopen
      simp only [List.count_cons_self, List.count_cons_of_ne hne] at hcons htotal
      have hrest : ClosesGroups (depth + 1) s :=
        ih (fun p hp ↦ by have := hcons p hp; omega) (by omega)
      exact hrest.opener
    · by_cases hclose : c = ')'
      · subst hclose
        simp only [List.count_cons_self, List.count_cons_of_ne hne.symm] at hcons htotal
        have hfirst := hcons [] (List.nil_prefix)
        rw [List.count_nil, List.count_nil] at hfirst
        obtain ⟨outer, rfl⟩ : ∃ outer, depth = outer + 1 := ⟨depth - 1, by omega⟩
        have hrest : ClosesGroups outer s :=
          ih (fun p hp ↦ by have := hcons p hp; omega) (by omega)
        exact hrest.closer
      · simp only [List.count_cons_of_ne hopen, List.count_cons_of_ne hclose] at hcons htotal
        exact (ih hcons htotal).plain hopen hclose

/-! ## Well-nested texts -/

/-- A prefix of two texts in a row ends in the first one or goes on into the second one. -/
theorem prefix_append_cases {s t p : List Char} (h : p <+: s ++ t) :
    p <+: s ∨ ∃ q, p = s ++ q ∧ q <+: t := by
  rcases List.prefix_or_prefix_of_prefix h (List.prefix_append s t) with hs | ⟨q, rfl⟩
  · exact .inl hs
  · exact .inr ⟨q, rfl, (List.prefix_append_right_inj s).mp h⟩

namespace Balanced

/-- No prefix of a balanced text closes more than it opens. -/
theorem count_close_le_of_prefix {s p : List Char} (h : Balanced s) (hp : p <+: s) :
    p.count ')' ≤ p.count '(' := by
  have hne : ('(' : Char) ≠ ')' := by decide
  induction h generalizing p with
  | nil =>
    rw [List.prefix_nil.mp hp]
    exact Nat.le_refl _
  | plain hopen hclose _ ih =>
    cases p with
    | nil => exact Nat.le_refl _
    | cons d p =>
      obtain ⟨rfl, hrest⟩ := List.cons_prefix_cons.mp hp
      rw [List.count_cons_of_ne hopen, List.count_cons_of_ne hclose]
      exact ih hrest
  | @group u v hu _ ihu ihv =>
    cases p with
    | nil => exact Nat.le_refl _
    | cons d p =>
      obtain ⟨rfl, hrest⟩ := List.cons_prefix_cons.mp hp
      rw [List.count_cons_self, List.count_cons_of_ne hne]
      rcases prefix_append_cases hrest with hinside | ⟨q, rfl, hq⟩
      · exact Nat.le_succ_of_le (ihu hinside)
      · rw [List.count_append, List.count_append, hu.count_open_eq_count_close]
        cases q with
        | nil => simp
        | cons d q =>
          obtain ⟨rfl, htail⟩ := List.cons_prefix_cons.mp hq
          have hafter := ihv htail
          rw [List.count_cons_self, List.count_cons_of_ne hne.symm]
          omega

end Balanced

/-- A text is well nested if it never closes more than it opened, and closes all that it opens. -/
theorem balanced_iff_counts {s : List Char} :
    Balanced s ↔ (∀ p, p <+: s → p.count ')' ≤ p.count '(') ∧ s.count '(' = s.count ')' := by
  constructor
  · intro h
    exact ⟨fun p ↦ h.count_close_le_of_prefix, h.count_open_eq_count_close⟩
  · rintro ⟨hclosed, htotal⟩
    have hzero : ClosesGroups 0 s :=
      closesGroups_of_counts (by simpa using hclosed) (by simpa using htotal.symm)
    exact hzero

namespace Balanced

/-- What follows a balanced part of a balanced text is balanced. -/
theorem of_append_left {s t : List Char} (h : Balanced (s ++ t)) (hs : Balanced s) :
    Balanced t := by
  have hopen := hs.count_open_eq_count_close
  obtain ⟨hclosed, htotal⟩ := balanced_iff_counts.mp h
  refine balanced_iff_counts.mpr ⟨fun p hp ↦ ?_, ?_⟩
  · have hlonger := hclosed (s ++ p) ((List.prefix_append_right_inj s).mpr hp)
    rw [List.count_append, List.count_append] at hlonger
    omega
  · rw [List.count_append, List.count_append] at htotal
    omega

theorem of_append_right {s t : List Char} (h : Balanced (s ++ t)) (ht : Balanced t) :
    Balanced s := by
  have hclose := ht.count_open_eq_count_close
  obtain ⟨hclosed, htotal⟩ := balanced_iff_counts.mp h
  refine balanced_iff_counts.mpr ⟨fun p hp ↦ hclosed p (hp.trans (List.prefix_append s t)), ?_⟩
  rw [List.count_append, List.count_append] at htotal
  omega

theorem of_isBlank {s : List Char} (h : ∀ c ∈ s, isBlank c = true) : Balanced s := by
  apply of_forall
  intro c hc
  constructor <;> rintro rfl <;> exact absurd (h _ hc) (by decide)

/-- Trimming a well-nested text leaves it well nested. -/
theorem trim {s : List Char} (h : Balanced s) : Balanced (trim s) := by
  obtain ⟨before, after, hs, hbefore, hafter⟩ := exists_trim s
  rw [hs] at h
  exact (h.of_append_left (of_isBlank hbefore)).of_append_right (of_isBlank hafter)

end Balanced

end TemporalRequirements.Text

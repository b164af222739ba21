import TemporalRequirements.Proofs.Text.Balanced

/-!
# Depth of nested parentheses

A part of a text nests no deeper than the text, and blanks do not nest at all.  A well-nested text
leaves the depth that it starts with, so that parentheses around it nest one deeper.
-/

namespace TemporalRequirements.Text

theorem le_nestingFrom (depth : Nat) (s : List Char) : depth ≤ nestingFrom depth s := by
  induction s generalizing depth with
  | nil => exact Nat.le_refl depth
  | cons c s ih =>
    rw [nestingFrom]
    split
    · exact Nat.le_trans (Nat.le_succ depth) (ih (depth + 1))
    · split
      · exact Nat.le_max_left _ _
      · exact ih depth

/-- A text that starts deeper nests as deep or deeper. -/
theorem nestingFrom_mono {depth depth' : Nat} (h : depth ≤ depth') (s : List Char) :
    nestingFrom depth s ≤ nestingFrom depth' s := by
  induction s generalizing depth depth' with
  | nil => exact h
  | cons c s ih =>
    rw [nestingFrom, nestingFrom]
    split
    · exact ih (Nat.succ_le_succ h)
    · split
      · have hrest := ih (Nat.sub_le_sub_right h 1)
        omega
      · exact ih h

/-- A text after its first character nests no deeper. -/
theorem nesting_le_nestingFrom_cons (depth : Nat) (c : Char) (s : List Char) :
    nesting s ≤ nestingFrom depth (c :: s) := by
  have hstart (d : Nat) : nesting s ≤ nestingFrom d s := nestingFrom_mono (Nat.zero_le d) s
  rw [nestingFrom]
  split
  · exact hstart _
  · split
    · exact Nat.le_trans (hstart _) (Nat.le_max_right _ _)
    · exact hstart _

/-- More text nests as deep or deeper. -/
theorem nestingFrom_le_append (depth : Nat) (s t : List Char) :
    nestingFrom depth s ≤ nestingFrom depth (s ++ t) := by
  induction s generalizing depth with
  | nil => exact le_nestingFrom depth t
  | cons c s ih =>
    rw [List.cons_append, nestingFrom, nestingFrom]
    split
    · exact ih _
    · split
      · have hrest := ih (depth - 1)
        omega
      · exact ih _

/-- A part of a text nests no deeper than the text. -/
theorem nesting_le_of_infix {s t : List Char} (h : s <:+: t) : nesting s ≤ nesting t := by
  obtain ⟨front, back, rfl⟩ := h
  have hback : nesting s ≤ nesting (s ++ back) := nestingFrom_le_append 0 s back
  rw [List.append_assoc]
  induction front with
  | nil => exact hback
  | cons c front ih => exact Nat.le_trans ih (nesting_le_nestingFrom_cons 0 c _)

/-! ## Blanks -/

theorem nestingFrom_cons_of_plain {c : Char} (hopen : c ≠ '(') (hclose : c ≠ ')') (depth : Nat)
    (s : List Char) : nestingFrom depth (c :: s) = nestingFrom depth s := by
  rw [nestingFrom, if_neg hopen, if_neg hclose]

theorem nestingFrom_cons_of_blank {c : Char} (h : isBlank c = true) (depth : Nat)
    (s : List Char) : nestingFrom depth (c :: s) = nestingFrom depth s := by
  apply nestingFrom_cons_of_plain <;> rintro rfl <;> cases h

/-- Squeezing leaves the parentheses as they are. -/
theorem nestingFrom_squeeze (depth : Nat) (s : List Char) :
    nestingFrom depth (squeeze s) = nestingFrom depth s := by
  induction s generalizing depth with
  | nil => rfl
  | cons c s ih =>
    cases hc : isBlank c with
    | false =>
      rw [squeeze_cons_of_firm hc, nestingFrom, nestingFrom]
      simp only [ih]
    | true =>
      rw [nestingFrom_cons_of_blank hc]
      cases s with
      | nil => simp [squeeze, hc, nestingFrom]
      | cons d s =>
        rw [squeeze_cons_of_blank hc]
        split
        · exact ih depth
        · rw [nestingFrom_cons_of_blank rfl, ih]

theorem isInfix_trim (s : List Char) : trim s <:+: s := by
  obtain ⟨before, after, hs, -, -⟩ := exists_trim s
  exact ⟨before, after, by rw [List.append_assoc, ← hs]⟩

/-- Unwrapping takes away at the ends only. -/
theorem isInfix_unwrapUpTo (layers : Nat) (s : List Char) : unwrapUpTo layers s <:+: s := by
  induction layers generalizing s with
  | zero => exact isInfix_trim s
  | succ layers ih =>
    rw [unwrapUpTo]
    split
    · rename_i inner hinside
      have hinner : inner <:+: trim s := ⟨['('], [')'], by rw [inside?_eq_some hinside]; rfl⟩
      exact (ih inner).trans (hinner.trans (isInfix_trim s))
    · exact isInfix_trim s

/-- Unwrapping takes a part of the text. -/
theorem isInfix_unwrap (s : List Char) : unwrap s <:+: s := isInfix_unwrapUpTo s.length s

/-! ## Groups -/

/-- After a well-nested text the depth is the one before it. -/
theorem Balanced.nestingFrom_append {s : List Char} (h : Balanced s) (depth : Nat)
    (t : List Char) :
    nestingFrom depth (s ++ t) = max (depth + nesting s) (nestingFrom depth t) := by
  induction h generalizing depth t with
  | nil =>
    have hle := le_nestingFrom depth t
    have hnil : nesting [] = 0 := rfl
    rw [List.nil_append, hnil, Nat.add_zero, Nat.max_eq_right hle]
  | @plain c s hopen hclose _ ih =>
    have hc : nesting (c :: s) = nesting s := nestingFrom_cons_of_plain hopen hclose 0 s
    rw [List.cons_append, nestingFrom_cons_of_plain hopen hclose, ih, hc]
  | @group u v _ _ ihu ihv =>
    have hgroup (d : Nat) (w : List Char) : nestingFrom d ('(' :: (u ++ ')' :: w)) =
        max (d + 1 + nesting u) (max (d + 1) (nestingFrom d w)) := by
      have hclose : nestingFrom (d + 1) (')' :: w) = max (d + 1) (nestingFrom d w) := rfl
      rw [← hclose, ← ihu]
      rfl
    have hself : nesting ('(' :: (u ++ ')' :: v)) = max (1 + nesting u) (max 1 (nesting v)) :=
      hgroup 0 v
    rw [List.cons_append, List.append_assoc, List.cons_append, hgroup, ihv, hself]
    omega

/-- Parentheses around a well-nested text nest one deeper. -/
theorem Balanced.nesting_wrap {s : List Char} (h : Balanced s) :
    nesting ('(' :: (s ++ [')'])) = nesting s + 1 := by
  have hclose : nestingFrom 1 [')'] = 1 := rfl
  calc
    nesting ('(' :: (s ++ [')'])) = nestingFrom 1 (s ++ [')']) := rfl
    _ = max (1 + nesting s) (nestingFrom 1 [')']) := h.nestingFrom_append 1 [')']
    _ = nesting s + 1 := by
      rw [hclose]
      omega

end TemporalRequirements.Text

import TemporalRequirements.Text.Blank

/-!
# Squeezing and trimming

Squeezing works on the parts of a text one by one wherever a part ends in a character that is no
blank, and trimming a text that neither starts nor ends with a blank does nothing.
-/

namespace TemporalRequirements.Text

/-- A property of the characters of a text can be computed. -/
theorem forall_mem_of_all {p : Char → Prop} [DecidablePred p] {s : List Char}
    (h : s.all (fun c ↦ decide (p c)) = true) : ∀ c ∈ s, p c := by
  intro c hc
  exact of_decide_eq_true (List.all_eq_true.mp h c hc)

def EndsFirm (s : List Char) : Prop := ∃ front c, s = front ++ [c] ∧ isBlank c = false

theorem EndsFirm.append {t : List Char} (h : EndsFirm t) (s : List Char) : EndsFirm (s ++ t) := by
  obtain ⟨front, c, rfl, hc⟩ := h
  exact ⟨s ++ front, c, (List.append_assoc s front [c]).symm, hc⟩

theorem EndsFirm.ne_nil {s : List Char} (h : EndsFirm s) : s ≠ [] := by
  obtain ⟨front, c, rfl, -⟩ := h
  exact List.append_ne_nil_of_right_ne_nil front (List.cons_ne_nil c [])

theorem endsFirm_singleton {c : Char} (h : isBlank c = false) : EndsFirm [c] := ⟨[], c, rfl, h⟩

/-- A text of ink only ends in ink. -/
theorem endsFirm_of_forall {s : List Char} (hne : s ≠ []) (h : ∀ c ∈ s, isBlank c = false) :
    EndsFirm s :=
  ⟨s.dropLast, s.getLast hne, (List.dropLast_concat_getLast hne).symm, h _ (List.getLast_mem hne)⟩

/-! ## Trimming -/

theorem trimStart_cons_of_firm {c : Char} (h : isBlank c = false) (s : List Char) :
    trimStart (c :: s) = c :: s :=
  List.dropWhile_cons_of_neg (by simp [h])

theorem trimEnd_of_endsFirm {s : List Char} (h : EndsFirm s) : trimEnd s = s := by
  obtain ⟨front, c, rfl, hc⟩ := h
  rw [trimEnd, List.reverse_append, List.reverse_singleton, List.singleton_append,
    List.dropWhile_cons_of_neg (by simp [hc]), List.reverse_cons, List.reverse_reverse]

/-- Trimming a text that starts and ends in ink does nothing. -/
theorem trim_eq_self {c : Char} {s : List Char} (hc : isBlank c = false)
    (h : EndsFirm (c :: s)) : trim (c :: s) = c :: s := by
  rw [trim, trimStart_cons_of_firm hc, trimEnd_of_endsFirm h]

theorem trimStart_of_blanks {s : List Char} (h : ∀ b ∈ s, isBlank b = true) : trimStart s = [] := by
  have hnone : (s ++ []).dropWhile isBlank = [] := List.dropWhile_append_of_pos h
  rwa [List.append_nil] at hnone

theorem trimEnd_append_blanks (s : List Char) {after : List Char}
    (h : ∀ b ∈ after, isBlank b = true) : trimEnd (s ++ after) = trimEnd s := by
  rw [trimEnd, List.reverse_append,
    List.dropWhile_append_of_pos (fun b hb ↦ h b (List.mem_reverse.mp hb)), trimEnd]

/-- Trimming takes no notice of blanks around a text. -/
theorem trim_blanks {before s after : List Char} (hbefore : ∀ b ∈ before, isBlank b = true)
    (hafter : ∀ b ∈ after, isBlank b = true) : trim (before ++ (s ++ after)) = trim s := by
  rw [trim, trimStart, List.dropWhile_append_of_pos hbefore, List.dropWhile_append]
  split
  · rename_i hblank
    have hs : trimStart s = [] := List.isEmpty_iff.mp hblank
    rw [trim, hs, ← trimStart, trimStart_of_blanks hafter]
  · rw [trimEnd_append_blanks _ hafter, trim, trimStart]

/-- Blanks around a text that starts and ends in ink are what trimming takes off. -/
theorem trim_append_blanks {before s after : List Char} {c : Char} (hc : isBlank c = false)
    (hs : EndsFirm (c :: s)) (hbefore : ∀ b ∈ before, isBlank b = true)
    (hafter : ∀ b ∈ after, isBlank b = true) : trim (before ++ (c :: s) ++ after) = c :: s := by
  rw [List.append_assoc, trim_blanks hbefore hafter, trim_eq_self hc hs]

theorem trimEnd_prefix (s : List Char) : trimEnd s <+: s := by
  have hprefix := List.reverse_prefix.mpr (List.dropWhile_suffix isBlank (l := s.reverse))
  rwa [List.reverse_reverse] at hprefix

theorem isBlank_of_head?_dropWhile {c : Char} {s : List Char}
    (h : (s.dropWhile isBlank).head? = some c) : isBlank c = false := by
  have hfirst := List.head?_dropWhile_not isBlank s
  rwa [h] at hfirst

/-- A trimmed text does not start with a blank. -/
theorem isBlank_of_head?_trim {c : Char} {s : List Char} (h : (trim s).head? = some c) :
    isBlank c = false := by
  obtain ⟨rest, hrest⟩ := trimEnd_prefix (trimStart s)
  apply isBlank_of_head?_dropWhile
  rw [← trimStart, ← hrest, List.head?_append, ← trim, h]
  rfl

/-- A trimmed text does not end with a blank. -/
theorem isBlank_of_getLast?_trim {c : Char} {s : List Char} (h : (trim s).getLast? = some c) :
    isBlank c = false := by
  rw [trim, trimEnd, List.getLast?_reverse] at h
  exact isBlank_of_head?_dropWhile h

/-- A text is what trimming leaves of it between blanks. -/
theorem exists_trim (s : List Char) : ∃ before after, s = before ++ (trim s ++ after) ∧
    (∀ b ∈ before, isBlank b = true) ∧ ∀ b ∈ after, isBlank b = true := by
  have htakes (s : List Char) : ∀ b ∈ s.takeWhile isBlank, isBlank b = true :=
    List.all_eq_true.mp List.all_takeWhile
  have hend : trimStart s = trim s ++ ((trimStart s).reverse.takeWhile isBlank).reverse := by
    rw [trim, trimEnd, ← List.reverse_append, List.takeWhile_append_dropWhile, List.reverse_reverse]
  refine ⟨s.takeWhile isBlank, ((trimStart s).reverse.takeWhile isBlank).reverse, ?_, htakes s,
    fun b hb ↦ htakes _ b (List.mem_reverse.mp hb)⟩
  rw [← hend, trimStart, List.takeWhile_append_dropWhile]

/-! ## Squeezing -/

theorem squeeze_cons_of_firm {c : Char} (h : isBlank c = false) (s : List Char) :
    squeeze (c :: s) = c :: squeeze s := by
  cases s <;> simp [squeeze, h]

/-- A blank before a blank goes, a blank before ink becomes a space. -/
theorem squeeze_cons_of_blank {c d : Char} (h : isBlank c = true) (s : List Char) :
    squeeze (c :: d :: s) =
      if isBlank d then squeeze (d :: s) else ' ' :: squeeze (d :: s) := by
  simp only [squeeze, h, if_true]

theorem squeeze_eq_self {s : List Char} (h : ∀ c ∈ s, isBlank c = false) : squeeze s = s := by
  induction s with
  | nil => rfl
  | cons c s ih =>
    rw [squeeze_cons_of_firm (h c List.mem_cons_self),
      ih fun d hd ↦ h d (List.mem_cons_of_mem c hd)]

/-- Squeezing works on the parts of a text that is cut after ink. -/
theorem squeeze_append {s : List Char} (h : EndsFirm s) (t : List Char) :
    squeeze (s ++ t) = squeeze s ++ squeeze t := by
  obtain ⟨front, c, rfl, hc⟩ := h
  rw [List.append_assoc, List.singleton_append]
  induction front with
  | nil =>
    rw [List.nil_append, List.nil_append, squeeze_cons_of_firm hc, squeeze_cons_of_firm hc]
    rfl
  | cons d front ih =>
    cases hd : isBlank d with
    | false =>
      rw [List.cons_append, List.cons_append, squeeze_cons_of_firm hd, squeeze_cons_of_firm hd,
        ih, List.cons_append]
    | true =>
      cases front with
      | nil =>
        rw [List.nil_append, List.nil_append] at ih
        rw [List.cons_append, List.nil_append, List.cons_append, List.nil_append,
          squeeze_cons_of_blank hd, squeeze_cons_of_blank hd, ih, hc]
        rfl
      | cons e front =>
        rw [List.cons_append, List.cons_append] at ih
        rw [List.cons_append, List.cons_append, List.cons_append, List.cons_append,
          squeeze_cons_of_blank hd, squeeze_cons_of_blank hd, ih]
        split
        · rfl
        · rfl

theorem squeeze_length_le (s : List Char) : (squeeze s).length ≤ s.length := by
  induction s with
  | nil => exact Nat.le_refl _
  | cons c s ih =>
    cases hc : isBlank c with
    | false =>
      rw [squeeze_cons_of_firm hc]
      exact Nat.succ_le_succ ih
    | true =>
      cases s with
      | nil => simp [squeeze, hc]
      | cons d s =>
        rw [squeeze_cons_of_blank hc]
        split
        · exact Nat.le_succ_of_le ih
        · exact Nat.succ_le_succ ih

/-- The squeezed text starts with a space if the text starts with a blank. -/
theorem head?_squeeze_cons (c : Char) (s : List Char) :
    (squeeze (c :: s)).head? = some (if isBlank c then ' ' else c) := by
  induction s generalizing c with
  | nil => cases hc : isBlank c <;> simp [squeeze, hc]
  | cons d s ih =>
    cases hc : isBlank c with
    | false =>
      rw [squeeze_cons_of_firm hc]
      rfl
    | true =>
      rw [squeeze_cons_of_blank hc]
      split
      · rename_i hd
        rw [ih d, if_pos hd, if_pos rfl]
      · rfl

/-- A squeezed text is not squeezed any further. -/
theorem squeeze_squeeze (s : List Char) : squeeze (squeeze s) = squeeze s := by
  induction s with
  | nil => rfl
  | cons c s ih =>
    cases hc : isBlank c with
    | false => rw [squeeze_cons_of_firm hc, squeeze_cons_of_firm hc, ih]
    | true =>
      cases s with
      | nil => simp [squeeze, hc]
      | cons d s =>
        rw [squeeze_cons_of_blank hc]
        split
        · exact ih
        · rename_i hd
          have hd' : isBlank d = false := by simpa using hd
          rw [squeeze_cons_of_firm hd'] at ih ⊢
          rw [squeeze_cons_of_blank rfl, if_neg hd, ih]

/-- The blanks of a squeezed text are spaces. -/
theorem eq_space_of_mem_squeeze {c : Char} {s : List Char} (h : c ∈ squeeze s)
    (hc : isBlank c = true) : c = ' ' := by
  induction s with
  | nil => cases h
  | cons d s ih =>
    cases hd : isBlank d with
    | false =>
      rw [squeeze_cons_of_firm hd] at h
      rcases List.mem_cons.mp h with rfl | h
      · rw [hd] at hc
        cases hc
      · exact ih h
    | true =>
      cases s with
      | nil =>
        simp only [squeeze, hd, if_true] at h
        exact List.mem_singleton.mp h
      | cons e s =>
        rw [squeeze_cons_of_blank hd] at h
        split at h
        · exact ih h
        · rcases List.mem_cons.mp h with rfl | h
          · rfl
          · exact ih h

/-- A text whose blanks are spaces, so that it holds no line break. -/
def Spaced (s : List Char) : Prop := ∀ c ∈ s, isBlank c = true → c = ' '

theorem Spaced.append {s t : List Char} (hs : Spaced s) (ht : Spaced t) : Spaced (s ++ t) :=
  fun c hc ↦ (List.mem_append.mp hc).elim (hs c) (ht c)

theorem Spaced.wrap {s : List Char} (h : Spaced s) : Spaced ('(' :: (s ++ [')'])) := by
  have hwrap : Spaced (['('] ++ (s ++ [')'])) :=
    Spaced.append (forall_mem_of_all rfl) (h.append (forall_mem_of_all rfl))
  exact hwrap

theorem Spaced.notMem {s : List Char} (h : Spaced s) {c : Char} (hc : isBlank c = true)
    (hne : c ≠ ' ') : c ∉ s :=
  fun hmem ↦ hne (h c hmem hc)

theorem spaced_of_squeeze_eq {s : List Char} (h : squeeze s = s) : Spaced s :=
  fun _ hc hblank ↦ eq_space_of_mem_squeeze (h.symm ▸ hc) hblank

/-- A text that is one line and starts and ends in ink. -/
structure IsLine (s : List Char) : Prop where
  spaced : Spaced s
  starts : ∃ c rest, s = c :: rest ∧ isBlank c = false
  ends : EndsFirm s

theorem IsLine.trim {s : List Char} (h : IsLine s) : trim s = s := by
  obtain ⟨c, rest, rfl, hc⟩ := h.starts
  exact trim_eq_self hc h.ends

theorem mem_dropWhile_isBlank {c : Char} {s : List Char} (h : c ∈ s) (hc : isBlank c = false) :
    c ∈ s.dropWhile isBlank := by
  rw [← List.takeWhile_append_dropWhile (p := isBlank) (l := s), List.mem_append] at h
  rcases h with h | h
  · have hblank := List.all_eq_true.mp List.all_takeWhile c h
    rw [hblank] at hc
    cases hc
  · exact h

/-- Trimming removes blanks only. -/
theorem mem_trim {c : Char} {s : List Char} (h : c ∈ s) (hc : isBlank c = false) : c ∈ trim s := by
  have hstart : c ∈ (trimStart s).reverse :=
    List.mem_reverse.mpr (mem_dropWhile_isBlank h hc)
  exact List.mem_reverse.mpr (mem_dropWhile_isBlank hstart hc)

end TemporalRequirements.Text

import TemporalRequirements.Text.Search

/-!
# Lines of a text

A text is its lines with a line break between any two of them.  A pattern without line breaks
occurs in a text where it occurs in one of its lines, so that its first occurrence in the text is
the first one in the first line that has one.
-/

namespace TemporalRequirements.Text

variable {pattern : List Char}

theorem after?_eq_none_iff {s : List Char} : after? pattern s = none ↔ ¬ pattern <+: s := by
  constructor
  · rintro h ⟨rest, rfl⟩
    rw [after?_append] at h
    cases h
  · intro h
    cases hafter : after? pattern s with
    | none => rfl
    | some rest => exact absurd ⟨rest, (after?_eq_some_iff.mp hafter).symm⟩ h

theorem breakOn_cons_of_starts {c : Char} {s : List Char} (h : pattern <+: c :: s) :
    ∃ after, breakOn pattern (c :: s) = some ([], after) := by
  obtain ⟨after, hafter⟩ := h
  refine ⟨after, ?_⟩
  rw [breakOn, after?_eq_some_iff.mpr hafter.symm]

theorem breakOn_cons_of_not_starts {c : Char} {s : List Char} (h : ¬ pattern <+: c :: s) :
    breakOn pattern (c :: s) = (breakOn pattern s).map fun x ↦ (c :: x.1, x.2) := by
  rw [breakOn, after?_eq_none_iff.mpr h]

/-- A pattern is found unless it does not occur. -/
theorem breakOn_eq_none_iff {s : List Char} (hp : pattern ≠ []) :
    breakOn pattern s = none ↔ ¬ pattern <:+: s := by
  induction s with
  | nil => simp [breakOn, hp]
  | cons c s ih =>
    rw [List.infix_cons_iff]
    by_cases hstart : pattern <+: c :: s
    · obtain ⟨after, hbreak⟩ := breakOn_cons_of_starts hstart
      simp [hbreak, hstart]
    · rw [breakOn_cons_of_not_starts hstart, Option.map_eq_none_iff, ih]
      simp [hstart]

theorem exists_breakOn {s : List Char} (hp : pattern ≠ []) (h : pattern <:+: s) :
    ∃ before after, breakOn pattern s = some (before, after) := by
  cases hbreak : breakOn pattern s with
  | none => exact absurd h ((breakOn_eq_none_iff hp).mp hbreak)
  | some parts => exact ⟨parts.1, parts.2, rfl⟩

/-- What stands before the first occurrence stands before every occurrence. -/
theorem prefix_of_breakOn {s before after before' after' : List Char}
    (h : breakOn pattern s = some (before, after)) (hs : s = before' ++ pattern ++ after') :
    before <+: before' := by
  induction s generalizing before before' with
  | nil =>
    obtain ⟨rfl, -⟩ : before = [] ∧ _ := by simpa [and_assoc] using (eq_of_breakOn h).symm
    exact List.nil_prefix
  | cons c s ih =>
    by_cases hstart : pattern <+: c :: s
    · obtain ⟨rest, hbreak⟩ := breakOn_cons_of_starts hstart
      obtain ⟨rfl, -⟩ := Prod.mk.inj (Option.some.inj (hbreak.symm.trans h))
      exact List.nil_prefix
    · rw [breakOn_cons_of_not_starts hstart] at h
      obtain ⟨parts, hparts, heq⟩ := Option.map_eq_some_iff.mp h
      obtain ⟨rfl, rfl⟩ := Prod.mk.inj heq
      cases before' with
      | nil => exact absurd ⟨after', hs.symm⟩ hstart
      | cons d before' =>
        obtain ⟨hc, hrest⟩ := List.cons.inj hs
        exact List.cons_prefix_cons.mpr ⟨hc, ih hparts hrest⟩

/-- A pattern that does not occur after the start of its first occurrence occurs once. -/
theorem eq_of_breakOn_of_once {s before after before' after' : List Char}
    (h : breakOn pattern s = some (before, after))
    (hlater : ¬ pattern <:+: s.drop (before.length + 1)) (hs : s = before' ++ pattern ++ after') :
    before' = before := by
  obtain ⟨between, rfl⟩ := prefix_of_breakOn h hs
  cases between with
  | nil => exact List.append_nil before
  | cons c between =>
    refine absurd ⟨between, after', ?_⟩ hlater
    simp [hs, List.drop_append]

/-- Text that follows does not change the first occurrence. -/
theorem breakOn_append {s before after : List Char} (hp : pattern ≠ [])
    (h : breakOn pattern s = some (before, after)) (rest : List Char) :
    breakOn pattern (s ++ rest) = some (before, after ++ rest) := by
  induction s generalizing before with
  | nil => simp [breakOn, hp] at h
  | cons c s ih =>
    by_cases hstart : pattern <+: c :: s
    · obtain ⟨after', hs⟩ := hstart
      rw [breakOn, after?_eq_some_iff.mpr hs.symm] at h
      obtain ⟨rfl, rfl⟩ := Prod.mk.inj (Option.some.inj h)
      rw [List.cons_append, breakOn, ← List.cons_append, ← hs, List.append_assoc, after?_append]
    · rw [breakOn_cons_of_not_starts hstart] at h
      obtain ⟨parts, hparts, heq⟩ := Option.map_eq_some_iff.mp h
      obtain ⟨rfl, rfl⟩ := Prod.mk.inj heq
      -- the occurrence in the rest leaves no room for one that runs over the end
      have hlength : pattern.length ≤ (c :: s).length := by
        have hs := congrArg List.length (eq_of_breakOn hparts)
        simp only [List.length_append] at hs
        simp only [List.length_cons]
        omega
      have hstart' : ¬ pattern <+: c :: (s ++ rest) := fun hprefix ↦
        hstart (List.prefix_of_prefix_length_le hprefix (List.prefix_append (c :: s) rest) hlength)
      rw [List.cons_append, breakOn_cons_of_not_starts hstart', ih hparts]
      rfl

/-! ## Characters that a pattern does not hold -/

section

variable {d : Char} (hd : d ∉ pattern)

include hd

theorem prefix_of_prefix_append_cons {s t : List Char} (h : pattern <+: s ++ d :: t) :
    pattern <+: s := by
  have hbreak : s ++ [d] <+: s ++ d :: t := ⟨t, by simp⟩
  rcases List.prefix_or_prefix_of_prefix h hbreak with h | ⟨rest, rfl⟩
  · rcases List.prefix_concat_iff.mp h with rfl | h
    · exact absurd (List.mem_append_right s List.mem_cons_self) hd
    · exact h
  · exact absurd (List.mem_append_left rest (List.mem_append_right s List.mem_cons_self)) hd

/-- Where a pattern does not occur before a character that it does not hold, it is looked for after
that character. -/
theorem breakOn_append_cons {s : List Char} (hp : pattern ≠ []) (hs : ¬ pattern <:+: s)
    (t : List Char) : breakOn pattern (s ++ d :: t) =
      (breakOn pattern t).map fun x ↦ (s ++ d :: x.1, x.2) := by
  induction s with
  | nil =>
    have hstart : ¬ pattern <+: d :: t := fun h ↦
      hp (List.prefix_nil.mp (prefix_of_prefix_append_cons hd (s := []) h))
    exact breakOn_cons_of_not_starts hstart
  | cons c s ih =>
    obtain ⟨hstart, hrest⟩ := not_or.mp (mt List.infix_cons_iff.mpr hs)
    have hstart' : ¬ pattern <+: c :: (s ++ d :: t) := fun h ↦
      hstart (prefix_of_prefix_append_cons hd (s := c :: s) h)
    rw [List.cons_append, breakOn_cons_of_not_starts hstart', ih hrest, Option.map_map]
    rfl

theorem infix_append_cons_iff {s t : List Char} (hp : pattern ≠ []) :
    pattern <:+: s ++ d :: t ↔ pattern <:+: s ∨ pattern <:+: t := by
  by_cases hs : pattern <:+: s
  · exact iff_of_true (hs.trans (List.prefix_append s _).isInfix) (Or.inl hs)
  · have hrest : ¬ pattern <:+: s ++ d :: t ↔ ¬ pattern <:+: t := by
      rw [← breakOn_eq_none_iff hp, breakOn_append_cons hd hp hs, Option.map_eq_none_iff,
        breakOn_eq_none_iff hp]
    simpa [hs] using not_congr hrest

end

theorem breakOn_newline {s : List Char} (h : '\n' ∉ s) (t : List Char) :
    breakOn ['\n'] (s ++ '\n' :: t) = some (s, t) := by
  induction s with
  | nil => simp [breakOn, after?]
  | cons c s ih =>
    obtain ⟨hc, hs⟩ := List.ne_and_not_mem_of_not_mem_cons h
    rw [List.cons_append, breakOn_cons_of_not_starts (by simp [hc]), ih hs]
    rfl

theorem breakOn_newline_eq_none {s : List Char} (h : '\n' ∉ s) : breakOn ['\n'] s = none := by
  rw [breakOn_eq_none_iff (List.cons_ne_nil _ _)]
  rintro ⟨before, after, rfl⟩
  exact h (by simp)

/-! ## Lines -/

/-- The text with the given lines. -/
def joinLines (lines : List (List Char)) : List Char := ['\n'].intercalate lines

/-- Lines that others follow, as text. -/
def endLines (lines : List (List Char)) : List Char := lines.flatMap (· ++ ['\n'])

/-- Lines that others go before, as text. -/
def startLines (lines : List (List Char)) : List Char := lines.flatMap ('\n' :: ·)

theorem joinLines_cons (line : List Char) (below : List (List Char)) :
    joinLines (line :: below) = line ++ startLines below := by
  induction below generalizing line with
  | nil => simp [joinLines, startLines]
  | cons l below ih =>
    rw [joinLines, List.intercalate_cons_of_ne_nil (List.cons_ne_nil l below), ← joinLines, ih]
    simp [startLines]

theorem startLines_cons (line : List Char) (below : List (List Char)) :
    startLines (line :: below) = '\n' :: joinLines (line :: below) := by
  rw [joinLines_cons]
  rfl

theorem startLines_append_cons (above : List (List Char)) (line : List Char)
    (below : List (List Char)) :
    startLines (above ++ line :: below) = '\n' :: joinLines (above ++ line :: below) := by
  cases above with
  | nil => exact startLines_cons line below
  | cons l above => exact startLines_cons l (above ++ line :: below)

theorem joinLines_append_cons (above : List (List Char)) (line : List Char)
    (below : List (List Char)) :
    joinLines (above ++ line :: below) = endLines above ++ (line ++ startLines below) := by
  induction above with
  | nil => exact joinLines_cons line below
  | cons l above ih =>
    have hne : above ++ line :: below ≠ [] := List.append_ne_nil_of_right_ne_nil above (by simp)
    rw [List.cons_append, joinLines, List.intercalate_cons_of_ne_nil hne, ← joinLines, ih]
    simp [endLines]

/-- Every text has lines. -/
theorem exists_joinLines (s : List Char) :
    ∃ lines, lines ≠ [] ∧ (∀ line ∈ lines, '\n' ∉ line) ∧ joinLines lines = s := by
  induction s with
  | nil => exact ⟨[[]], by simp, by simp, rfl⟩
  | cons c s ih =>
    obtain ⟨lines, hne, hlines, rfl⟩ := ih
    obtain ⟨line, below, rfl⟩ := List.exists_cons_of_ne_nil hne
    by_cases hc : c = '\n'
    · refine ⟨[] :: line :: below, by simp, by simpa using hlines, ?_⟩
      rw [joinLines_cons, startLines_cons, List.nil_append, hc]
    · refine ⟨(c :: line) :: below, by simp, ?_, by rw [joinLines_cons, joinLines_cons]; rfl⟩
      intro l hl
      rcases List.mem_cons.mp hl with rfl | hl
      · simpa [Ne.symm hc] using hlines line List.mem_cons_self
      · exact hlines l (List.mem_cons_of_mem line hl)

section

variable (hp : pattern ≠ []) (hbreak : '\n' ∉ pattern)

include hp hbreak

/-- A pattern without line breaks lies in one of the lines. -/
theorem infix_joinLines_iff {lines : List (List Char)} :
    pattern <:+: joinLines lines ↔ ∃ line ∈ lines, pattern <:+: line := by
  induction lines with
  | nil => simp [joinLines, hp]
  | cons line below ih =>
    cases below with
    | nil => simp [joinLines]
    | cons l below =>
      rw [joinLines_cons, startLines_cons, infix_append_cons_iff hbreak hp, ih]
      simp

/-- The first occurrence in a text is the first one in the first line that has one. -/
theorem breakOn_joinLines {above : List (List Char)} {line before after : List Char}
    (habove : ∀ l ∈ above, ¬ pattern <:+: l) (hline : breakOn pattern line = some (before, after))
    (below : List (List Char)) :
    breakOn pattern (joinLines (above ++ line :: below)) =
      some (endLines above ++ before, after ++ startLines below) := by
  rw [joinLines_append_cons]
  induction above with
  | nil => exact breakOn_append hp hline _
  | cons l above ih =>
    have htext : endLines (l :: above) ++ (line ++ startLines below) =
        l ++ '\n' :: (endLines above ++ (line ++ startLines below)) := by
      simp [endLines]
    rw [htext, breakOn_append_cons hbreak hp (habove l List.mem_cons_self),
      ih fun m hm ↦ habove m (List.mem_cons_of_mem l hm)]
    simp [endLines]

end

end TemporalRequirements.Text

import TemporalRequirements.Monitor.Splice
import TemporalRequirements.Proofs.Cuts
import TemporalRequirements.Proofs.Text.Lines

/-!
# Generated blocks by lines

Replacing a block goes by lines: the first line with the begin marker stays, and so does the first
line after it with an end marker.  The lines between them are exchanged for the generated ones,
which hold no marker, so that the program is cut at the same lines afterwards.
-/

namespace TemporalRequirements.Splice

def Marked (marker : String) (line : List Char) : Prop := marker.toList <:+: line

theorem marked_iff {marker : String} {line : List Char} :
    Marked marker line ↔ marker.toList = [] ∨ Text.breakOn marker.toList line ≠ none := by
  by_cases hmarker : marker.toList = []
  · simp [Marked, hmarker]
  · rw [Ne, Text.breakOn_eq_none_iff hmarker, Classical.not_not, Marked]
    simp [hmarker]

instance (marker : String) (line : List Char) : Decidable (Marked marker line) :=
  decidable_of_iff' _ marked_iff

inductive BlockKind where
  | includes
  | asserts
  deriving DecidableEq, Repr

namespace BlockKind

def marker : BlockKind → String
  | includes => includesMarker
  | asserts => assertsMarker

def lines (b : Bundle) : BlockKind → List String
  | includes => includeLines b
  | asserts => assertLines b

def other : BlockKind → BlockKind
  | includes => asserts
  | asserts => includes

theorem marker_ne_nil (k : BlockKind) : k.marker.toList ≠ [] := by cases k <;> decide

theorem newline_notMem_marker (k : BlockKind) : '\n' ∉ k.marker.toList := by cases k <;> decide

end BlockKind

theorem endMarker_ne_nil : endMarker.toList ≠ [] := by decide

theorem newline_notMem_endMarker : '\n' ∉ endMarker.toList := by decide

structure IsPlainLine (line : List Char) : Prop where
  oneLine : '\n' ∉ line
  notBegin : ∀ k : BlockKind, ¬ Marked k.marker line
  notEnd : ¬ Marked endMarker line

/-- A bundle whose lines have no line break and no marker. -/
def IsPlainBundle (b : Bundle) : Prop :=
  ∀ line ∈ b.declarations ++ b.counters ++ b.asserts, IsPlainLine line.toList

/-! ## Generated lines -/

/-- What stands before a marker on its line, if that is blank. -/
def indentOf (marker : String) (line : List Char) : List Char :=
  match Text.breakOn marker.toList line with
  | some (before, _) => if before.all Text.isBlank then before else []
  | none => []

/-- The lines that are generated after the line of a begin marker, indented as the marker is. -/
def generated (k : BlockKind) (b : Bundle) (begins : List Char) : List (List Char) :=
  (k.lines b).map fun line ↦ indentOf k.marker begins ++ line.toList

/-- The indent of a line consists of blanks of the line. -/
theorem isBlank_of_mem_indentOf {marker : String} {line : List Char} {c : Char}
    (h : c ∈ indentOf marker line) : Text.isBlank c = true ∧ c ∈ line := by
  unfold indentOf at h
  split at h
  · rename_i before after hbreak
    split at h
    · rename_i hblank
      refine ⟨List.all_eq_true.mp hblank c h, ?_⟩
      rw [Text.eq_of_breakOn hbreak]
      simp [h]
    · cases h
  · cases h

/-- Blanks before a line add no occurrence of a pattern that starts with ink. -/
theorem infix_of_blanks_append {c : Char} {pattern blanks line : List Char}
    (hc : Text.isBlank c = false) (hblanks : ∀ d ∈ blanks, Text.isBlank d = true)
    (h : c :: pattern <:+: blanks ++ line) : c :: pattern <:+: line := by
  induction blanks with
  | nil => exact h
  | cons d blanks ih =>
    rcases List.infix_cons_iff.mp h with hstart | hrest
    · obtain ⟨rfl, -⟩ := List.cons_prefix_cons.mp hstart
      rw [hblanks c List.mem_cons_self] at hc
      cases hc
    · exact ih (fun e he ↦ hblanks e (List.mem_cons_of_mem d he)) hrest

theorem isPlainLine_of_mem_includes {line : String} (h : line ∈ includes) :
    IsPlainLine line.toList := by
  simp only [includes, List.mem_cons, List.not_mem_nil, or_false] at h
  rcases h with rfl | rfl <;>
    exact ⟨by decide, fun k ↦ by cases k <;> decide, by decide⟩

/-- Generated lines hold neither line breaks nor markers. -/
theorem isPlainLine_generated {k : BlockKind} {b : Bundle} (hb : IsPlainBundle b)
    {begins : List Char} (hbegins : '\n' ∉ begins) :
    ∀ line ∈ generated k b begins, IsPlainLine line := by
  intro line hline
  obtain ⟨text, htext, rfl⟩ := List.mem_map.mp hline
  have hplain : IsPlainLine text.toList := by
    cases k with
    | includes =>
      rcases List.mem_append.mp htext with htext | htext
      · exact isPlainLine_of_mem_includes htext
      · exact hb text (by simp [htext])
    | asserts =>
      have hmem : text ∈ b.counters ++ b.asserts := htext
      exact hb text (by simpa [or_assoc] using Or.inr (List.mem_append.mp hmem))
  have hblank : ∀ c ∈ indentOf k.marker begins, Text.isBlank c = true := fun c hc ↦
    (isBlank_of_mem_indentOf hc).1
  refine ⟨?_, fun k' hmarked ↦ hplain.notBegin k' ?_, fun hmarked ↦ hplain.notEnd ?_⟩
  · intro hbreak
    rcases List.mem_append.mp hbreak with hbreak | hbreak
    · exact hbegins (isBlank_of_mem_indentOf hbreak).2
    · exact hplain.oneLine hbreak
  · cases k' <;> exact infix_of_blanks_append rfl hblank hmarked
  · exact infix_of_blanks_append rfl hblank hmarked

/-! ## Cutting a program -/

/-- Whether the first of some lines has an end marker. -/
def Closes (below : List (List Char)) : Prop :=
  ∃ line rest, below = line :: rest ∧ Marked endMarker line ∧ '\n' ∉ line

theorem Closes.append_cons {middle rest : List (List Char)} {line : List Char}
    (h : Closes (middle ++ line :: rest)) (rest' : List (List Char)) :
    Closes (middle ++ line :: rest') := by
  obtain ⟨ends, below, hbelow, hends⟩ := h
  cases middle with
  | nil =>
    obtain ⟨rfl, -⟩ := List.cons.inj hbelow
    exact ⟨line, rest', rfl, hends⟩
  | cons l middle =>
    obtain ⟨rfl, -⟩ := List.cons.inj hbelow
    exact ⟨l, middle ++ line :: rest', rfl, hends⟩

/-- Lines are cut in one way at the first one with an end marker. -/
theorem append_inj_of_closes {old old' below below' : List (List Char)}
    (h : old ++ below = old' ++ below') (hold : ∀ line ∈ old, ¬ Marked endMarker line)
    (hold' : ∀ line ∈ old', ¬ Marked endMarker line) (hbelow : Closes below)
    (hbelow' : Closes below') : old = old' ∧ below = below' := by
  obtain ⟨ends, rest, rfl, hends, -⟩ := hbelow
  obtain ⟨ends', rest', rfl, hends', -⟩ := hbelow'
  rcases append_cons_eq_append_cons h with
    ⟨rfl, rfl, rfl⟩ | ⟨between, rfl, -⟩ | ⟨between, rfl, -⟩
  · exact ⟨rfl, rfl⟩
  · exact absurd hends (hold' ends (by simp))
  · exact absurd hends' (hold ends' (by simp))

/-- Whether a program is cut at its first line with a marker and at the first line after it with an
end marker, which is the first one of the lines below. -/
structure IsCut (marker : String) (above : List (List Char)) (begins : List Char)
    (old below : List (List Char)) : Prop where
  free : ∀ line ∈ above, ¬ Marked marker line
  marked : Marked marker begins
  oneLine : '\n' ∉ begins
  opened : ∀ line ∈ old, ¬ Marked endMarker line
  closed : Closes below

theorem takeWhile_reverse_of_notMem {s : List Char} (h : '\n' ∉ s) (rest : List Char) :
    (s.reverse ++ rest).takeWhile (· ≠ '\n') = s.reverse ++ rest.takeWhile (· ≠ '\n') := by
  apply List.takeWhile_append_of_pos
  intro c hc
  exact decide_eq_true fun heq ↦ h (heq ▸ List.mem_reverse.mp hc)

/-- What follows ended lines is the last line. -/
theorem lastLine_endLines_append {s : List Char} (h : '\n' ∉ s) (lines : List (List Char)) :
    lastLine (Text.endLines lines ++ s) = s := by
  rcases lines.eq_nil_or_concat with rfl | ⟨lines, line, rfl⟩
  · have htake := takeWhile_reverse_of_notMem h []
    rw [List.append_nil, List.takeWhile_nil, List.append_nil] at htake
    rw [Text.endLines, List.flatMap_nil, List.nil_append, lastLine, htake, List.reverse_reverse]
  · have htext : Text.endLines (lines.concat line) ++ s =
        (Text.endLines lines ++ line) ++ '\n' :: s := by
      simp [Text.endLines]
    rw [htext, lastLine, List.reverse_append, List.reverse_cons, List.append_assoc,
      takeWhile_reverse_of_notMem h, List.singleton_append,
      List.takeWhile_cons_of_neg (by simp), List.append_nil, List.reverse_reverse]

theorem blockText_eq (indent : List Char) (body : List String) :
    blockText indent body = Text.endLines (body.map fun line ↦ indent ++ line.toList) := by
  rw [blockText, Text.endLines, List.flatMap_map]

section

variable {k : BlockKind} {above : List (List Char)} {begins : List Char}
  {old below : List (List Char)}

/-- Replacing a block exchanges the lines between its begin line and its end line. -/
theorem replaceBlock_of_isCut (h : IsCut k.marker above begins old below) (b : Bundle) :
    replaceBlock k.marker (k.lines b) (Text.joinLines (above ++ begins :: (old ++ below))) =
      .ok (Text.joinLines (above ++ begins :: (generated k b begins ++ below))) := by
  obtain ⟨ends, rest, rfl, hends, hline⟩ := h.closed
  obtain ⟨before, after, hbegin⟩ := Text.exists_breakOn k.marker_ne_nil h.marked
  obtain ⟨lead, tail, hend⟩ := Text.exists_breakOn endMarker_ne_nil hends
  have hbegins := Text.eq_of_breakOn hbegin
  have hlast := Text.eq_of_breakOn hend
  have hbefore : '\n' ∉ before := fun hmem ↦ h.oneLine (by simp [hbegins, hmem])
  have hafter : '\n' ∉ after := fun hmem ↦ h.oneLine (by simp [hbegins, hmem])
  have hlead : '\n' ∉ lead := fun hmem ↦ hline (by simp [hlast, hmem])
  have hindent : indentAfter (Text.endLines above ++ before) = indentOf k.marker begins := by
    rw [indentAfter, lastLine_endLines_append hbefore, indentOf, hbegin]
  have hresult : Text.joinLines (above ++ begins :: (generated k b begins ++ ends :: rest)) =
      Text.endLines above ++ (begins ++ '\n' :: (Text.endLines (generated k b begins) ++
        (ends ++ Text.startLines rest))) := by
    rw [Text.joinLines_append_cons, Text.startLines_append_cons, Text.joinLines_append_cons]
  rw [hresult]
  simp only [replaceBlock, Text.startLines_append_cons, Text.breakOn_newline hafter,
    Text.breakOn_joinLines k.marker_ne_nil k.newline_notMem_marker h.free hbegin,
    Text.breakOn_joinLines endMarker_ne_nil newline_notMem_endMarker h.opened hend,
    hindent, blockText_eq, lastLine_endLines_append hlead]
  rw [← generated]
  simp [hbegins, hlast]

/-- A block stays a block when its lines are exchanged for generated ones. -/
theorem IsCut.generated {marker : String} (h : IsCut marker above begins old below) {b : Bundle}
    (hb : IsPlainBundle b) (k : BlockKind) :
    IsCut marker above begins (generated k b begins) below :=
  { h with opened := fun line hline ↦ (isPlainLine_generated hb h.oneLine line hline).notEnd }

/-- What follows the end line of a block does not matter to it. -/
theorem IsCut.append_cons {marker : String} {middle rest : List (List Char)} {line : List Char}
    (h : IsCut marker above begins old (middle ++ line :: rest)) (rest' : List (List Char)) :
    IsCut marker above begins old (middle ++ line :: rest') :=
  { h with closed := h.closed.append_cons rest' }

/-- Filling a block with plain lines makes no line break inside a line. -/
theorem newline_notMem_of_isCut {marker : String} (h : IsCut marker above begins old below)
    {b : Bundle} (hb : IsPlainBundle b) (k : BlockKind)
    (hlines : ∀ line ∈ above ++ begins :: (old ++ below), '\n' ∉ line) :
    ∀ line ∈ above ++ begins :: (Splice.generated k b begins ++ below), '\n' ∉ line := by
  intro line hline
  simp only [List.mem_append, List.mem_cons] at hline
  rcases hline with hline | hline | hline | hline
  · exact hlines line (by simp [hline])
  · exact hlines line (by simp [hline])
  · exact (isPlainLine_generated hb h.oneLine line hline).oneLine
  · exact hlines line (by simp [hline])

/-- Where no line has the marker, or no line after it an end marker, there is no block. -/
theorem exists_isCut {lines : List (List Char)} (hlines : ∀ line ∈ lines, '\n' ∉ line)
    {body : List String} {t : List Char}
    (h : replaceBlock k.marker body (Text.joinLines lines) = .ok t) :
    ∃ above begins old below, lines = above ++ begins :: (old ++ below) ∧
      IsCut k.marker above begins old below := by
  by_cases hmarked : ∃ line ∈ lines, Marked k.marker line
  · obtain ⟨above, begins, rest, rfl, hbegins, habove⟩ := exists_first hmarked
    have hrest : ∀ line ∈ rest, '\n' ∉ line := fun line hline ↦
      hlines line (List.mem_append_right above (List.mem_cons_of_mem begins hline))
    by_cases hended : ∃ line ∈ rest, Marked endMarker line
    · obtain ⟨old, ends, below, rfl, hends, hold⟩ := exists_first hended
      refine ⟨above, begins, old, ends :: below, rfl, habove, hbegins, ?_, hold, ends, below, rfl,
        hends, ?_⟩
      · exact hlines begins (List.mem_append_right above List.mem_cons_self)
      · exact hrest ends (List.mem_append_right old List.mem_cons_self)
    · obtain ⟨before, after, hbegin⟩ := Text.exists_breakOn k.marker_ne_nil hbegins
      rw [replaceBlock,
        Text.breakOn_joinLines k.marker_ne_nil k.newline_notMem_marker habove hbegin] at h
      have hafter : '\n' ∉ after := by
        intro hmem
        apply hlines begins (List.mem_append_right above List.mem_cons_self)
        rw [Text.eq_of_breakOn hbegin]
        exact List.mem_append_right _ hmem
      cases rest with
      | nil =>
        simp [Text.startLines, Text.breakOn_newline_eq_none hafter] at h
      | cons line rest =>
        have hnone : Text.breakOn endMarker.toList (Text.joinLines (line :: rest)) = none := by
          rw [Text.breakOn_eq_none_iff endMarker_ne_nil,
            Text.infix_joinLines_iff endMarker_ne_nil newline_notMem_endMarker]
          exact hended
        simp [Text.startLines_cons, Text.breakOn_newline hafter, hnone] at h
  · have hnone : Text.breakOn k.marker.toList (Text.joinLines lines) = none := by
      rw [Text.breakOn_eq_none_iff k.marker_ne_nil,
        Text.infix_joinLines_iff k.marker_ne_nil k.newline_notMem_marker]
      exact hmarked
    simp [replaceBlock, hnone] at h

end

end TemporalRequirements.Splice

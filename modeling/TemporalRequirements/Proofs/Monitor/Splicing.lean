import TemporalRequirements.Proofs.Interface.Name
import TemporalRequirements.Proofs.Monitor.Blocks

/-!
# Splicing rewrites two blocks

Where a program has its two generated blocks apart, splicing exchanges the lines of both and keeps
every other line, so that of several bundles only the last one shows.  Splicing a bundle again
changes nothing, unless the begin line of the includes stands inside the block of the asserts: then
it is among the lines that are exchanged.
-/

namespace TemporalRequirements.Splice

/-- Splicing replaces one block after the other. -/
theorem splice_eq (b : Bundle) (program : String) :
    splice b program = ((replaceBlock BlockKind.includes.marker (BlockKind.includes.lines b)
      program.toList).bind (replaceBlock BlockKind.asserts.marker (BlockKind.asserts.lines b))).map
        String.ofList := by
  rw [splice]
  cases hincludes : replaceBlock includesMarker (includeLines b) program.toList with
  | error e => simp [BlockKind.marker, BlockKind.lines, hincludes, bind, Except.bind, Except.map]
  | ok s =>
    cases hasserts : replaceBlock assertsMarker (assertLines b) s with
    | error e =>
      simp [BlockKind.marker, BlockKind.lines, hincludes, hasserts, bind, Except.bind, Except.map]
    | ok t =>
      simp [BlockKind.marker, BlockKind.lines, hincludes, hasserts, bind, Except.bind, Except.map,
        pure, Except.pure]

/-! ## Programs with two blocks -/

/-- The lines of a program around its two generated blocks. -/
structure Layout where
  /-- The block that comes first. -/
  first : BlockKind
  above : List (List Char)
  begin₁ : List Char
  /-- The lines from the end line of the first block to the begin line of the second; where the two
  are one line, there are none. -/
  middle : List (List Char)
  begin₂ : List Char
  below : List (List Char)
  above_free : ∀ line ∈ above, ∀ k : BlockKind, ¬ Marked k.marker line
  begin₁_marked : Marked first.marker begin₁
  begin₁_free : ¬ Marked first.other.marker begin₁
  middle_free : ∀ line ∈ middle, ¬ Marked first.other.marker line
  begin₂_marked : Marked first.other.marker begin₂
  closed₁ : Closes (middle ++ [begin₂])
  closed₂ : Closes below
  oneLine : ∀ line ∈ begin₁ :: middle ++ begin₂ :: below, '\n' ∉ line

namespace Layout

variable (p : Layout)

def text (block₁ block₂ : List (List Char)) : String :=
  .ofList <| Text.joinLines <|
    p.above ++ p.begin₁ :: (block₁ ++ (p.middle ++ p.begin₂ :: (block₂ ++ p.below)))

def filled (b : Bundle) : String :=
  p.text (generated p.first b p.begin₁) (generated p.first.other b p.begin₂)

theorem oneLine_begin₁ : '\n' ∉ p.begin₁ := p.oneLine p.begin₁ List.mem_cons_self

theorem oneLine_begin₂ : '\n' ∉ p.begin₂ := p.oneLine p.begin₂ (by simp)

variable {old₁ old₂ : List (List Char)}

theorem isCut_first (hold : ∀ line ∈ old₁, IsPlainLine line) (old₂ : List (List Char)) :
    IsCut p.first.marker p.above p.begin₁ old₁ (p.middle ++ p.begin₂ :: (old₂ ++ p.below)) where
  free line hline := p.above_free line hline p.first
  marked := p.begin₁_marked
  oneLine := p.oneLine_begin₁
  opened line hline := (hold line hline).notEnd
  closed := p.closed₁.append_cons (old₂ ++ p.below)

/-- Filling the first block leaves the second one where it was. -/
theorem isCut_second (hold₁ : ∀ line ∈ old₁, IsPlainLine line)
    (hold₂ : ∀ line ∈ old₂, IsPlainLine line) :
    IsCut p.first.other.marker (p.above ++ p.begin₁ :: (old₁ ++ p.middle)) p.begin₂ old₂
      p.below where
  free line hline := by
    simp only [List.mem_append, List.mem_cons] at hline
    rcases hline with hline | rfl | hline | hline
    · exact p.above_free line hline p.first.other
    · exact p.begin₁_free
    · exact (hold₁ line hline).notBegin p.first.other
    · exact p.middle_free line hline
  marked := p.begin₂_marked
  oneLine := p.oneLine_begin₂
  opened line hline := (hold₂ line hline).notEnd
  closed := p.closed₂

/-- Splicing exchanges the lines of the two blocks. -/
theorem splice_text (hold₁ : ∀ line ∈ old₁, IsPlainLine line)
    (hold₂ : ∀ line ∈ old₂, IsPlainLine line) {b : Bundle} (hb : IsPlainBundle b) :
    splice b (p.text old₁ old₂) = .ok (p.filled b) := by
  have hnew₁ := isPlainLine_generated (k := p.first) hb p.oneLine_begin₁
  have hnew₂ := isPlainLine_generated (k := p.first.other) hb p.oneLine_begin₂
  have hshift (block₁ block₂ : List (List Char)) :
      p.above ++ p.begin₁ :: (block₁ ++ (p.middle ++ p.begin₂ :: (block₂ ++ p.below))) =
        (p.above ++ p.begin₁ :: (block₁ ++ p.middle)) ++ p.begin₂ :: (block₂ ++ p.below) := by
    simp
  rw [splice_eq, filled, text, text, String.toList_ofList]
  cases hfirst : p.first with
  | includes =>
    have hfirst' := replaceBlock_of_isCut (p.isCut_first hold₁ old₂) b
    have hsecond := replaceBlock_of_isCut (p.isCut_second hnew₁ hold₂) b
    rw [← hshift, ← hshift] at hsecond
    rw [hfirst] at hfirst' hsecond
    rw [hfirst', Except.bind]
    rw [BlockKind.other] at hsecond
    rw [hsecond]
    rfl
  | asserts =>
    have hfirst' := replaceBlock_of_isCut (p.isCut_first hold₁
      (generated p.first.other b p.begin₂)) b
    have hsecond := replaceBlock_of_isCut (p.isCut_second hold₁ hold₂) b
    rw [← hshift, ← hshift] at hsecond
    rw [hfirst] at hfirst' hsecond
    rw [BlockKind.other] at hsecond hfirst'
    rw [hsecond, Except.bind, hfirst']
    rfl

end Layout

/-! ## Finding the blocks -/

/-- Whether a program holds the begin marker of a block exactly once, with an end marker on a later
line and before any other begin marker. -/
def HasBlock (k : BlockKind) (s : List Char) : Prop :=
  ∃ before tail inner rest,
    s = before ++ k.marker.toList ++ (tail ++ '\n' :: (inner ++ endMarker.toList ++ rest)) ∧
    '\n' ∉ tail ∧
    (∀ k' : BlockKind, ¬ k'.marker.toList <:+: tail ++ '\n' :: inner) ∧
    ∀ before' after', s = before' ++ k.marker.toList ++ after' → before' = before

/-- A marker, a rest of its line and a later end marker make a block. -/
theorem hasBlock_of_breakOn {k : BlockKind} {s before after tail block inner rest : List Char}
    (hbegin : Text.breakOn k.marker.toList s = some (before, after))
    (hline : Text.breakOn ['\n'] after = some (tail, block))
    (hend : Text.breakOn endMarker.toList block = some (inner, rest)) (htail : '\n' ∉ tail)
    (halone : ∀ k' : BlockKind, Text.breakOn k'.marker.toList (tail ++ '\n' :: inner) = none)
    (honce : Text.breakOn k.marker.toList (s.drop (before.length + 1)) = none) :
    HasBlock k s := by
  refine ⟨before, tail, inner, rest, ?_, htail, fun k' ↦ ?_, fun before' after' hs ↦ ?_⟩
  · rw [Text.eq_of_breakOn hbegin, Text.eq_of_breakOn hline, Text.eq_of_breakOn hend]
    simp
  · exact (Text.breakOn_eq_none_iff k'.marker_ne_nil).mp (halone k')
  · exact Text.eq_of_breakOn_of_once hbegin
      ((Text.breakOn_eq_none_iff k.marker_ne_nil).mp honce) hs

/-- A block of a program by lines: no begin marker follows before its end line. -/
structure IsBlock (k : BlockKind) (above : List (List Char)) (begins : List Char)
    (old below : List (List Char)) : Prop extends IsCut k.marker above begins old below where
  plain : ∀ line ∈ old, IsPlainLine line
  alone : ∀ before after, Text.breakOn k.marker.toList begins = some (before, after) →
    ∀ k' : BlockKind, ¬ k'.marker.toList <:+: after

/-- A block in a text is a block of its lines. -/
theorem HasBlock.exists_isBlock {k : BlockKind} {lines : List (List Char)}
    (hlines : ∀ line ∈ lines, '\n' ∉ line) (h : HasBlock k (Text.joinLines lines)) :
    ∃ above begins old below, lines = above ++ begins :: (old ++ below) ∧
      IsBlock k above begins old below := by
  obtain ⟨before, tail, inner, rest, hs, htail, halone, honce⟩ := h
  have hmarked : ∃ line ∈ lines, Marked k.marker line :=
    (Text.infix_joinLines_iff k.marker_ne_nil k.newline_notMem_marker).mp ⟨before, _, hs.symm⟩
  obtain ⟨above, begins, later, rfl, hbegins, habove⟩ := exists_first hmarked
  obtain ⟨lead, after, hbegin⟩ := Text.exists_breakOn k.marker_ne_nil hbegins
  have hbreak := Text.breakOn_joinLines k.marker_ne_nil k.newline_notMem_marker habove hbegin later
  have hcut := Text.eq_of_breakOn hbreak
  -- the marker stands at one place only, so the rest of its line and what is below it are known
  have hrest : after ++ Text.startLines later =
      tail ++ '\n' :: (inner ++ endMarker.toList ++ rest) := by
    rw [honce _ _ hcut, hs] at hcut
    exact (List.append_cancel_left hcut).symm
  have honeLine : '\n' ∉ begins := hlines begins (by simp)
  have hafter : '\n' ∉ after := fun hmem ↦ honeLine (by simp [Text.eq_of_breakOn hbegin, hmem])
  obtain ⟨line, later, rfl⟩ : ∃ line lines, later = line :: lines := by
    apply List.exists_cons_of_ne_nil
    rintro rfl
    rw [Text.startLines, List.flatMap_nil, List.append_nil] at hrest
    exact hafter (by simp [hrest])
  rw [Text.startLines_cons] at hrest
  obtain ⟨rfl, hblock⟩ := append_cons_injective hafter htail hrest
  have hended : ∃ l ∈ line :: later, Marked endMarker l :=
    (Text.infix_joinLines_iff endMarker_ne_nil newline_notMem_endMarker).mp
      ⟨inner, rest, hblock.symm⟩
  obtain ⟨old, ends, below, hlater, hends, hold⟩ := exists_first hended
  rw [hlater] at hblock hlines ⊢
  refine ⟨above, begins, old, ends :: below, rfl, ⟨habove, hbegins, honeLine, hold, ends, below,
    rfl, hends, hlines ends (by simp)⟩, ?_, ?_⟩
  · intro l hl
    refine ⟨hlines l (by simp [hl]), fun k' hmarker ↦ halone k' ?_, hold l hl⟩
    obtain ⟨lead', after', hend⟩ := Text.exists_breakOn endMarker_ne_nil hends
    have hprefix := Text.prefix_of_breakOn
      (Text.breakOn_joinLines endMarker_ne_nil newline_notMem_endMarker hold hend below) hblock
    have hline : l <:+: Text.endLines old := by
      obtain ⟨front, back, rfl⟩ := List.append_of_mem hl
      exact ⟨Text.endLines front, '\n' :: Text.endLines back, by simp [Text.endLines]⟩
    have hinner : l <:+: inner :=
      (hline.trans (List.prefix_append _ lead').isInfix).trans hprefix.isInfix
    exact hmarker.trans (hinner.trans ⟨after ++ ['\n'], [], by simp⟩)
  · intro lead'' after'' hbegin' k'
    obtain ⟨-, rfl⟩ := Prod.mk.inj (Option.some.inj (hbegin.symm.trans hbegin'))
    exact fun hmarker ↦ halone k' (hmarker.trans (List.prefix_append _ _).isInfix)

/-- Begin markers do not overlap: the later one of two stands in what follows the earlier one. -/
theorem other_infix_after {k : BlockKind} {before after before' after' : List Char}
    (h : before ++ k.marker.toList ++ after = before' ++ k.other.marker.toList ++ after')
    (hle : before <+: before') : k.other.marker.toList <:+: after := by
  obtain ⟨d, rfl⟩ := hle
  simp only [List.append_assoc, List.append_cancel_left_eq] at h
  rcases List.append_eq_append_iff.mp h with ⟨e, -, hafter⟩ | ⟨e, hmarker, hother⟩
  · exact ⟨e, after', by rw [hafter, List.append_assoc]⟩
  · have hapart : ∀ n < k.marker.toList.length, ¬ k.marker.toList.drop n <+: k.other.marker.toList ∧
        ¬ k.other.marker.toList <+: k.marker.toList.drop n := by
      cases k <;> decide
    cases e with
    | nil => exact ⟨[], after', by simpa using hother⟩
    | cons c e =>
      have hlength : d.length < k.marker.toList.length := by simp [hmarker]
      have hdrop : k.marker.toList.drop d.length = c :: e := by rw [hmarker, List.drop_left]
      obtain ⟨hnot, hnot'⟩ := hapart d.length hlength
      rw [hdrop] at hnot hnot'
      rcases List.prefix_or_prefix_of_prefix (List.prefix_append (c :: e) after)
        ⟨after', hother⟩ with h | h
      · exact absurd h hnot
      · exact absurd h hnot'

theorem BlockKind.eq_or_eq_other (k k' : BlockKind) : k' = k ∨ k' = k.other := by
  cases k <;> cases k' <;> decide

theorem BlockKind.other_other (k : BlockKind) : k.other.other = k := by cases k <;> rfl

section

variable {k : BlockKind} {above above' middle old old' below below' : List (List Char)}
  {begins begins' : List Char}

/-- The two blocks do not begin on one line. -/
theorem IsBlock.begins_ne (h : IsBlock k above begins old below)
    (h' : IsBlock k.other above' begins' old' below') : begins ≠ begins' := by
  rintro rfl
  obtain ⟨before, after, hbreak⟩ := Text.exists_breakOn k.marker_ne_nil h.marked
  obtain ⟨before', after', hbreak'⟩ := Text.exists_breakOn k.other.marker_ne_nil h'.marked
  have hbegins := Text.eq_of_breakOn hbreak
  have hbegins' := Text.eq_of_breakOn hbreak'
  have hbefore : before <+: begins := ⟨k.marker.toList ++ after, by simp [hbegins]⟩
  have hbefore' : before' <+: begins := ⟨k.other.marker.toList ++ after', by simp [hbegins']⟩
  have hboth := hbegins.symm.trans hbegins'
  rcases List.prefix_or_prefix_of_prefix hbefore hbefore' with hle | hle
  · exact h.alone _ _ hbreak _ (other_infix_after hboth hle)
  · have hback : before' ++ k.other.marker.toList ++ after' =
        before ++ k.other.other.marker.toList ++ after := by
      rw [k.other_other]
      exact hboth.symm
    exact h'.alone _ _ hbreak' _ (other_infix_after hback hle)

/-- Two blocks that begin one after the other lay out a program. -/
theorem IsBlock.exists_layout (h : IsBlock k above begins old below)
    (h' : IsBlock k.other (above ++ begins :: middle) begins' old' below')
    (hmiddle : old ++ below = middle ++ begins' :: (old' ++ below'))
    (hlines : ∀ line ∈ above ++ begins :: (old ++ below), '\n' ∉ line) :
    ∃ p : Layout,
      .ofList (Text.joinLines (above ++ begins :: (old ++ below))) = p.text old old' := by
  -- the second block does not begin within the first one
  obtain ⟨between, rfl, rfl⟩ : ∃ between, middle = old ++ between ∧
      below = between ++ begins' :: (old' ++ below') := by
    rcases append_eq_append_cons hmiddle with hbelow | ⟨rest, rfl, -⟩
    · exact hbelow
    · exact absurd h'.marked ((h.plain begins' (by simp)).notBegin k.other)
  let p : Layout := {
    first := k, above, begin₁ := begins, middle := between, begin₂ := begins', below := below'
    above_free := by
      intro line hline k'
      rcases k.eq_or_eq_other k' with rfl | rfl
      · exact h.free line hline
      · exact h'.free line (List.mem_append_left _ hline)
    begin₁_marked := h.marked
    begin₁_free := h'.free begins (by simp)
    middle_free := fun line hline ↦ h'.free line (by simp [hline])
    begin₂_marked := h'.marked
    closed₁ := h.closed.append_cons []
    closed₂ := h'.closed
    oneLine := by
      intro line hline
      apply hlines
      simp only [List.mem_append, List.mem_cons] at hline ⊢
      tauto }
  exact ⟨p, rfl⟩

end

/-- A program that holds the markers of both blocks once is laid out by them. -/
theorem exists_layout {source : String} (h : ∀ k : BlockKind, HasBlock k source.toList) :
    ∃ (p : Layout) (old₁ old₂ : List (List Char)), source = p.text old₁ old₂ ∧
      (∀ line ∈ old₁, IsPlainLine line) ∧ ∀ line ∈ old₂, IsPlainLine line := by
  obtain ⟨lines, -, hlines, hsource⟩ := Text.exists_joinLines source.toList
  rw [← hsource] at h
  obtain ⟨above, begins, old, below, rfl, hfirst⟩ := (h .includes).exists_isBlock hlines
  obtain ⟨above', begins', old', below', hshape, hsecond⟩ := (h .asserts).exists_isBlock hlines
  have htext : source = .ofList (Text.joinLines (above ++ begins :: (old ++ below))) := by
    rw [hsource, String.ofList_toList]
  rcases append_cons_eq_append_cons hshape with
    ⟨-, hsame, -⟩ | ⟨middle, rfl, hmiddle⟩ | ⟨middle, rfl, hmiddle⟩
  · exact absurd hsame (hfirst.begins_ne hsecond)
  · obtain ⟨p, hp⟩ := hfirst.exists_layout hsecond hmiddle hlines
    exact ⟨p, old, old', htext.trans hp, hfirst.plain, hsecond.plain⟩
  · rw [hshape] at hlines htext
    obtain ⟨p, hp⟩ := hsecond.exists_layout (k := .asserts) hfirst hmiddle hlines
    exact ⟨p, old', old, htext.trans hp, hsecond.plain, hfirst.plain⟩

/-- Splicing rewrites the two blocks of a program and nothing else, and of two bundles that are
spliced one after the other the last one shows. -/
theorem splice_rewrites_blocks {source : String} (h : ∀ k : BlockKind, HasBlock k source.toList) :
    ∃ (p : Layout) (old₁ old₂ : List (List Char)), source = p.text old₁ old₂ ∧
      (∀ line ∈ old₁ ++ old₂, IsPlainLine line) ∧
      ∀ b₁, IsPlainBundle b₁ → splice b₁ source = .ok (p.filled b₁) ∧
        ∀ b₂, IsPlainBundle b₂ → splice b₂ (p.filled b₁) = splice b₂ source := by
  obtain ⟨p, old₁, old₂, rfl, hold₁, hold₂⟩ := exists_layout h
  have hold : ∀ line ∈ old₁ ++ old₂, IsPlainLine line := fun line hline ↦
    (List.mem_append.mp hline).elim (hold₁ line) (hold₂ line)
  refine ⟨p, old₁, old₂, rfl, hold, fun b₁ hb₁ ↦ ⟨p.splice_text hold₁ hold₂ hb₁, ?_⟩⟩
  intro b₂ hb₂
  rw [p.splice_text hold₁ hold₂ hb₂]
  exact p.splice_text (isPlainLine_generated hb₁ p.oneLine_begin₁)
    (isPlainLine_generated hb₁ p.oneLine_begin₂) hb₂

/-- A program whose asserts come first and end on the line on which the includes begin. -/
def sharedLine : String :=
  "\t// Generated asserts:\r\nold();\r\n// End generated // Generated includes:\n// End generated"

/-- A bundle with one line of each kind. -/
def counting : Bundle := ⟨["int count;"], ["count++;"], ["assert(count);"]⟩

theorem splice_rewrites_blocks_sharedLine :
    (∀ k : BlockKind, HasBlock k sharedLine.toList) ∧ IsPlainBundle counting ∧
      ∃ p : Layout, splice counting sharedLine = .ok (p.filled counting) := by
  have hsource : ∀ k : BlockKind, HasBlock k sharedLine.toList := by
    intro k
    cases k <;>
      exact hasBlock_of_breakOn rfl rfl rfl (by decide) (fun k' ↦ by cases k' <;> decide)
        (by decide)
  have hbundle : IsPlainBundle counting := by
    intro line hline
    simp only [counting, List.mem_append, List.mem_cons, List.not_mem_nil, or_false] at hline
    rcases hline with (rfl | rfl) | rfl <;>
      exact ⟨by decide, fun k ↦ by cases k <;> decide, by decide⟩
  obtain ⟨p, -, -, -, -, hsplice⟩ := splice_rewrites_blocks hsource
  exact ⟨hsource, hbundle, p, (hsplice counting hbundle).1⟩

end TemporalRequirements.Splice

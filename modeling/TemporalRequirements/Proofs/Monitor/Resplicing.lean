import TemporalRequirements.Proofs.Monitor.Splicing

/-!
# Splicing a bundle again

A bundle that is spliced into its own result changes nothing, unless the includes begin inside the
block of the asserts.  Their begin line is then one of the lines that the asserts are exchanged for,
so that splicing again goes on to the next begin line of the includes, if there is one.
-/

namespace TemporalRequirements.Splice

variable {b : Bundle} {source t : String}

/-- Splicing fills the block of the includes and then that of the asserts. -/
theorem splice_eq_ok_iff : splice b source = .ok t ↔ ∃ u,
    replaceBlock BlockKind.includes.marker (BlockKind.includes.lines b) source.toList = .ok u ∧
      replaceBlock BlockKind.asserts.marker (BlockKind.asserts.lines b) u = .ok t.toList := by
  have htext (v : List Char) : String.ofList v = t ↔ v = t.toList :=
    ⟨fun h ↦ h ▸ String.toList_ofList.symm, fun h ↦ h ▸ String.ofList_toList⟩
  rw [splice_eq]
  cases hincludes : replaceBlock BlockKind.includes.marker (BlockKind.includes.lines b)
      source.toList with
  | error e => simp [Except.bind, Except.map]
  | ok u =>
    cases hasserts : replaceBlock BlockKind.asserts.marker (BlockKind.asserts.lines b) u with
    | error e => simp [Except.bind, Except.map, hasserts]
    | ok v => simp [Except.bind, Except.map, hasserts, htext]

theorem bind_eq_self {ε α : Type} {x : Except ε α} {f : α → Except ε α}
    (h : ∀ v, x = .ok v → f v = .ok v) : x.bind f = x := by
  cases x with
  | error e => rfl
  | ok v => exact h v rfl

/-- Whether the begin line of the includes stands inside the block of the asserts. -/
def Nested (source : String) : Prop :=
  ∃ above begins inside begins' old below,
    source.toList = Text.joinLines (above ++ begins :: ((inside ++ begins' :: old) ++ below)) ∧
    (∀ line ∈ above ++ begins :: ((inside ++ begins' :: old) ++ below), '\n' ∉ line) ∧
    IsCut assertsMarker above begins (inside ++ begins' :: old) below ∧
    IsCut includesMarker (above ++ begins :: inside) begins' old below

section

variable {above above' : List (List Char)} {begins begins' : List Char}
  {old old' below below' : List (List Char)}

/-- A program that already holds the lines of a bundle stays as it is. -/
theorem splice_of_isCut
    (hincludes : IsCut BlockKind.includes.marker above begins (generated .includes b begins) below)
    (hasserts : IsCut BlockKind.asserts.marker above' begins' (generated .asserts b begins') below')
    (ht : t.toList = Text.joinLines (above ++ begins :: (generated .includes b begins ++ below)))
    (ht' : t.toList =
      Text.joinLines (above' ++ begins' :: (generated .asserts b begins' ++ below'))) :
    splice b t = .ok t := by
  refine splice_eq_ok_iff.mpr ⟨t.toList, ?_, ?_⟩
  · rw [ht]
    exact replaceBlock_of_isCut hincludes b
  · rw [ht']
    exact replaceBlock_of_isCut hasserts b

end

/-- The end of a block stays where it is when the lines at the end of the block are exchanged for
other lines without an end marker. -/
theorem IsCut.of_inner {marker : String} {above inside old old' below : List (List Char)}
    {begins line : List Char} (h : IsCut marker above begins (inside ++ line :: old) below)
    (hopened : ∀ inner ∈ old', ¬ Marked endMarker inner) :
    IsCut marker above begins (inside ++ line :: old') below := by
  refine { h with opened := fun inner hinner ↦ ?_ }
  simp only [List.mem_append, List.mem_cons] at hinner
  rcases hinner with hinner | hinner | hinner
  · exact h.opened inner (by simp [hinner])
  · exact h.opened inner (by simp [hinner])
  · exact hopened inner hinner

/-- What a splice leaves is spliced into itself, unless the blocks are nested. -/
theorem splice_again_or_nested (hb : IsPlainBundle b) (h : splice b source = .ok t) :
    splice b t = .ok t ∨ Nested source := by
  obtain ⟨lines, -, hlines, hsource⟩ := Text.exists_joinLines source.toList
  obtain ⟨u, hincludes, hasserts⟩ := splice_eq_ok_iff.mp h
  rw [← hsource] at hincludes
  obtain ⟨above, begins, old, below, rfl, hcut⟩ := exists_isCut hlines hincludes
  obtain rfl := Except.ok.inj ((replaceBlock_of_isCut hcut b).symm.trans hincludes)
  have hnew := isPlainLine_generated (k := .includes) hb hcut.oneLine
  obtain ⟨above', begins', old', below', hshape, hcut'⟩ :=
    exists_isCut (newline_notMem_of_isCut hcut hb .includes hlines) hasserts
  have hnew' := isPlainLine_generated (k := .asserts) hb hcut'.oneLine
  have ht : t.toList =
      Text.joinLines (above' ++ begins' :: (generated .asserts b begins' ++ below')) := by
    rw [hshape] at hasserts
    exact Except.ok.inj (hasserts.symm.trans (replaceBlock_of_isCut hcut' b))
  rcases append_cons_eq_append_cons hshape with
    ⟨rfl, rfl, hsame⟩ | ⟨between, rfl, hbetween⟩ | ⟨between, rfl, hbetween⟩
  · -- the blocks are one: the second splice brings the includes back before the asserts
    obtain ⟨rfl, rfl⟩ := append_inj_of_closes hsame (hcut.generated hb .includes).opened
      hcut'.opened hcut.closed hcut'.closed
    refine Or.inl (splice_eq_ok_iff.mpr ⟨_, ?_, hasserts⟩)
    rw [ht]
    exact replaceBlock_of_isCut (hcut.generated hb .asserts) b
  · -- the includes come first
    rcases append_eq_append_cons hbetween with ⟨between, rfl, rfl⟩ | ⟨rest, hgenerated, -⟩
    · have hfirst :=
        (hcut.generated hb .includes).append_cons (generated .asserts b begins' ++ below')
      exact Or.inl (splice_of_isCut hfirst (hcut'.generated hb .asserts) (by simp [ht]) ht)
    · exact absurd hcut'.marked ((hnew begins' (by simp [hgenerated])).notBegin .asserts)
  · rcases append_eq_append_cons hbetween with ⟨between, rfl, rfl⟩ | ⟨rest, rfl, hrest⟩
    · -- the asserts come first and end before the includes begin
      have hsecond : IsCut BlockKind.includes.marker
          (above' ++ begins' :: (generated .asserts b begins' ++ between)) begins
          (generated .includes b begins) below := by
        refine { hcut.generated hb .includes with free := fun line hline ↦ ?_ }
        simp only [List.mem_append, List.mem_cons] at hline
        rcases hline with hline | hline | hline | hline
        · exact hcut.free line (by simp [hline])
        · exact hcut.free line (by simp [hline])
        · exact (hnew' line hline).notBegin .includes
        · exact hcut.free line (by simp [hline])
      exact Or.inl (splice_of_isCut hsecond (hcut'.generated hb .asserts) (by simp [ht]) ht)
    · -- the asserts come first and end where the includes do
      obtain ⟨rfl, rfl⟩ := append_inj_of_closes hrest (hcut.generated hb .includes).opened
        (fun line hline ↦ hcut'.opened line (by simp [hline])) hcut.closed hcut'.closed
      refine Or.inr ⟨above', begins', between, begins, old, below, ?_, ?_, ?_, hcut⟩
      · simp [← hsource]
      · simpa [or_assoc] using hlines
      · exact hcut'.of_inner hcut.opened

/-- Splicing into nested blocks takes the block of the includes away, so that splicing again
rewrites the next one and leaves the asserts as they are. -/
theorem splice_again_of_nested (hb : IsPlainBundle b) (hnested : Nested source)
    (h : splice b source = .ok t) : splice b t =
      (replaceBlock includesMarker (includeLines b) t.toList).map String.ofList := by
  obtain ⟨above, begins, inside, begins', old, below, hsource, hlines, houter, hinner⟩ := hnested
  obtain ⟨u, hincludes, hasserts⟩ := splice_eq_ok_iff.mp h
  -- the lines of the includes are generated inside the asserts, and then exchanged with them
  have houter' : IsCut BlockKind.asserts.marker above begins
      (inside ++ begins' :: generated .includes b begins') below :=
    houter.of_inner (hinner.generated hb .includes).opened
  have ht : t.toList =
      Text.joinLines (above ++ begins :: (generated .asserts b begins ++ below)) := by
    have hu : u = Text.joinLines
        (above ++ begins :: ((inside ++ begins' :: generated .includes b begins') ++ below)) := by
      have hblock := replaceBlock_of_isCut (k := .includes) hinner b
      have hshape : (above ++ begins :: inside) ++ begins' :: (old ++ below) =
          above ++ begins :: ((inside ++ begins' :: old) ++ below) := by simp
      rw [hshape, ← hsource] at hblock
      rw [Except.ok.inj (hincludes.symm.trans hblock)]
      simp
    rw [hu] at hasserts
    exact Except.ok.inj (hasserts.symm.trans (replaceBlock_of_isCut houter' b))
  have hstays (v : List Char)
      (hv : replaceBlock BlockKind.includes.marker (BlockKind.includes.lines b) t.toList = .ok v) :
      replaceBlock BlockKind.asserts.marker (BlockKind.asserts.lines b) v = .ok v := by
    have hnew := isPlainLine_generated (k := .asserts) hb houter.oneLine
    have hlines' := newline_notMem_of_isCut houter hb .asserts hlines
    rw [ht] at hv
    obtain ⟨above', begins'', old', below', hshape, hcut⟩ :=
      exists_isCut (k := .includes) hlines' hv
    rw [hshape] at hv
    obtain rfl := Except.ok.inj ((replaceBlock_of_isCut hcut b).symm.trans hv)
    rcases append_cons_eq_append_cons hshape with
      ⟨rfl, rfl, -⟩ | ⟨between, rfl, hbetween⟩ | ⟨between, rfl, -⟩
    · exact absurd hcut.marked (hinner.free begins (by simp))
    · rcases append_eq_append_cons hbetween with ⟨between, rfl, rfl⟩ | ⟨rest, hgenerated, -⟩
      · have hblock := replaceBlock_of_isCut (k := .asserts)
          ((houter.generated hb .asserts).append_cons (generated .includes b begins'' ++ below')) b
        simpa using hblock
      · exact absurd hcut.marked ((hnew begins'' (by simp [hgenerated])).notBegin .includes)
    · exact absurd hcut.marked (hinner.free begins'' (by simp))
  rw [splice_eq, bind_eq_self hstays]
  rfl

/-- A bundle that is spliced into what it left changes nothing, unless the blocks are nested: then
only the next block of the includes is rewritten, if there is one. -/
theorem splice_again (hb : IsPlainBundle b) (h : splice b source = .ok t) :
    (¬ Nested source → splice b t = .ok t) ∧
      (Nested source → splice b t =
        (replaceBlock includesMarker (includeLines b) t.toList).map String.ofList) :=
  ⟨fun hnested ↦ (splice_again_or_nested hb h).resolve_right hnested,
    fun hnested ↦ splice_again_of_nested hb hnested h⟩

/-- A program whose includes begin inside the block of its asserts. -/
def nestedIncludes : String :=
  "// Generated asserts:\n// Generated includes:\n// End generated\n"

/-- The same program after a splice: the includes are gone. -/
def includesGone : String := "// Generated asserts:\n// End generated\n"

theorem splice_again_nestedIncludes :
    IsPlainBundle .empty ∧ splice .empty nestedIncludes = .ok includesGone ∧
      Nested nestedIncludes ∧ splice .empty includesGone = .error ⟨includesMarker⟩ := by
  have hb : IsPlainBundle .empty := by simp [IsPlainBundle, Bundle.empty]
  have hsplice : splice .empty nestedIncludes = .ok includesGone := by decide
  have hnested : Nested nestedIncludes := by
    have hends : Closes [endMarker.toList, []] :=
      ⟨endMarker.toList, [[]], rfl, by decide, by decide⟩
    refine ⟨[], assertsMarker.toList, [], includesMarker.toList, [], [endMarker.toList, []],
      by decide, by decide, ?_, ?_⟩
    · exact ⟨by decide, by decide, by decide, by decide, hends⟩
    · exact ⟨by decide, by decide, by decide, by decide, hends⟩
  refine ⟨hb, hsplice, hnested, ?_⟩
  rw [(splice_again hb hsplice).2 hnested]
  decide

/-- Splicing is not idempotent. -/
theorem not_splice_idempotent : ¬ ∀ (b : Bundle) (source t : String), IsPlainBundle b →
    splice b source = .ok t → splice b t = .ok t := by
  intro h
  have hb : IsPlainBundle .empty := by simp [IsPlainBundle, Bundle.empty]
  have hagain : splice .empty includesGone = .ok includesGone :=
    h .empty nestedIncludes includesGone hb (by decide)
  revert hagain
  decide

end TemporalRequirements.Splice

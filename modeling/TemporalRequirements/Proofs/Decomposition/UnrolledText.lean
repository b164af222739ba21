import Mathlib.Data.List.Basic
import TemporalRequirements.Proofs.Decomposition.Reconstruct
import TemporalRequirements.Proofs.Formula.Unroll
import TemporalRequirements.Proofs.Text.Lines

/-!
# Unrolled texts are read back

The text of a requirement whose bounded operators are unrolled has the properties of the text it was
made from, one by one.  Each is read as the unrolled formula under the same scope keyword, unless
its parentheses nest too deep, or is the error that it cannot be unrolled.
-/

namespace TemporalRequirements

open Text (Spaced IsLine)

/-- Lines that are put together with blank lines between them are the properties of the text. -/
theorem splitChunks_intercalate {pieces : List String} (h : ∀ p ∈ pieces, IsLine p.toList) :
    splitChunks (chunkSeparator.intercalate pieces) = pieces := by
  by_cases hne : pieces = []
  · subst hne
    decide
  have hbreaks : ∀ s ∈ pieces.map String.toList, '\n' ∉ s ∧ '\r' ∉ s := by
    intro s hs
    obtain ⟨p, hp, rfl⟩ := List.mem_map.mp hs
    exact ⟨(h p hp).spaced.notMem rfl (by decide), (h p hp).spaced.notMem rfl (by decide)⟩
  have hreturn : '\r' ∉ chunkSeparator.toList.intercalate (pieces.map String.toList) := by
    intro hmem
    rcases Text.exists_mem_of_mem_intercalate hmem with hmem | ⟨s, hs, hmem⟩
    · exact absurd hmem (by decide)
    · exact (hbreaks s hs).2 hmem
  have hunix : Text.replaceAll "\r\n".toList "\n".toList
      (chunkSeparator.toList.intercalate (pieces.map String.toList)) =
        chunkSeparator.toList.intercalate (pieces.map String.toList) :=
    Text.replaceAll_of_notMem hreturn _
  have hsplit : Text.splitOn chunkSeparator.toList
      (chunkSeparator.toList.intercalate (pieces.map String.toList)) = pieces.map String.toList :=
    Text.splitOn_intercalate (c := '\n') (by simpa using hne) fun s hs ↦ (hbreaks s hs).1
  have htrim : (pieces.map String.toList).map Text.trim = pieces.map String.toList := by
    rw [List.map_map]
    exact List.map_congr_left fun p hp ↦ (h p hp).trim
  have hkept (p : String) (hp : p ∈ pieces) :
      (if p.toList.isEmpty then none else some (String.ofList p.toList)) = some p := by
    obtain ⟨c, rest, htext, -⟩ := (h p hp).starts
    rw [htext, List.isEmpty_cons, if_neg Bool.false_ne_true, ← htext, String.ofList_toList]
  rw [splitChunks, String.toList_intercalate]
  rw [hunix, hsplit, htrim, List.filterMap_map]
  exact (List.filterMap_congr hkept).trans List.filterMap_some

/-! ## Unrolled properties -/

theorem spaced_toString (n : Nat) : Spaced (toString n).toList := by
  rw [Nat.toString_eq_ofList_toDigits, String.toList_ofList]
  exact spaced_toDigits n

theorem message_boundTooLarge (op : BoundedOp) (bound limit : UInt32) :
    (UnrollError.boundTooLarge op bound limit).message =
      "unresolvable bounded operator " ++ op.spell bound ++ ": bound exceeds " ++
        toString limit.toNat ++ " steps" := rfl

theorem message_tooManyNodes (op : BoundedOp) (bound : UInt32) (nodes : Nat) :
    (UnrollError.tooManyNodes op bound nodes).message =
      "unresolvable bounded operator " ++ op.spell bound ++ ": expansion needs " ++
        toString nodes ++ " nodes (limit " ++ toString maxUnrolledNodes ++ ")" := rfl

/-- The message of an unrolling error has single spaces only. -/
theorem spaced_message (e : UnrollError) : Spaced e.message.toList := by
  have hlead : Spaced "unresolvable bounded operator ".toList :=
    Text.forall_mem_of_all (by decide +kernel)
  cases e with
  | boundTooLarge op bound limit =>
    have hbound : Spaced ": bound exceeds ".toList := Text.forall_mem_of_all (by decide +kernel)
    have hsteps : Spaced " steps".toList := Text.forall_mem_of_all (by decide +kernel)
    simp only [message_boundTooLarge, String.toList_append]
    exact (((hlead.append (spaced_spell op bound)).append hbound).append
      (spaced_toString _)).append hsteps
  | tooManyNodes op bound nodes =>
    have hneeds : Spaced ": expansion needs ".toList := Text.forall_mem_of_all (by decide +kernel)
    have hnodes : Spaced " nodes (limit ".toList := Text.forall_mem_of_all (by decide +kernel)
    have hclose : Spaced ")".toList := Text.forall_mem_of_all (by decide +kernel)
    simp only [message_tooManyNodes, String.toList_append]
    exact (((((hlead.append (spaced_spell op bound)).append hneeds).append
      (spaced_toString _)).append hnodes).append (spaced_toString _)).append hclose

theorem endsFirm_message (e : UnrollError) : Text.EndsFirm e.message.toList := by
  cases e with
  | boundTooLarge op bound limit =>
    have hend : Text.EndsFirm " steps".toList := ⟨" step".toList, 's', by decide, rfl⟩
    rw [message_boundTooLarge, String.toList_append]
    exact hend.append _
  | tooManyNodes op bound nodes =>
    have hend : Text.EndsFirm ")".toList := Text.endsFirm_singleton rfl
    rw [message_tooManyNodes, String.toList_append]
    exact hend.append _

theorem isLine_error (e : UnrollError) : IsLine ("Error: " ++ e.message).toList := by
  have hlead : Spaced "Error: ".toList := Text.forall_mem_of_all (by decide +kernel)
  rw [String.toList_append]
  exact ⟨hlead.append (spaced_message e), ⟨'E', _, rfl, rfl⟩, (endsFirm_message e).append _⟩

section

variable {limit : UInt32} {text : String} {chunk : Chunk} (h : Chunk.parse text = .ok chunk)

include h

theorem unrollChunkText_of_ok {f : Formula} (hf : chunk.formula.unroll limit = .ok f) :
    unrollChunkText limit text = tagged chunk.tag f.print := by
  simp only [unrollChunkText.eq_def, h, hf]

theorem unrollChunkText_of_error {e : UnrollError} (he : chunk.formula.unroll limit = .error e) :
    unrollChunkText limit text = "Error: " ++ e.message := by
  simp only [unrollChunkText.eq_def, h, he]

/-- What becomes of a property that was read is one line. -/
theorem isLine_unrollChunkText : IsLine (unrollChunkText limit text).toList := by
  cases hunroll : chunk.formula.unroll limit with
  | error e =>
    rw [unrollChunkText_of_error h hunroll]
    exact isLine_error e
  | ok f =>
    rw [unrollChunkText_of_ok h hunroll]
    exact isLine_tagged (isLine_print fun a ha ↦
      wellRead_of_parseChunk h a (Formula.mem_atoms_of_unroll hunroll ha))

end

/-- Unrolling keeps the properties of a requirement apart. -/
theorem splitChunks_unrollText (limit : UInt32) {text : String} {chunks : List Chunk}
    (h : parseChunks text = .ok chunks) :
    splitChunks (unrollText limit text) = (splitChunks text).map (unrollChunkText limit) := by
  have hparsed := parseChunks_eq_ok_iff.mp h
  apply splitChunks_intercalate
  intro p hp
  obtain ⟨piece, hpiece, rfl⟩ := List.mem_map.mp hp
  have hmem : Chunk.parse piece ∈ chunks.map Except.ok := hparsed ▸ List.mem_map_of_mem hpiece
  obtain ⟨chunk, -, hchunk⟩ := List.mem_map.mp hmem
  exact isLine_unrollChunkText hchunk.symm

/-! ## Reading back -/

def StartsWithKeyword (text : String) : Prop := ∃ tag : ScopeTag, tag.keyword.toList <+: text.toList

theorem split_eq_none {s : List Char}
    (h : ∀ tag : ScopeTag, ¬ tag.keyword.toList <+: Text.trimStart s) :
    ScopeTag.split s = (none, s) := by
  have hnone (tag : ScopeTag) : Text.after? tag.keyword.toList (Text.trimStart s) = none :=
    Text.after?_eq_none_iff.mpr (h tag)
  simp [ScopeTag.split, ScopeTag.all, hnone]

theorem split_eq_some {s rest : List Char} {tag : ScopeTag}
    (h : Text.trimStart s = tag.keyword.toList ++ rest) : ScopeTag.split s = (some tag, rest) := by
  cases tag with
  | afterInitialCondition => simp [ScopeTag.split, ScopeTag.all, h, Text.after?_append]
  | initialCondition =>
    have hother : Text.after? ScopeTag.afterInitialCondition.keyword.toList
        (ScopeTag.initialCondition.keyword.toList ++ rest) = none := rfl
    simp [ScopeTag.split, ScopeTag.all, h, hother, Text.after?_append]

theorem split_of_not_startsWithKeyword {text : String} (h : ¬ StartsWithKeyword text)
    (hstart : Text.trimStart text.toList = text.toList) :
    ScopeTag.split text.toList = (none, text.toList) := by
  apply split_eq_none
  intro tag hprefix
  rw [hstart] at hprefix
  exact h ⟨tag, hprefix⟩

theorem split_keyword (tag : ScopeTag) (rest : List Char) :
    ScopeTag.split (tag.keyword.toList ++ rest) = (some tag, rest) := by
  apply split_eq_some
  cases tag <;> exact Text.trimStart_cons_of_firm rfl _

theorem parseChunk_of_split {text : String} {tag : Option ScopeTag} {rest : List Char}
    (hsplit : ScopeTag.split text.toList = (tag, rest)) :
    Chunk.parse text = (Formula.parse (String.ofList rest)).map (Chunk.mk tag) := by
  rw [Chunk.parse, hsplit]
  rfl

/-- A property is read from its canonical text, unless its parentheses nest too deep, where no name
in front looks like a scope keyword. -/
theorem parse_tagged {tag : Option ScopeTag} {f : Formula} (h : ∀ a ∈ f.atoms, a.WellRead)
    (hkeyword : tag = none → ¬ StartsWithKeyword f.print) :
    Chunk.parse (tagged tag f.print) =
      if Text.nesting f.print.toList ≤ maxNesting then .ok ⟨tag, f⟩
      else .error (.tooDeep (Text.nesting f.print.toList)) := by
  have hprint := Grammar.formulaText_printWith (Dialect.isReadable_canonical _) h
  obtain ⟨rest, hsplit, hrest, hnesting⟩ : ∃ rest,
      ScopeTag.split (tagged tag f.print).toList = (tag, rest) ∧
      Grammar.FormulaText 6 f rest ∧ Text.nesting rest = Text.nesting f.print.toList := by
    cases tag with
    | none =>
      obtain ⟨c, rest, htext, hc⟩ := (isLine_print h).starts
      refine ⟨f.print.toList, split_of_not_startsWithKeyword (hkeyword rfl) ?_, hprint, rfl⟩
      rw [tagged, htext, Text.trimStart_cons_of_firm hc]
    | some tag =>
      refine ⟨' ' :: f.print.toList, ?_, hprint.gaps (Grammar.Gaps.cons rfl Grammar.Gaps.nil), rfl⟩
      rw [tagged, String.toList_append, String.toList_append, List.append_assoc]
      exact split_keyword tag _
  rw [parseChunk_of_split hsplit, hrest.parse, hnesting]
  split <;> rfl

/-- The properties of an unrolled text are those of the text, one by one.  Each is the error that it
cannot be unrolled, or is read as the unrolled formula under the same scope keyword, unless its
parentheses nest too deep. -/
theorem parse_unrollText {limit : UInt32} {text : String} {chunks : List Chunk}
    (h : parseChunks text = .ok chunks) :
    let pieces := splitChunks (unrollText limit text)
    pieces.length = chunks.length ∧
      ∀ (k : Nat) (chunk : Chunk), chunks[k]? = some chunk → ∃ piece, pieces[k]? = some piece ∧
        ((∃ e, chunk.formula.unroll limit = .error e ∧ piece = "Error: " ++ e.message) ∨
          ∃ f, chunk.formula.unroll limit = .ok f ∧ piece = tagged chunk.tag f.print ∧
            ((chunk.tag = none → ¬ StartsWithKeyword piece) →
              Chunk.parse piece =
                if Text.nesting f.print.toList ≤ maxNesting then .ok ⟨chunk.tag, f⟩
                else .error (.tooDeep (Text.nesting f.print.toList)))) := by
  intro pieces
  have hparsed := parseChunks_eq_ok_iff.mp h
  have hpieces : pieces = (splitChunks text).map (unrollChunkText limit) :=
    splitChunks_unrollText limit h
  rw [hpieces]
  constructor
  · simpa using congrArg List.length hparsed
  intro k chunk hchunk
  have hread : ((splitChunks text).map Chunk.parse)[k]? = some (.ok chunk) := by
    rw [hparsed, List.getElem?_map, hchunk, Option.map_some]
  rw [List.getElem?_map] at hread
  obtain ⟨original, horiginal, hparse⟩ := Option.map_eq_some_iff.mp hread
  refine ⟨unrollChunkText limit original, by rw [List.getElem?_map, horiginal, Option.map_some], ?_⟩
  cases hunroll : chunk.formula.unroll limit with
  | error e => exact .inl ⟨e, rfl, unrollChunkText_of_error hparse hunroll⟩
  | ok f =>
    rw [unrollChunkText_of_ok hparse hunroll]
    refine .inr ⟨f, rfl, rfl, fun hkeyword ↦ ?_⟩
    apply parse_tagged
    · exact fun a ha ↦ wellRead_of_parseChunk hparse a (Formula.mem_atoms_of_unroll hunroll ha)
    · intro htag
      rw [htag] at hkeyword
      exact hkeyword rfl

/-- A scoped property whose window is unrolled, and one whose bound is too large. -/
def scopedBounds : String := "InitialConditionRequirement F<=1 (a > 1)\n\nG<=300 b"

theorem parse_unrollText_scopedBounds :
    let large : Formula := .atom ⟨"a > 1", .compare (.var "a") .gt (.number "1")⟩
    let pieces := splitChunks (unrollText defaultUnrollLimit scopedBounds)
    (∃ chunks, parseChunks scopedBounds = .ok chunks) ∧ pieces.length = 2 ∧
      ∃ piece, pieces[0]? = some piece ∧ Chunk.parse piece =
        .ok ⟨some .initialCondition, .binary .or large (.unary .next large)⟩ := by
  intro large pieces
  let b : Formula := .atom ⟨"b", .holds (.var "b")⟩
  have hread : parseChunks scopedBounds =
      .ok [⟨some .initialCondition, .bounded .eventuallyWithin 1 large⟩,
        ⟨none, .bounded .alwaysWithin 300 b⟩] :=
    eq_ok_of_toOption (by decide +kernel)
  have hunroll : (Formula.bounded .eventuallyWithin 1 large).unroll defaultUnrollLimit =
      .ok (.binary .or large (.unary .next large)) := rfl
  have hnesting : Text.nesting
      (Formula.binary .or large (.unary .next large)).print.toList ≤ maxNesting := by
    decide +kernel
  obtain ⟨hlength, hpieces⟩ := @parse_unrollText defaultUnrollLimit _ _ hread
  obtain ⟨piece, hpiece, herror | ⟨f, hf, -, hparse⟩⟩ := hpieces 0 _ rfl
  · obtain ⟨e, he, -⟩ := herror
    rw [hunroll] at he
    cases he
  · obtain rfl := Except.ok.inj (hunroll.symm.trans hf)
    refine ⟨⟨_, hread⟩, hlength, piece, hpiece, ?_⟩
    rw [hparse (fun htag ↦ by cases htag), if_pos hnesting]

/-- Next steps that unroll to parentheses that nest too deep to be read. -/
theorem not_parse_unrollText : ¬ ∀ (limit : UInt32) (text : String) (chunks : List Chunk),
    parseChunks text = .ok chunks → ∀ piece ∈ splitChunks (unrollText limit text),
      "Error:".toList <+: piece.toList ∨ ∃ chunk, Chunk.parse piece = .ok chunk := by
  intro hclaim
  let a : Formula := .atom ⟨"a", .holds (.var "a")⟩
  let deep : Formula := .nextSteps 65 a
  have hparse : Chunk.parse "F=65 a" = .ok ⟨none, .bounded .exactly 65 a⟩ :=
    eq_ok_of_toOption (by decide +kernel)
  have hread : parseChunks "F=65 a" = .ok [⟨none, .bounded .exactly 65 a⟩] :=
    eq_ok_of_toOption (by decide +kernel)
  have hunroll : (Formula.bounded .exactly 65 a).unroll defaultUnrollLimit = .ok deep := rfl
  have hpiece : deep.print ∈ splitChunks (unrollText defaultUnrollLimit "F=65 a") := by
    have htexts : splitChunks "F=65 a" = ["F=65 a"] := by decide +kernel
    have htext : unrollChunkText defaultUnrollLimit "F=65 a" = deep.print :=
      unrollChunkText_of_ok hparse hunroll
    rw [splitChunks_unrollText _ hread, htexts, List.map_singleton, htext]
    exact List.mem_singleton_self _
  have hstarts : deep.print.toList.head? = some 'X' := by
    rw [Formula.print, Formula.toList_printWith rfl]
    rfl
  have hnesting : Text.nesting deep.print.toList = 65 := by
    rw [Formula.print, Formula.toList_printWith rfl]
    decide +kernel
  have hatoms : ∀ b ∈ deep.atoms, b.WellRead := fun b hb ↦
    wellRead_of_parseChunk hparse b (Formula.mem_atoms_of_unroll hunroll hb)
  have hkeyword : ¬ StartsWithKeyword deep.print := by
    rintro ⟨tag, rest, htext⟩
    rw [← htext] at hstarts
    cases tag <;> cases hstarts
  rcases hclaim _ _ _ hread _ hpiece with ⟨rest, htext⟩ | ⟨chunk, hchunk⟩
  · rw [← htext] at hstarts
    cases hstarts
  · have hdeep : Chunk.parse (tagged none deep.print) = _ := parse_tagged hatoms fun _ ↦ hkeyword
    rw [tagged, hchunk, hnesting] at hdeep
    cases hdeep

end TemporalRequirements

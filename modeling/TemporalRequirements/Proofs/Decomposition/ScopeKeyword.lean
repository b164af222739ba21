import TemporalRequirements.Proofs.Decomposition.UnrolledText

/-!
# Scope keywords and names

A scope keyword is taken off a text letter by letter, before the grammar finds the words in it.  A
text that is a formula is the same formula without a scope unless the word it starts with begins
with a keyword.  There the keyword is taken off even if the word goes on, and what is left of the
word becomes part of the formula.
-/

namespace TemporalRequirements

namespace Grammar

variable {s rest : List Char}

/-! ## What a formula starts with -/

/-- The text starts with no blank that tokens cannot have between them. -/
def StartsFirm (s : List Char) : Prop :=
  ∃ c rest, skipGaps s = c :: rest ∧ Text.isBlank c = false

theorem startsFirm_of_word {w : List Char} (h : word s = some (w, rest)) : StartsFirm s := by
  obtain ⟨gaps, hgaps, rfl, hw, -⟩ := word_eq_some h
  obtain ⟨c, tail, rfl, hc⟩ := hw.starts
  have hpart : Text.isPathPart c = true := Text.isPathPart_of_isNameStart hc
  refine ⟨c, tail ++ rest, ?_, isBlank_of_isPathPart hpart⟩
  rw [skipGaps_append hgaps, List.cons_append,
    skipGaps_cons_of_not_gap (isGap_of_isPathPart hpart)]

theorem startsFirm_of_leadingOp {op : LeadingOp} (h : leadingOp s = some (op, rest)) :
    StartsFirm s := by
  unfold leadingOp at h
  split at h
  · rename_i tail hskip
    exact ⟨'!', tail, hskip, rfl⟩
  · obtain ⟨⟨w, afterWord⟩, hword, -⟩ := Option.bind_eq_some_iff.mp h
    have hfirm := startsFirm_of_word hword
    rwa [StartsFirm, skipGaps_idem] at hfirm

theorem startsFirm_of_relation {n : Nat} {f : Formula}
    (h : relation (termUpTo n) s = some (f, rest)) : StartsFirm s := by
  obtain ⟨span, p, rfl, hspan, -⟩ := relation_sound h
  obtain ⟨c, tail, hskip, hc⟩ := hspan.starts
  exact ⟨c, tail ++ rest, skipGaps_append_of_cons hskip rest, isBlank_of_startsPredicate hc⟩

theorem startsFirm_of_primary {n : Nat} {inner : Reader Judged} {j : Judged}
    (h : primary (termUpTo n) inner s = some (j, rest)) : StartsFirm s := by
  unfold primary at h
  split at h
  · rename_i hrelation
    exact startsFirm_of_relation hrelation
  · obtain ⟨afterOpen, hopen, -⟩ := Option.bind_eq_some_iff.mp h
    obtain ⟨token, htoken, rfl⟩ := mark_eq_some hopen
    exact ⟨'(', afterOpen, htoken.skipGaps_append rfl afterOpen, rfl⟩

/-- An operand, with the operators before it, starts in ink after its gaps. -/
theorem startsFirm_of_factor {n m : Nat} {inner : Reader Judged} {j : Judged}
    (h : factor (primary (termUpTo n) inner) m s = some (j, rest)) : StartsFirm s := by
  obtain ⟨⟨f, after⟩, hprimary, -⟩ := Option.bind_eq_some_iff.mp h
  cases m with
  | zero => exact startsFirm_of_primary hprimary
  | succ m =>
    cases hop : leadingOp s with
    | none =>
      rw [many, hop] at hprimary
      exact startsFirm_of_primary hprimary
    | some result => exact startsFirm_of_leadingOp hop

theorem startsFirm_of_readFormulaLevel {n k : Nat} {j : Judged}
    (h : readFormulaLevel n k s = some (j, rest)) : StartsFirm s := by
  induction k generalizing j rest with
  | zero => exact startsFirm_of_factor h
  | succ k ih =>
    obtain ⟨⟨⟨first, others⟩, final⟩, hchain, -⟩ := Option.bind_eq_some_iff.mp h
    obtain ⟨afterFirst, hfirst, -⟩ := chain_eq_some.mp hchain
    exact ih hfirst

theorem startsFirm_of_parse {text : String} {f : Formula} (h : Formula.parse text = .ok f) :
    StartsFirm text.toList := by
  unfold Formula.parse at h
  dsimp only at h
  split at h
  · cases h
  · split at h
    · cases h
    · unfold wholeFormula at h
      split at h
      · rename_i j rest hread
        rw [formulaUpTo_succ] at hread
        exact startsFirm_of_readFormulaLevel hread
      · cases h

theorem StartsFirm.trimStart (h : StartsFirm s) : Text.trimStart s = skipGaps s := by
  obtain ⟨c, tail, hskip, hc⟩ := h
  obtain ⟨gaps, hgaps, hs⟩ := exists_gaps s
  calc Text.trimStart s
    _ = Text.trimStart (c :: tail) := by
      rw [hs, Text.trimStart, List.dropWhile_append_of_pos hgaps.isBlank, hskip, Text.trimStart]
    _ = c :: tail := Text.trimStart_cons_of_firm hc tail
    _ = skipGaps s := hskip.symm

/-! ## Keywords and words -/

/-- The word at the front of a text goes on as long as the text does. -/
theorem word_of_skipGaps {w : List Char} (hw : WordText w) (h : skipGaps s = w ++ rest) :
    word s = some (w ++ rest.takeWhile Text.isPathPart, rest.dropWhile Text.isPathPart) := by
  obtain ⟨c, tail, rfl, hc⟩ := hw.starts
  have htail : ∀ d ∈ tail, Text.isPathPart d = true := fun d hd ↦
    hw.parts d (List.mem_cons_of_mem c hd)
  rw [word, h, List.cons_append]
  dsimp only
  rw [if_pos hc, List.takeWhile_append_of_pos htail, List.dropWhile_append_of_pos htail,
    List.cons_append]

theorem skipGaps_of_word {w : List Char} (h : word s = some (w, rest)) :
    skipGaps s = w ++ rest := by
  obtain ⟨gaps, hgaps, rfl, hw, -⟩ := word_eq_some h
  obtain ⟨c, tail, rfl, hc⟩ := hw.starts
  rw [skipGaps_append hgaps, List.cons_append,
    skipGaps_cons_of_not_gap (isGap_of_isPathPart (Text.isPathPart_of_isNameStart hc))]

end Grammar

open Grammar (word WordText)

theorem wordText_keyword (tag : ScopeTag) : WordText tag.keyword.toList := by
  cases tag with
  | initialCondition => exact ⟨⟨'I', _, rfl, rfl⟩, List.all_eq_true.mp rfl⟩
  | afterInitialCondition => exact ⟨⟨'A', _, rfl, rfl⟩, List.all_eq_true.mp rfl⟩

section

variable {text : String} {f : Formula} (h : Formula.parse text = .ok f)

include h

/-- A keyword is taken off the word at the front, and what is left of the word stays. -/
theorem parseChunk_of_keyword {tag : ScopeTag} {more rest : List Char}
    (hword : word text.toList = some (tag.keyword.toList ++ more, rest)) :
    Chunk.parse text =
      (Formula.parse (String.ofList (more ++ rest))).map (Chunk.mk (some tag)) := by
  apply parseChunk_of_split
  apply split_eq_some
  rw [(Grammar.startsFirm_of_parse h).trimStart, Grammar.skipGaps_of_word hword,
    List.append_assoc]

/-- A text whose first word is no keyword is a property without a scope. -/
theorem parseChunk_of_noKeyword
    (hword : ∀ w rest, word text.toList = some (w, rest) → ¬ StartsWithKeyword (String.ofList w)) :
    Chunk.parse text = .ok ⟨none, f⟩ := by
  have hsplit : ScopeTag.split text.toList = (none, text.toList) := by
    apply split_eq_none
    intro tag hprefix
    rw [(Grammar.startsFirm_of_parse h).trimStart] at hprefix
    obtain ⟨tail, htail⟩ := hprefix
    apply hword _ _ (Grammar.word_of_skipGaps (wordText_keyword tag) htail.symm)
    refine ⟨tag, tail.takeWhile Text.isPathPart, ?_⟩
    rw [String.toList_ofList]
  rw [parseChunk_of_split hsplit, String.ofList_toList, h]
  rfl

/-- A text that is a formula is the same property without a scope if and only if the word it starts
with does not begin with a scope keyword.  A keyword is taken off such a word even if the word goes
on. -/
theorem parseChunk_of_parse :
    (Chunk.parse text = .ok ⟨none, f⟩ ↔
      ∀ w rest, word text.toList = some (w, rest) → ¬ StartsWithKeyword (String.ofList w)) ∧
    ∀ (tag : ScopeTag) (more rest : List Char),
      word text.toList = some (tag.keyword.toList ++ more, rest) → Chunk.parse text =
        (Formula.parse (String.ofList (more ++ rest))).map (Chunk.mk (some tag)) := by
  refine ⟨⟨?_, parseChunk_of_noKeyword h⟩, fun tag more rest ↦ parseChunk_of_keyword h⟩
  rintro hchunk w rest hword ⟨tag, more, hkeyword⟩
  rw [String.toList_ofList] at hkeyword
  rw [← hkeyword] at hword
  rw [parseChunk_of_keyword h hword] at hchunk
  cases hrest : Formula.parse (String.ofList (more ++ rest)) with
  | error e =>
    rw [hrest] at hchunk
    cases hchunk
  | ok g =>
    rw [hrest] at hchunk
    cases hchunk

end

/-- A name that has a keyword inside but starts with none, after blanks. -/
theorem parseChunk_of_parse_nearKeyword :
    let text := " \tAfterInitialConditions -> NoInitialConditionRequirement"
    let f : Formula := .binary .implies
      (.atom ⟨"AfterInitialConditions", .holds (.var "AfterInitialConditions")⟩)
      (.atom ⟨"NoInitialConditionRequirement", .holds (.var "NoInitialConditionRequirement")⟩)
    Formula.parse text = .ok f ∧ Chunk.parse text = .ok ⟨none, f⟩ := by
  intro text f
  have hread : Formula.parse text = .ok f := eq_ok_of_toOption (by decide +kernel)
  refine ⟨hread, (parseChunk_of_parse hread).1.mpr ?_⟩
  intro w rest hword ⟨tag, more, hkeyword⟩
  have hfront : word text.toList =
      some ("AfterInitialConditions".toList, " -> NoInitialConditionRequirement".toList) := by
    decide +kernel
  obtain ⟨rfl, -⟩ := Prod.mk.inj (Option.some.inj (hfront.symm.trans hword))
  cases tag <;> cases hkeyword

/-- A formula of one name, which is no scope keyword, is read under a scope as another name. -/
theorem parseChunk_longName :
    let name := "InitialConditionRequirementMet"
    let f : Formula := .atom ⟨name, .holds (.var name)⟩
    Formula.parse name = .ok f ∧ word name.toList = some (name.toList, []) ∧
      (∀ tag : ScopeTag, name ≠ tag.keyword) ∧ Chunk.parse name ≠ .ok ⟨none, f⟩ ∧
      Chunk.parse name = .ok ⟨some .initialCondition, .atom ⟨"Met", .holds (.var "Met")⟩⟩ := by
  intro name f
  have hchunk : Chunk.parse name =
      .ok ⟨some .initialCondition, .atom ⟨"Met", .holds (.var "Met")⟩⟩ :=
    eq_ok_of_toOption (by decide +kernel)
  refine ⟨eq_ok_of_toOption (by decide +kernel), by decide +kernel, ?_, ?_, hchunk⟩
  · intro tag
    cases tag <;> decide
  · rw [hchunk]
    intro heq
    cases heq

end TemporalRequirements

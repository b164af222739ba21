import TemporalRequirements.Grammar.Formula
import TemporalRequirements.Proofs.Grammar.TermComplete

/-!
# The texts of atoms

A predicate is spelled by a term or by two terms with a comparison between them.  Trimming,
squeezing and unwrapping a text that spells a predicate lead to a core, which spells it as well and
is its own core.  So the text that an atom keeps can be read again as the same atom.
-/

namespace TemporalRequirements.Grammar

/-! ## Comparisons and predicates -/

def ComparisonText (op : RelOp) (s : List Char) : Prop :=
  ∃ sign, (sign, op) ∈ RelOp.spellings ∧ TokenText sign.toList s

inductive PredicateText : Predicate → List Char → Prop where
  | holds {t : Term} {s : List Char} (hs : TermText (.level 2 t) s) : PredicateText (.holds t) s
  | compare {l r : Term} {op : RelOp} {s s' s'' : List Char} (hl : TermText (.level 2 l) s)
      (hop : ComparisonText op s') (hr : TermText (.level 2 r) s'') :
      PredicateText (.compare l op r) (s ++ (s' ++ s''))

def startsComparison (c : Char) : Bool := c ∈ ['=', '!', '<', '≤', '>', '≥']

theorem ComparisonText.starts {op : RelOp} {s : List Char} (h : ComparisonText op s) :
    ∃ c rest, skipGaps s = c :: rest ∧ startsComparison c = true := by
  obtain ⟨sign, hmem, gaps, hgaps, rfl⟩ := h
  rw [skipGaps_append hgaps]
  simp only [RelOp.spellings, List.mem_cons, Prod.mk.injEq, List.not_mem_nil, or_false] at hmem
  rcases hmem with ⟨rfl, -⟩ | ⟨rfl, -⟩ | ⟨rfl, -⟩ | ⟨rfl, -⟩ | ⟨rfl, -⟩ | ⟨rfl, -⟩ | ⟨rfl, -⟩ |
    ⟨rfl, -⟩ | ⟨rfl, -⟩ <;> exact ⟨_, _, rfl, rfl⟩

theorem solid_of_spelling {sign : String} {op : RelOp} (h : (sign, op) ∈ RelOp.spellings) :
    sign.toList ≠ [] ∧ ∀ c ∈ sign.toList, Text.isBlank c = false ∧ c ≠ '(' ∧ c ≠ ')' := by
  simp only [RelOp.spellings, List.mem_cons, Prod.mk.injEq, List.not_mem_nil, or_false] at h
  rcases h with ⟨rfl, -⟩ | ⟨rfl, -⟩ | ⟨rfl, -⟩ | ⟨rfl, -⟩ | ⟨rfl, -⟩ | ⟨rfl, -⟩ | ⟨rfl, -⟩ |
    ⟨rfl, -⟩ | ⟨rfl, -⟩ <;>
    exact ⟨by decide, Text.forall_mem_of_all rfl⟩

theorem ComparisonText.endsFirm {op : RelOp} {s : List Char} (h : ComparisonText op s) :
    Text.EndsFirm s := by
  obtain ⟨sign, hmem, gaps, hgaps, rfl⟩ := h
  obtain ⟨hne, hsolid⟩ := solid_of_spelling hmem
  exact (Text.endsFirm_of_forall hne fun c hc ↦ (hsolid c hc).1).append gaps

theorem ComparisonText.balanced {op : RelOp} {s : List Char} (h : ComparisonText op s) :
    Text.Balanced s := by
  obtain ⟨sign, hmem, gaps, hgaps, rfl⟩ := h
  obtain ⟨-, hsolid⟩ := solid_of_spelling hmem
  exact hgaps.balanced.append (Text.Balanced.of_forall fun c hc ↦ (hsolid c hc).2)

theorem ComparisonText.squeeze {op : RelOp} {s : List Char} (h : ComparisonText op s) :
    ComparisonText op (Text.squeeze s) := by
  obtain ⟨sign, hmem, htoken⟩ := h
  obtain ⟨hne, hsolid⟩ := solid_of_spelling hmem
  exact ⟨sign, hmem, htoken.squeeze (fun c hc ↦ (hsolid c hc).1) hne⟩

theorem isBlank_of_startsPredicate {c : Char} (h : c = '-' ∨ startsOperand c = true) :
    Text.isBlank c = false := by
  rcases h with rfl | hc
  · rfl
  · exact isBlank_of_startsOperand hc

namespace PredicateText

variable {p : Predicate} {s : List Char}

theorem endsFirm (h : PredicateText p s) : Text.EndsFirm s := by
  cases h with
  | holds hs => exact hs.endsFirm rfl
  | compare _ _ hr => exact ((hr.endsFirm rfl).append _).append _

theorem balanced (h : PredicateText p s) : Text.Balanced s := by
  cases h with
  | holds hs => exact hs.balanced
  | compare hl hop hr => exact hl.balanced.append (hop.balanced.append hr.balanced)

/-- A predicate starts with a minus sign or an operand. -/
theorem starts (h : PredicateText p s) :
    ∃ c rest, skipGaps s = c :: rest ∧ (c = '-' ∨ startsOperand c = true) := by
  have hterm {t : Term} {s : List Char} (h : TermText (.level 2 t) s) :
      ∃ c rest, skipGaps s = c :: rest ∧ (c = '-' ∨ startsOperand c = true) := by
    obtain ⟨c, rest, hskip, hc⟩ := h.starts rfl
    exact ⟨c, rest, hskip, by simpa [Phrase.starts] using hc⟩
  cases h with
  | holds hs => exact hterm hs
  | compare hl _ _ =>
    obtain ⟨c, rest, hskip, hc⟩ := hterm hl
    exact ⟨c, _, skipGaps_append_of_cons hskip _, hc⟩

theorem squeeze (h : PredicateText p s) : PredicateText p (Text.squeeze s) := by
  cases h with
  | holds hs => exact .holds hs.squeeze
  | compare hl hop hr =>
    rw [Text.squeeze_append (hl.endsFirm rfl), Text.squeeze_append hop.endsFirm]
    exact .compare hl.squeeze hop.squeeze hr.squeeze

theorem skipGaps (h : PredicateText p s) : PredicateText p (Grammar.skipGaps s) := by
  cases h with
  | holds hs => exact .holds (hs.skipGaps rfl)
  | compare hl hop hr =>
    rw [skipGaps_append_eq hl rfl]
    exact .compare (hl.skipGaps rfl) hop hr

/-- Only gaps can stand before a predicate, so that trimming skips them. -/
theorem trim_append (h : PredicateText p s) {gaps : List Char} (hgaps : Gaps gaps) :
    Text.trim (s ++ gaps) = Grammar.skipGaps s := by
  obtain ⟨c, rest, hskip, hc⟩ := h.starts
  obtain ⟨before, hbefore, hs⟩ := exists_gaps s
  have hfirm := h.skipGaps.endsFirm
  rw [hskip] at hs hfirm ⊢
  rw [hs]
  exact Text.trim_append_blanks (isBlank_of_startsPredicate hc) hfirm hbefore.isBlank hgaps.isBlank

theorem trim (h : PredicateText p s) : Text.trim s = Grammar.skipGaps s := by
  have htrim := h.trim_append Gaps.nil
  rwa [List.append_nil] at htrim

/-- A group that wraps a predicate whole spells it without its parentheses. -/
theorem inside (h : PredicateText p s) {inner : List Char} (hinside : Text.inside? s = some inner) :
    ∃ s' gaps, inner = s' ++ gaps ∧ Gaps gaps ∧ PredicateText p s' := by
  cases h with
  | @holds t s hterm =>
    obtain ⟨tail, rfl⟩ : ∃ tail, s = '(' :: tail := ⟨_, Text.inside?_eq_some hinside⟩
    obtain ⟨inner', rest, rfl, hbalanced, hend⟩ := hterm.groupEnd rfl rfl
    cases hend with
    | whole heq hgaps hinner =>
      rw [hbalanced.inside?_wrap] at hinside
      exact ⟨_, _, (Option.some.inj hinside).symm.trans heq, hgaps, .holds hinner⟩
    | continued hop hr rest =>
      rw [hbalanced.inside?_eq_none
        (List.append_ne_nil_of_left_ne_nil hop.endsFirm.ne_nil _)] at hinside
      cases hinside
  | @compare l r op s s' s'' hl hop hr =>
    cases s with
    | nil => exact absurd rfl (hl.endsFirm rfl).ne_nil
    | cons c s =>
      obtain ⟨tail, htail⟩ : ∃ tail, c :: s ++ (s' ++ s'') = '(' :: tail :=
        ⟨_, Text.inside?_eq_some hinside⟩
      obtain ⟨rfl, -⟩ := List.cons.inj htail
      obtain ⟨inner', rest, rfl, hbalanced, -⟩ := hl.groupEnd rfl rfl
      have hne : rest ++ (s' ++ s'') ≠ [] :=
        List.append_ne_nil_of_right_ne_nil rest
          (List.append_ne_nil_of_left_ne_nil hop.endsFirm.ne_nil s'')
      have hnone := hbalanced.inside?_eq_none hne
      rw [List.cons_append, List.append_assoc, List.cons_append, hnone] at hinside
      cases hinside

end PredicateText

/-! ## Cores -/

/-- A text that normalizing does not change. -/
structure CoreText (s : List Char) : Prop where
  starts : ∃ c rest, s = c :: rest ∧ Text.isBlank c = false
  ends : Text.EndsFirm s
  squeezed : Text.squeeze s = s
  bare : Text.inside? s = none

theorem CoreText.trimStart {s : List Char} (h : CoreText s) : Text.trimStart s = s := by
  obtain ⟨c, rest, rfl, hc⟩ := h.starts
  exact Text.trimStart_cons_of_firm hc rest

theorem CoreText.trim {s : List Char} (h : CoreText s) : Text.trim s = s := by
  obtain ⟨c, rest, rfl, hc⟩ := h.starts
  exact Text.trim_eq_self hc h.ends

theorem CoreText.unwrap {s : List Char} (h : CoreText s) : Text.unwrap s = s := by
  have hbare : Text.inside? (Text.trim s) = none := by rw [h.trim, h.bare]
  rw [Text.unwrap_eq_trim hbare, h.trim]

theorem CoreText.normalize {s : List Char} (h : CoreText s) : normalizeAtomText s = s := by
  rw [normalizeAtomText, h.trim, h.squeezed, h.unwrap]

/-- A part of a squeezed text that follows ink is squeezed. -/
theorem squeeze_eq_of_append {s t : List Char} (hs : Text.EndsFirm s)
    (h : Text.squeeze (s ++ t) = s ++ t) : Text.squeeze s = s ∧ Text.squeeze t = t := by
  rw [Text.squeeze_append hs] at h
  have hlength := congrArg List.length h
  have hle := Text.squeeze_length_le s
  have hle' := Text.squeeze_length_le t
  simp only [List.length_append] at hlength
  exact List.append_inj h (by omega)

/-- Unwrapping a squeezed text that spells a predicate leads to its core. -/
theorem PredicateText.unwrap {p : Predicate} {s : List Char} (h : PredicateText p s)
    (hsqueezed : Text.squeeze s = s) :
    PredicateText p (Text.unwrap s) ∧ CoreText (Text.unwrap s) := by
  have hskip := h.skipGaps
  have htrim := h.trim
  obtain ⟨gaps, hgaps, hs⟩ := exists_gaps s
  obtain ⟨c, rest, hstart, hc⟩ := h.starts
  have hblank : Text.isBlank c = false := isBlank_of_startsPredicate hc
  have hcore : Text.squeeze (c :: rest) = c :: rest := by
    have hfirm : Text.EndsFirm (gaps ++ [c]) := (Text.endsFirm_singleton hblank).append gaps
    have hparts : s = (gaps ++ [c]) ++ rest := by
      rw [hs, hstart, List.append_assoc, List.singleton_append]
    rw [Text.squeeze_cons_of_firm hblank, (squeeze_eq_of_append hfirm (hparts ▸ hsqueezed)).2]
  cases hinside : Text.inside? (Text.trim s) with
  | none =>
    rw [Text.unwrap_eq_trim hinside, htrim]
    rw [htrim] at hinside
    exact ⟨hskip, ⟨c, rest, hstart, hblank⟩, hskip.endsFirm, hstart ▸ hcore, hinside⟩
  | some inner =>
    have hlength := Text.length_of_inside? hinside
    have hshorter := Text.trim_length_le s
    rw [Text.unwrap_eq_unwrap_inside hinside]
    rw [htrim] at hinside
    obtain ⟨s', gaps', rfl, hgaps', hinner⟩ := hskip.inside hinside
    have hwrapped : c :: rest = ['('] ++ (s' ++ (gaps' ++ [')'])) := by
      rw [← hstart, Text.inside?_eq_some hinside]
      simp
    rw [hwrapped] at hcore
    have hinside' := (squeeze_eq_of_append (Text.endsFirm_singleton rfl) hcore).2
    have hsqueezed' := (squeeze_eq_of_append hinner.endsFirm hinside').1
    rw [Text.unwrap_congr ((hinner.trim_append hgaps').trans hinner.trim.symm)]
    have hless : s'.length < s.length := by
      rw [List.length_append] at hlength
      omega
    exact unwrap hinner hsqueezed'
termination_by s.length
decreasing_by omega

/-- The normal text of a predicate spells it and is its own normal text. -/
theorem PredicateText.normalize {p : Predicate} {s : List Char} (h : PredicateText p s) :
    PredicateText p (normalizeAtomText s) ∧ CoreText (normalizeAtomText s) := by
  have htrim : PredicateText p (Text.trim s) := h.trim ▸ h.skipGaps
  exact htrim.squeeze.unwrap (Text.squeeze_squeeze _)

/-- Squeezing before or after the gaps in front are skipped is the same. -/
theorem skipGaps_squeeze {c : Char} {s rest : List Char} (h : skipGaps s = c :: rest)
    (hc : Text.isBlank c = false) : skipGaps (Text.squeeze s) = Text.squeeze (skipGaps s) := by
  obtain ⟨gaps, hgaps, hs⟩ := exists_gaps s
  have hgap : isGap c = false := by
    cases hgap : isGap c with
    | false => rfl
    | true =>
      rw [isBlank_of_isGap hgap] at hc
      cases hc
  have htoken : TokenText [c] (gaps ++ [c]) := ⟨gaps, hgaps, rfl⟩
  have hparts : s = (gaps ++ [c]) ++ rest := by
    rw [hs, h, List.append_assoc, List.singleton_append]
  calc
    skipGaps (Text.squeeze s) =
        skipGaps (Text.squeeze (gaps ++ [c]) ++ Text.squeeze rest) := by
      rw [hparts, Text.squeeze_append (htoken.endsFirm hc)]
    _ = c :: Text.squeeze rest := (htoken.squeeze_mark hc).skipGaps_append hgap _
    _ = Text.squeeze (skipGaps s) := by rw [h, Text.squeeze_cons_of_firm hc]

/-- A predicate in parentheses has the same normal text. -/
theorem PredicateText.normalize_wrap {p : Predicate} {s gaps gaps' : List Char}
    (h : PredicateText p s) (hgaps : Gaps gaps) (hgaps' : Gaps gaps') :
    normalizeAtomText (gaps ++ '(' :: (s ++ (gaps' ++ [')']))) = normalizeAtomText s := by
  have hclose : TokenText [')'] (gaps' ++ [')']) := ⟨gaps', hgaps', rfl⟩
  have hfirm : Text.EndsFirm ('(' :: (s ++ (gaps' ++ [')']))) :=
    ((hclose.endsFirm rfl).append s).append ['(']
  have htrim : Text.trim (gaps ++ '(' :: (s ++ (gaps' ++ [')']))) =
      '(' :: (s ++ (gaps' ++ [')'])) := by
    have hblanks : Text.trim (gaps ++ '(' :: (s ++ (gaps' ++ [')'])) ++ []) =
        '(' :: (s ++ (gaps' ++ [')'])) :=
      Text.trim_append_blanks rfl hfirm hgaps.isBlank (by simp)
    rwa [List.append_nil] at hblanks
  obtain ⟨gaps'', hgaps'', hsqueezed⟩ := hclose.squeeze_mark rfl
  have hwrapped : Text.squeeze ('(' :: (s ++ (gaps' ++ [')']))) =
      '(' :: ((Text.squeeze s ++ gaps'') ++ [')']) := by
    rw [Text.squeeze_cons_of_firm rfl, Text.squeeze_append h.endsFirm, hsqueezed,
      List.append_assoc]
  have hinside : Text.inside? (Text.trim ('(' :: ((Text.squeeze s ++ gaps'') ++ [')']))) =
      some (Text.squeeze s ++ gaps'') := by
    have hfirm' : Text.EndsFirm ('(' :: ((Text.squeeze s ++ gaps'') ++ [')'])) :=
      (Text.endsFirm_singleton (c := ')') rfl).append ('(' :: (Text.squeeze s ++ gaps''))
    rw [Text.trim_eq_self rfl hfirm']
    exact (h.squeeze.balanced.append hgaps''.balanced).inside?_wrap
  obtain ⟨c, rest, hstart, hc⟩ := h.starts
  have hskip := skipGaps_squeeze hstart (isBlank_of_startsPredicate hc)
  have hcore : Grammar.skipGaps (Text.squeeze (Grammar.skipGaps s)) =
      Grammar.skipGaps (Text.squeeze s) := by
    rw [skipGaps_squeeze (by rw [skipGaps_idem, hstart]) (isBlank_of_startsPredicate hc),
      skipGaps_idem, hskip]
  calc
    normalizeAtomText (gaps ++ '(' :: (s ++ (gaps' ++ [')']))) =
        Text.unwrap ('(' :: ((Text.squeeze s ++ gaps'') ++ [')'])) := by
      rw [normalizeAtomText, htrim, hwrapped]
    _ = Text.unwrap (Text.squeeze s ++ gaps'') := Text.unwrap_eq_unwrap_inside hinside
    _ = Text.unwrap (Text.squeeze (Text.trim s)) := by
      apply Text.unwrap_congr
      rw [h.squeeze.trim_append hgaps'', h.trim, h.skipGaps.squeeze.trim, hcore]
    _ = normalizeAtomText s := rfl

end TemporalRequirements.Grammar

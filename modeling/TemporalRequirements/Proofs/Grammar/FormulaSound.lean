import TemporalRequirements.Proofs.Grammar.FormulaText

/-!
# What a formula is read off

What a reader of formulas takes off a text is well nested: no token but the parentheses of a group
holds a parenthesis.  Operators judge bounds and join formulas, but leave atoms as they are, so
every atom that is returned was read off a part of what was taken off.
-/

namespace TemporalRequirements.Grammar

/-- A token without unmatched parentheses. -/
structure IsToken (s : List Char) : Prop where
  ne_nil : s ≠ []
  balanced : Text.Balanced s

def ReadsToken {α : Type} (read : Reader α) : Prop := Sound read fun _ ↦ IsToken

def isPlain (sign : List Char) : Bool := !sign.isEmpty && sign.all fun c ↦ c != '(' && c != ')'

theorem isPlain_iff {sign : List Char} :
    isPlain sign = true ↔ sign ≠ [] ∧ ∀ c ∈ sign, c ≠ '(' ∧ c ≠ ')' := by
  simp [isPlain]

theorem TokenText.isToken {sign s : List Char} (h : TokenText sign s)
    (hplain : isPlain sign = true) : IsToken s := by
  obtain ⟨gaps, hgaps, rfl⟩ := h
  obtain ⟨hne, hplain⟩ := isPlain_iff.mp hplain
  exact ⟨List.append_ne_nil_of_right_ne_nil gaps hne,
    hgaps.balanced.append (Text.Balanced.of_forall hplain)⟩

def isPlainTable {α : Type} (table : List (String × α)) : Bool :=
  table.all fun entry ↦ isPlain entry.1.toList

section Tokens

variable {α : Type}

theorem readsToken_symbol {table : List (String × α)} (h : isPlainTable table = true) :
    ReadsToken (symbol table) := by
  intro s a rest hread
  obtain ⟨sign, token, hmem, htoken, rfl⟩ := symbol_eq_some hread
  exact ⟨token, rfl, htoken.isToken (List.all_eq_true.mp h (sign, a) hmem)⟩

theorem readsToken_word : ReadsToken word := by
  intro s w rest hread
  obtain ⟨gaps, hgaps, rfl, hw, -⟩ := word_eq_some hread
  obtain ⟨c, tail, hstart, -⟩ := hw.starts
  refine ⟨gaps ++ w, (List.append_assoc gaps w rest).symm, ?_, ?_⟩
  · rw [hstart]
    exact List.append_ne_nil_of_right_ne_nil gaps (List.cons_ne_nil c tail)
  · exact hgaps.balanced.append (balanced_of_isPathPart hw.parts)

theorem readsToken_wordOf (table : List (String × α)) : ReadsToken (wordOf table) := by
  intro s a rest hread
  obtain ⟨⟨w, afterWord⟩, hword, hread⟩ := Option.bind_eq_some_iff.mp hread
  obtain ⟨entry, -, hresult⟩ := Option.bind_eq_some_iff.mp hread
  obtain ⟨-, rfl⟩ := Prod.mk.inj (Option.some.inj hresult)
  exact readsToken_word s w afterWord hword

end Tokens

theorem readsToken_levelOp (k : Nat) : ReadsToken (levelOp k) := by
  match k with
  | 0 => exact readsToken_wordOf _
  | 1 | 2 | 3 | 4 | 5 => exact readsToken_symbol rfl
  | _ + 6 =>
    intro s op rest hread
    cases hread

/-- What is read as a bound holds no parenthesis. -/
theorem boundAfter_sound (letter : String) (always : Bool) :
    Sound (boundAfter letter always) fun _ ↦ Text.Balanced := by
  intro s op rest hread
  obtain ⟨gaps, hgaps, hs⟩ := exists_gaps s
  obtain ⟨⟨⟨sign, relation⟩, afterSign⟩, hsign, hread⟩ := Option.bind_eq_some_iff.mp hread
  obtain ⟨gaps', hgaps', hafter⟩ := exists_gaps afterSign
  dsimp only at hread
  split at hread
  · cases hread
  · obtain ⟨-, rfl⟩ := Prod.mk.inj (Option.some.inj hread)
    obtain ⟨hmem, hskip⟩ := oneOf_eq_some hsign
    have hspelling : isPlainTable BoundRelation.spellings = true := rfl
    have hplain := (isPlain_iff.mp (List.all_eq_true.mp hspelling _ hmem)).2
    refine ⟨gaps ++ (sign.toList ++ (gaps' ++ (skipGaps afterSign).takeWhile Char.isDigit)), ?_, ?_⟩
    · simp only [List.append_assoc, List.takeWhile_append_dropWhile]
      rw [← hafter, ← hskip, ← hs]
    · have hdigits : Text.Balanced ((skipGaps afterSign).takeWhile Char.isDigit) :=
        balanced_of_isPathPart fun c hc ↦
          isPathPart_of_isDigit (List.all_eq_true.mp List.all_takeWhile c hc)
      exact hgaps.balanced.append
        ((Text.Balanced.of_forall hplain).append (hgaps'.balanced.append hdigits))

theorem readsToken_leadingOp : ReadsToken leadingOp := by
  intro s op rest hread
  obtain ⟨gaps, hgaps, hs⟩ := exists_gaps s
  unfold leadingOp at hread
  split at hread
  · rename_i tail hskip
    split at hread
    · cases hread
    · obtain ⟨-, rfl⟩ := Prod.mk.inj (Option.some.inj hread)
      have htoken : TokenText ['!'] (gaps ++ ['!']) := ⟨gaps, hgaps, rfl⟩
      refine ⟨gaps ++ ['!'], ?_, htoken.isToken rfl⟩
      rw [List.append_assoc, List.singleton_append, ← hskip, ← hs]
  · obtain ⟨⟨w, afterWord⟩, hword, hread⟩ := Option.bind_eq_some_iff.mp hread
    obtain ⟨span, hspan, htoken⟩ := readsToken_word _ _ _ hword
    have hparts : s = (gaps ++ span) ++ afterWord := by rw [List.append_assoc, ← hspan, ← hs]
    have hletter : IsToken (gaps ++ span) :=
      ⟨List.append_ne_nil_of_right_ne_nil gaps htoken.ne_nil, hgaps.balanced.append htoken.balanced⟩
    -- the letter alone, or with a bound after it
    have hbounded {letter : String} {always : Bool} {plain : LeadingOp}
        (hread : (boundAfter letter always afterWord <|> some (plain, afterWord)) =
          some (op, rest)) : ∃ span, s = span ++ rest ∧ IsToken span := by
      cases hbound : boundAfter letter always afterWord with
      | none =>
        rw [hbound] at hread
        obtain ⟨-, rfl⟩ := Prod.mk.inj (Option.some.inj hread)
        exact ⟨gaps ++ span, hparts, hletter⟩
      | some result =>
        rw [hbound] at hread
        obtain rfl := Option.some.inj hread
        obtain ⟨bound, rfl, hbalanced⟩ := boundAfter_sound letter always _ _ _ hbound
        exact ⟨(gaps ++ span) ++ bound, by rw [hparts, List.append_assoc (gaps ++ span)],
          List.append_ne_nil_of_left_ne_nil hletter.ne_nil bound, hletter.balanced.append hbalanced⟩
    dsimp only at hread
    split at hread
    · obtain ⟨-, rfl⟩ := Prod.mk.inj (Option.some.inj hread)
      exact ⟨gaps ++ span, hparts, hletter⟩
    · exact hbounded hread
    · exact hbounded hread
    · cases hread

/-! ## Atoms in a text -/

/-- The atoms of a judged formula; one that is rejected has none. -/
def judgedAtoms : Judged → List Atom
  | .ok f => f.atoms
  | .error _ => []

/-- An operator before an operand adds no atom. -/
theorem judgedAtoms_apply (op : LeadingOp) (j : Judged) :
    judgedAtoms (op.apply j) ⊆ judgedAtoms j := by
  intro a ha
  cases j with
  | error e => cases ha
  | ok f =>
    cases op with
    | plain op => exact ha
    | bounded written =>
      rw [LeadingOp.apply] at ha
      cases hmeaning : written.meaning with
      | error e =>
        simp only [hmeaning] at ha
        cases ha
      | ok result =>
        simp only [hmeaning] at ha
        exact ha

theorem judgedAtoms_joinJudged (op : BinaryOp) (l r : Judged) :
    judgedAtoms (joinJudged op l r) ⊆ judgedAtoms l ++ judgedAtoms r := by
  intro a ha
  cases l with
  | error e => cases ha
  | ok f =>
    cases r with
    | error e => cases ha
    | ok g => exact ha

/-- A chain has the atoms of its operands. -/
theorem judgedAtoms_joinRight (j : Judged) (others : List (BinaryOp × Judged)) :
    judgedAtoms (joinRight joinJudged j others) ⊆
      judgedAtoms j ++ others.flatMap fun link ↦ judgedAtoms link.2 := by
  induction others generalizing j with
  | nil => exact List.subset_append_left _ _
  | cons link others ih =>
    intro a ha
    rcases List.mem_append.mp (judgedAtoms_joinJudged link.1 _ _ ha) with ha | ha
    · exact List.mem_append_left _ ha
    · rw [List.flatMap_cons]
      exact List.mem_append_right _ (ih link.2 ha)

def ReadOff (a : Atom) (part : List Char) : Prop :=
  ∃ p, PredicateText p part ∧ p.formula (String.ofList (normalizeAtomText part)) = .atom a

/-- Atoms that stand in a text: each is read off a part of it. -/
def Placed (s : List Char) (atoms : List Atom) : Prop :=
  ∀ a ∈ atoms, ∃ part, part <:+: s ∧ ReadOff a part

theorem Placed.within {s s' : List Char} {atoms : List Atom} (h : Placed s atoms)
    (hs : s <:+: s') : Placed s' atoms := by
  intro a ha
  obtain ⟨part, hpart, hread⟩ := h a ha
  exact ⟨part, hpart.trans hs, hread⟩

theorem Placed.append {s s' : List Char} {atoms atoms' : List Atom} (h : Placed s atoms)
    (h' : Placed s' atoms') : Placed (s ++ s') (atoms ++ atoms') := by
  intro a ha
  rcases List.mem_append.mp ha with ha | ha
  · exact h.within (List.prefix_append s s').isInfix a ha
  · exact h'.within (List.suffix_append s s').isInfix a ha

theorem Placed.subset {s : List Char} {atoms atoms' : List Atom} (h : Placed s atoms)
    (hsubset : atoms' ⊆ atoms) : Placed s atoms' :=
  fun a ha ↦ h a (hsubset ha)

/-- A well-nested text in which the atoms of a judged formula stand. -/
structure SpanOf (j : Judged) (s : List Char) : Prop where
  balanced : Text.Balanced s
  atoms : Placed s (judgedAtoms j)

namespace SpanOf

theorem relation {p : Predicate} {s : List Char} (h : PredicateText p s) :
    SpanOf (.ok (p.formula (String.ofList (normalizeAtomText s)))) s where
  balanced := h.balanced
  atoms _ ha := ⟨s, List.infix_rfl, p, h, Predicate.formula_of_mem_atoms ha⟩

theorem group {j : Judged} {s s' s'' : List Char} (h : SpanOf j s') (hopen : TokenText ['('] s)
    (hclose : TokenText [')'] s'') : SpanOf j (s ++ (s' ++ s'')) where
  balanced := balanced_group hopen h.balanced hclose
  atoms := h.atoms.within ⟨s, s'', List.append_assoc s s' s''⟩

theorem leading {j : Judged} {s s' : List Char} (h : SpanOf j s') (hs : Text.Balanced s)
    (ops : List LeadingOp) : SpanOf (ops.foldr LeadingOp.apply j) (s ++ s') where
  balanced := hs.append h.balanced
  atoms := by
    have hsubset : judgedAtoms (ops.foldr LeadingOp.apply j) ⊆ judgedAtoms j := by
      induction ops with
      | nil => exact List.Subset.refl _
      | cons op ops ih => exact List.Subset.trans (judgedAtoms_apply op _) ih
    exact (h.atoms.within (List.suffix_append s s').isInfix).subset hsubset

end SpanOf

/-! ## Readers of formulas -/

section Readers

variable {α : Type} {n : Nat}

/-- Tokens read one after another leave no unmatched parenthesis. -/
theorem many_sound {read : Reader α} (h : ReadsToken read) {s rest : List Char} {tokens : List α}
    (hread : many read n s = (tokens, rest)) : ∃ span, s = span ++ rest ∧ Text.Balanced span := by
  induction n generalizing s tokens with
  | zero =>
    obtain ⟨-, rfl⟩ := Prod.mk.inj hread
    exact ⟨[], rfl, .nil⟩
  | succ n ih =>
    rw [many] at hread
    split at hread
    · obtain ⟨-, rfl⟩ := Prod.mk.inj hread
      exact ⟨[], rfl, .nil⟩
    · rename_i a afterToken htoken
      obtain ⟨token, rfl, hsolid⟩ := h _ _ _ htoken
      cases hmore : many read n afterToken with
      | mk more final =>
        rw [hmore] at hread
        obtain ⟨-, rfl⟩ := Prod.mk.inj hread
        obtain ⟨span, rfl, hspan⟩ := ih hmore
        exact ⟨token ++ span, by rw [List.append_assoc], hsolid.balanced.append hspan⟩

/-- The operands joined to a first one stand behind it. -/
theorem links_span {op : Reader BinaryOp} {read : Reader Judged} (hop : ReadsToken op)
    (hread : Sound read SpanOf) {s rest : List Char} {others : List (BinaryOp × Judged)}
    (h : links op read n s = (others, rest)) :
    ∃ span, s = span ++ rest ∧ Text.Balanced span ∧
      Placed span (others.flatMap fun link ↦ judgedAtoms link.2) := by
  have hstop {others : List (BinaryOp × Judged)} {s : List Char} (h : ([], s) = (others, rest)) :
      ∃ span, s = span ++ rest ∧ Text.Balanced span ∧
        Placed span (others.flatMap fun link ↦ judgedAtoms link.2) := by
    obtain ⟨rfl, rfl⟩ := Prod.mk.inj h
    exact ⟨[], rfl, .nil, fun a ha ↦ by cases ha⟩
  induction n generalizing s others with
  | zero => exact hstop h
  | succ n ih =>
    rw [links] at h
    split at h
    · exact hstop h
    · rename_i o afterOp htoken
      split at h
      · exact hstop h
      · rename_i j afterOperand hoperand
        obtain ⟨token, rfl, hsolid⟩ := hop _ _ _ htoken
        obtain ⟨span, rfl, hspan⟩ := hread _ _ _ hoperand
        cases hmore : links op read n afterOperand with
        | mk more final =>
          rw [hmore] at h
          obtain ⟨rfl, rfl⟩ := Prod.mk.inj h
          obtain ⟨tail, rfl, hbalanced, hatoms⟩ := ih hmore
          refine ⟨token ++ (span ++ tail), by simp,
            hsolid.balanced.append (hspan.balanced.append hbalanced), ?_⟩
          rw [List.flatMap_cons]
          exact (hspan.atoms.append hatoms).within (List.suffix_append token _).isInfix

/-- A relation or a formula in parentheses is the span that it takes off. -/
theorem primary_sound {inner : Reader Judged} (h : Sound inner SpanOf) :
    Sound (primary (termUpTo n) inner) SpanOf := by
  intro s j rest hread
  unfold primary at hread
  split at hread
  · rename_i f rest' hrelation
    obtain ⟨rfl, rfl⟩ := Prod.mk.inj (Option.some.inj hread)
    obtain ⟨span, p, rfl, hspan, rfl⟩ := relation_sound hrelation
    exact ⟨span, rfl, SpanOf.relation hspan⟩
  · obtain ⟨afterOpen, hopen, hread⟩ := Option.bind_eq_some_iff.mp hread
    obtain ⟨⟨f, afterInner⟩, hinner, hread⟩ := Option.bind_eq_some_iff.mp hread
    obtain ⟨afterClose, hclose, hresult⟩ := Option.bind_eq_some_iff.mp hread
    obtain ⟨rfl, rfl⟩ := Prod.mk.inj (Option.some.inj hresult)
    obtain ⟨opener, hopener, rfl⟩ := mark_eq_some hopen
    obtain ⟨span, rfl, hspan⟩ := h _ _ _ hinner
    obtain ⟨closer, hcloser, rfl⟩ := mark_eq_some hclose
    exact ⟨opener ++ (span ++ closer), by simp, hspan.group hopener hcloser⟩

theorem factor_sound {read : Reader Judged} (h : Sound read SpanOf) :
    Sound (factor read n) SpanOf := by
  intro s j rest hread
  obtain ⟨⟨f, final⟩, hf, hresult⟩ := Option.bind_eq_some_iff.mp hread
  obtain ⟨rfl, rfl⟩ := Prod.mk.inj (Option.some.inj hresult)
  obtain ⟨ops, hops, hbalanced⟩ := many_sound readsToken_leadingOp (n := n) (s := s) rfl
  obtain ⟨span, hrest, hspan⟩ := h _ _ _ hf
  exact ⟨ops ++ span, by rw [List.append_assoc, ← hrest, ← hops], hspan.leading hbalanced _⟩

/-- The formulas of a level are the spans that they take off. -/
theorem level_sound {op : Reader BinaryOp} {read : Reader Judged} (hop : ReadsToken op)
    (h : Sound read SpanOf) : Sound (level op read n) SpanOf := by
  intro s j rest hread
  obtain ⟨⟨⟨first, others⟩, final⟩, hchain, hresult⟩ := Option.bind_eq_some_iff.mp hread
  obtain ⟨rfl, rfl⟩ := Prod.mk.inj (Option.some.inj hresult)
  obtain ⟨afterFirst, hfirst, hlinks⟩ := chain_eq_some.mp hchain
  obtain ⟨span, rfl, hspan⟩ := h _ _ _ hfirst
  obtain ⟨tail, rfl, hbalanced, hatoms⟩ := links_span hop h hlinks
  exact ⟨span ++ tail, by rw [List.append_assoc], hspan.balanced.append hbalanced,
    (hspan.atoms.append hatoms).subset (judgedAtoms_joinRight first others)⟩

theorem readFormulaLevel_sound (h : Sound (formulaUpTo n) SpanOf) (k : Nat) :
    Sound (readFormulaLevel n k) SpanOf := by
  induction k with
  | zero => exact factor_sound (primary_sound h)
  | succ k ih => exact level_sound (readsToken_levelOp k) ih

/-- What is read as a formula is well nested, and the atoms of the formula stand in it. -/
theorem formulaUpTo_sound (n : Nat) : Sound (formulaUpTo n) SpanOf := by
  induction n with
  | zero =>
    intro s j rest hread
    cases hread
  | succ n ih => exact readFormulaLevel_sound ih 6

end Readers

/-- A text that is read as a formula is a span of the formula before gaps. -/
theorem exists_span_of_parse {text : String} {f : Formula} (h : Formula.parse text = .ok f) :
    ∃ span gaps, text.toList = span ++ gaps ∧ Gaps gaps ∧ SpanOf (.ok f) span ∧
      formulaUpTo (text.toList.length + 1) text.toList = some (.ok f, gaps) ∧
      Text.nesting text.toList ≤ maxNesting := by
  unfold Formula.parse at h
  dsimp only at h
  split at h
  · cases h
  · split at h
    · cases h
    · rename_i hnesting
      unfold wholeFormula at h
      split at h
      · rename_i j rest hread
        split at h
        · rename_i hend
          subst h
          obtain ⟨span, hs, hspan⟩ := formulaUpTo_sound _ _ _ _ hread
          obtain ⟨gaps, hgaps, hrest⟩ := exists_gaps rest
          rw [List.isEmpty_iff.mp hend, List.append_nil] at hrest
          rw [← hrest] at hgaps
          exact ⟨span, rest, hs, hgaps, hspan, hread, Nat.le_of_not_lt hnesting⟩
        · cases h
      · cases h

/-- Every atom of a formula that is read is well read. -/
theorem wellRead_of_parse {text : String} {f : Formula} (h : Formula.parse text = .ok f) :
    ∀ a ∈ f.atoms, a.WellRead := by
  intro a ha
  obtain ⟨span, -, -, -, hspan, -⟩ := exists_span_of_parse h
  obtain ⟨part, -, p, hpart, hformula⟩ := hspan.atoms a ha
  exact wellRead_of_formula hpart hformula

end TemporalRequirements.Grammar

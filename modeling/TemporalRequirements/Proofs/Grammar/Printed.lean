import TemporalRequirements.Formula.Dialect
import TemporalRequirements.Proofs.Grammar.FormulaSound
import TemporalRequirements.Proofs.Text.Digits

/-!
# Printed texts are read back

The text of a formula in a dialect that is readable spells the formula, whatever texts its atoms
have that spell them.  So the canonical text of a formula that was read is read as the same formula,
unless its parentheses nest too deep.
-/

namespace TemporalRequirements

inductive BinaryOp.SpelledAs : BinaryOp → String → Prop where
  | and : SpelledAs .and "&&"
  | shortAnd : SpelledAs .and "&"
  | or : SpelledAs .or "||"
  | shortOr : SpelledAs .or "|"
  | xor : SpelledAs .xor "^"
  | implies : SpelledAs .implies "->"
  | iff : SpelledAs .iff "<->"
  | strongUntil : SpelledAs .strongUntil "U"
  | release : SpelledAs .release "V"
  | releaseLetter : SpelledAs .release "R"
  | weakUntil : SpelledAs .weakUntil "W"

def BinaryOp.level : BinaryOp → Nat
  | .strongUntil | .release | .weakUntil => 0
  | .and => 1
  | .xor => 2
  | .or => 3
  | .implies => 4
  | .iff => 5

/-- The binary operators of a formula, repeated ones included. -/
def Formula.binaryOps : Formula → List BinaryOp
  | const _ | atom _ => []
  | unary _ f | bounded _ _ f => binaryOps f
  | binary op l r => op :: (binaryOps l ++ binaryOps r)

/-- A dialect whose spellings of truth values, letters and the given operators are all read as what
they stand for. -/
structure Dialect.IsReadable (d : Dialect) (ops : List BinaryOp) : Prop where
  truth : ∀ b, (d.truth b, b) ∈ Grammar.truthWords
  letters : d.unary = letters
  spelled : ∀ op ∈ ops, op.SpelledAs (d.binary op)

theorem Dialect.IsReadable.mono {d : Dialect} {ops ops' : List BinaryOp} (h : d.IsReadable ops)
    (hops : ops' ⊆ ops) : d.IsReadable ops' :=
  ⟨h.truth, h.letters, fun op hop ↦ h.spelled op (hops hop)⟩

theorem Dialect.spelledAs_canonical (op : BinaryOp) : op.SpelledAs (canonical.binary op) := by
  cases op <;> constructor

theorem Dialect.truth_canonical (b : Bool) : (canonical.truth b, b) ∈ Grammar.truthWords := by
  cases b <;> decide

theorem Dialect.isReadable_canonical (ops : List BinaryOp) : canonical.IsReadable ops where
  truth := truth_canonical
  letters := rfl
  spelled op _ := spelledAs_canonical op

/-- The text of a formula in a dialect, where `leaf` spells an atom as an operand and alone. -/
def Formula.spellWith (d : Dialect) (leaf : Bool → Atom → List Char) (operand : Bool) :
    Formula → List Char
  | const b => (d.truth b).toList
  | atom a => leaf operand a
  | unary .not f => '!' :: spellWith d leaf true f
  | unary op f => (Dialect.letters op).toList ++ '(' :: (spellWith d leaf false f ++ [')'])
  | bounded op n f => (op.spell n).toList ++ '(' :: (spellWith d leaf false f ++ [')'])
  | binary op l r =>
    let joined := spellWith d leaf true l ++
      (' ' :: (d.binary op).toList ++ ' ' :: spellWith d leaf true r)
    if operand then '(' :: (joined ++ [')']) else joined

/-- Printing is spelling, with the texts of atoms in parentheses where they are operands. -/
theorem Formula.toList_printWith {d : Dialect} (hletters : d.unary = Dialect.letters)
    (atomText : Atom → String) (operand : Bool) (f : Formula) :
    (f.printWith d atomText operand).toList =
      f.spellWith d (fun operand a ↦
        (parenthesizedIf (operand && !Text.isSimple (atomText a).toList) (atomText a)).toList)
        operand := by
  induction f generalizing operand with
  | const b => rfl
  | atom a => rfl
  | unary op f ih =>
    cases op <;> simp [printWith, spellWith, ih, hletters, Dialect.letters]
  | bounded op n f ih => simp [printWith, spellWith, ih]
  | binary op l r ihl ihr =>
    cases operand <;> simp [printWith, spellWith, ihl, ihr, parenthesizedIf]

namespace Grammar

theorem PredicateText.gaps {p : Predicate} {gaps s : List Char} (hgaps : Gaps gaps)
    (h : PredicateText p s) : PredicateText p (gaps ++ s) := by
  cases h with
  | holds hs => exact .holds (hs.gaps rfl hgaps)
  | compare hl hop hr =>
    rw [← List.append_assoc]
    exact .compare (hl.gaps rfl hgaps) hop hr

theorem normalizeAtomText_gaps {p : Predicate} {gaps s : List Char} (hgaps : Gaps gaps)
    (h : PredicateText p s) : normalizeAtomText (gaps ++ s) = normalizeAtomText s := by
  rw [normalizeAtomText, normalizeAtomText, (h.gaps hgaps).trim, h.trim, skipGaps_append hgaps]

theorem leadingOp_gaps {gaps : List Char} (hgaps : Gaps gaps) (s : List Char) :
    leadingOp (gaps ++ s) = leadingOp s := by
  rw [leadingOp, leadingOp, skipGaps_append hgaps]

/-- A formula is spelled as well with gaps in front. -/
theorem FormulaText.gaps {k : Nat} {f : Formula} {gaps s : List Char} (hgaps : Gaps gaps)
    (h : FormulaText k f s) : FormulaText k f (gaps ++ s) := by
  induction h with
  | relation hs =>
    rw [← normalizeAtomText_gaps hgaps hs]
    exact .relation (hs.gaps hgaps)
  | paren hopen hs hclose _ =>
    rw [← List.append_assoc]
    exact .paren (hopen.gaps hgaps) hs hclose
  | @leading op f g s s' hop happly hs _ =>
    rw [← List.append_assoc]
    refine .leading ⟨fun rest ↦ ?_, hgaps.balanced.append hop.balanced, ?_⟩ happly hs
    · rw [List.append_assoc, leadingOp_gaps hgaps, hop.reads]
    · exact List.append_ne_nil_of_right_ne_nil gaps hop.ne_nil
  | lift _ ih => exact .lift ih
  | join _ hop hr ih _ =>
    rw [← List.append_assoc]
    exact .join ih hop hr

/-! ## Operators -/

theorem levelOp_spelling {op : BinaryOp} {spelling : String} (h : op.SpelledAs spelling)
    (rest : List Char) :
    levelOp op.level (' ' :: spelling.toList ++ ' ' :: rest) = some (op, ' ' :: rest) := by
  cases h <;> rfl

/-- A formula of a tighter level ends before a binary operator. -/
theorem formulaEnd_spelling {op : BinaryOp} {spelling : String} (h : op.SpelledAs spelling)
    (rest : List Char) : FormulaEnd op.level (' ' :: spelling.toList ++ rest) := by
  refine ⟨⟨⟨⟨Detached.of_gap rfl _, ?_⟩, ?_⟩, ?_⟩, ?_⟩
  · cases h <;> rfl
  · intro j hj
    match j, hj with
    | 0, _ | 1, _ => cases h <;> rfl
  · cases h <;> rfl
  · intro j hj
    cases h with
    | strongUntil | release | releaseLetter | weakUntil => cases hj
    | and | shortAnd => match j, hj with | 0, _ => rfl
    | xor => match j, hj with | 0, _ | 1, _ => rfl
    | or | shortOr => match j, hj with | 0, _ | 1, _ | 2, _ => rfl
    | implies => match j, hj with | 0, _ | 1, _ | 2, _ | 3, _ => rfl
    | iff => match j, hj with | 0, _ | 1, _ | 2, _ | 3, _ | 4, _ => rfl

theorem joinText_spelling {op : BinaryOp} {spelling : String} (h : op.SpelledAs spelling)
    (s : List Char) : JoinText op.level op (' ' :: spelling.toList) (' ' :: s) := by
  refine ⟨fun rest ↦ levelOp_spelling h (s ++ rest),
    fun rest ↦ formulaEnd_spelling h (' ' :: s ++ rest), ?_, List.cons_ne_nil _ _⟩
  apply Text.Balanced.of_forall
  cases h <;> exact Text.forall_mem_of_all rfl

theorem joinText_canonical (op : BinaryOp) (s : List Char) :
    JoinText op.level op (' ' :: (Dialect.canonical.binary op).toList) (' ' :: s) :=
  joinText_spelling (Dialect.spelledAs_canonical op) s

/-- An operator before an operand starts with `!` or a letter. -/
theorem leadingOp_starts {op : LeadingOp} {s rest : List Char}
    (h : leadingOp s = some (op, rest)) :
    ∃ c tail, skipGaps s = c :: tail ∧ (c = '!' ∨ Text.isNameStart c = true) := by
  cases hskip : skipGaps s with
  | nil =>
    rw [leadingOp, hskip] at h
    cases h
  | cons c tail =>
    refine ⟨c, tail, rfl, ?_⟩
    by_cases hbang : c = '!'
    · exact Or.inl hbang
    · cases hname : Text.isNameStart c with
      | true => exact Or.inr rfl
      | false =>
        have hnone := many_leadingOp_eq_nil hskip hbang hname 1
        rw [many, h] at hnone
        cases hnone

/-- The characters with which the bound of an operator goes on after its letter. -/
def startsBound (c : Char) : Bool := c ∈ ['=', '<', '≤', '>', '≥']

theorem startsBound_of_startsOperand {c : Char} (h : startsOperand c = true) :
    startsBound c = false := by
  cases hbound : startsBound c with
  | false => rfl
  | true =>
    simp only [startsBound, List.mem_cons, List.not_mem_nil, or_false, decide_eq_true_eq]
      at hbound
    rcases hbound with rfl | rfl | rfl | rfl | rfl <;> cases h

/-- No formula starts like the bound of an operator. -/
theorem FormulaText.starts {k : Nat} {f : Formula} {s : List Char} (h : FormulaText k f s) :
    ∃ c rest, skipGaps s = c :: rest ∧ startsBound c = false := by
  induction h with
  | relation hs =>
    obtain ⟨c, rest, hskip, hc⟩ := hs.starts
    refine ⟨c, rest, hskip, ?_⟩
    rcases hc with rfl | hc
    · rfl
    · exact startsBound_of_startsOperand hc
  | paren hopen _ _ _ => exact ⟨'(', _, hopen.skipGaps_append rfl _, by decide⟩
  | @leading op f g s s' hop _ _ _ =>
    have hreads := hop.reads []
    rw [List.append_nil] at hreads
    obtain ⟨c, rest, hskip, hc⟩ := leadingOp_starts hreads
    refine ⟨c, rest, hskip, ?_⟩
    rcases hc with rfl | hc
    · rfl
    · exact startsBound_of_startsOperand (by simp [startsOperand, hc])
  | lift _ ih => exact ih
  | join _ _ _ ih _ =>
    obtain ⟨c, rest, hskip, hc⟩ := ih
    exact ⟨c, _, skipGaps_append_of_cons hskip _, hc⟩

theorem leadingText_not {k : Nat} {f : Formula} {s : List Char} (h : FormulaText k f s) :
    LeadingText (.plain .not) ['!'] s := by
  refine ⟨fun rest ↦ ?_, Text.Balanced.of_forall (Text.forall_mem_of_all rfl),
    List.cons_ne_nil _ _⟩
  obtain ⟨c, tail, hskip, hc⟩ := h.starts
  have hhead : (skipGaps (s ++ rest)).head? ≠ some '=' := by
    rw [skipGaps_append_of_cons hskip]
    intro heq
    obtain rfl := Option.some.inj heq
    cases hc
  have hbang : skipGaps (['!'] ++ (s ++ rest)) = '!' :: (s ++ rest) := rfl
  rw [leadingOp, hbang]
  exact if_neg hhead

/-- No bound is read where no comparison stands. -/
theorem boundAfter_eq_none {c : Char} {s tail : List Char} (hskip : skipGaps s = c :: tail)
    (hc : startsBound c = false) (letter : String) (always : Bool) :
    boundAfter letter always s = none := by
  simp only [startsBound, List.mem_cons, List.not_mem_nil, or_false, decide_eq_false_iff_not,
    not_or] at hc
  obtain ⟨heq, hlt, hle, hgt, hge⟩ := hc
  simp [boundAfter, hskip, BoundRelation.spellings, oneOf, Text.after?, Ne.symm heq, Ne.symm hlt,
    Ne.symm hle, Ne.symm hgt, Ne.symm hge]

/-- A letter that is a word of its own is read by itself. -/
theorem leadingOp_letter {c : Char} {s : List Char} (hc : Text.isNameStart c = true)
    (hs : Detached s) :
    leadingOp (c :: s) =
      if c = 'X' then some (.plain .next, s)
      else if c = 'F' then boundAfter "F" false s <|> some (.plain .eventually, s)
      else if c = 'G' then boundAfter "G" true s <|> some (.plain .always, s)
      else none := by
  have hpart := Text.isPathPart_of_isNameStart hc
  have hword : WordText [c] :=
    ⟨⟨c, [], rfl, hc⟩, fun d hd ↦ by rw [List.mem_singleton.mp hd, hpart]⟩
  have hread : word (c :: s) = some ([c], s) := hword.word_append hs
  unfold leadingOp
  rw [skipGaps_cons_of_not_gap (isGap_of_isPathPart hpart)]
  split
  · rename_i heq
    obtain ⟨rfl, -⟩ := List.cons.inj heq
    cases hc
  · rw [hread]
    by_cases hnext : c = 'X'
    · subst hnext; rfl
    by_cases heventually : c = 'F'
    · subst heventually; rfl
    by_cases halways : c = 'G'
    · subst halways; rfl
    simp [hnext, heventually, halways]

/-- A letter is an operator before an operand that is no part of the letter's word. -/
theorem leadingText_letter {op : UnaryOp} {k : Nat} {f : Formula} {s : List Char} (hop : op ≠ .not)
    (h : FormulaText k f s) (hs : ∀ rest, Detached (s ++ rest)) :
    LeadingText (.plain op) (Dialect.letters op).toList s := by
  obtain ⟨c, tail, hskip, hc⟩ := h.starts
  have hnone (letter : String) (always : Bool) (rest : List Char) :
      boundAfter letter always (s ++ rest) = none :=
    boundAfter_eq_none (skipGaps_append_of_cons hskip rest) hc letter always
  refine ⟨fun rest ↦ ?_, ?_, ?_⟩
  · cases op with
    | not => exact absurd rfl hop
    | next => exact leadingOp_letter rfl (hs rest)
    | eventually =>
      refine (leadingOp_letter (c := 'F') rfl (hs rest)).trans ?_
      rw [hnone "F" false]
      rfl
    | always =>
      refine (leadingOp_letter (c := 'G') rfl (hs rest)).trans ?_
      rw [hnone "G" true]
      rfl
  · apply Text.Balanced.of_forall
    cases op <;> exact Text.forall_mem_of_all rfl
  · cases op <;> exact List.cons_ne_nil _ _

def writtenBound (op : BoundedOp) (n : UInt32) : WrittenBound where
  always := op = .alwaysWithin
  relation := if op = .exactly then .exactly else .atMost
  digits := Nat.toDigits 10 n.toNat
  text := op.spell n

theorem meaning_writtenBound (op : BoundedOp) (n : UInt32) :
    (writtenBound op n).meaning = .ok (op, n) := by
  have hvalue : Text.decimalValue (writtenBound op n).digits = n.toNat :=
    Text.decimalValue_toDigits _
  have hsmall : ¬ n.toNat ≥ UInt32.size := Nat.not_le.mpr n.toNat_lt
  simp only [WrittenBound.meaning, hvalue, if_neg hsmall]
  cases op <;> simp [writtenBound]

theorem apply_writtenBound (op : BoundedOp) (n : UInt32) (f : Formula) :
    (LeadingOp.bounded (writtenBound op n)).apply (.ok f) = .ok (.bounded op n f) := by
  simp only [LeadingOp.apply, bind, Except.bind, meaning_writtenBound]
  rfl

/-- The digits of a bound are read up to where a number ends. -/
theorem boundAfter_digits (letter sign : String) (always : Bool) (relation : BoundRelation)
    {digits rest : List Char} (hne : digits ≠ []) (hdigits : ∀ d ∈ digits, d.isDigit = true)
    (hrest : Detached rest)
    (hsign : oneOf BoundRelation.spellings (skipGaps (sign.toList ++ (digits ++ rest))) =
      some ((sign, relation), digits ++ rest)) :
    boundAfter letter always (sign.toList ++ (digits ++ rest)) =
      some (.bounded ⟨always, relation, digits, letter ++ sign ++ String.ofList digits⟩,
        rest) := by
  obtain ⟨c, tail, rfl⟩ := List.exists_cons_of_ne_nil hne
  have hc := hdigits c List.mem_cons_self
  have hskip : skipGaps (c :: tail ++ rest) = c :: tail ++ rest :=
    skipGaps_cons_of_not_gap (isGap_of_isPathPart (isPathPart_of_isDigit hc)) _
  obtain ⟨htake, hdrop⟩ := takeWhile_append_detached hdigits
    (fun d hd ↦ isPathPart_of_isDigit hd) hrest
  simp only [boundAfter, hsign, Option.bind_eq_bind, Option.bind_some, hskip, htake, hdrop]
  rfl

/-- A bounded operator is read off its spelling. -/
theorem leadingOp_bounded (op : BoundedOp) {digits rest : List Char} (hne : digits ≠ [])
    (hdigits : ∀ d ∈ digits, d.isDigit = true) (hrest : Detached rest) :
    leadingOp (op.symbol.toList ++ (digits ++ rest)) =
      some (.bounded ⟨op = .alwaysWithin, if op = .exactly then .exactly else .atMost, digits,
        op.symbol ++ String.ofList digits⟩, rest) := by
  cases op with
  | exactly =>
    have hbound := boundAfter_digits "F" "=" false .exactly hne hdigits hrest rfl
    exact congrArg (· <|> some (.plain .eventually, _)) hbound
  | eventuallyWithin =>
    have hbound := boundAfter_digits "F" "<=" false .atMost hne hdigits hrest rfl
    exact congrArg (· <|> some (.plain .eventually, _)) hbound
  | alwaysWithin =>
    have hbound := boundAfter_digits "G" "<=" true .atMost hne hdigits hrest rfl
    exact congrArg (· <|> some (.plain .always, _)) hbound

theorem leadingText_bounded (op : BoundedOp) (n : UInt32) {s : List Char}
    (hs : ∀ rest, Detached (s ++ rest)) :
    LeadingText (.bounded (writtenBound op n)) (op.spell n).toList s := by
  have hne : Nat.toDigits 10 n.toNat ≠ [] := Nat.toDigits_ne_nil
  have hdigits := Text.isDigit_of_mem_toDigits n.toNat
  have htext : op.spell n = op.symbol ++ String.ofList (Nat.toDigits 10 n.toNat) := by
    rw [BoundedOp.spell, Nat.toString_eq_ofList_toDigits]
  have hspell : (op.spell n).toList = op.symbol.toList ++ Nat.toDigits 10 n.toNat := by
    rw [htext, String.toList_append, String.toList_ofList]
  have hsign : Text.Balanced op.symbol.toList := by
    apply Text.Balanced.of_forall
    cases op <;> exact Text.forall_mem_of_all rfl
  rw [hspell]
  refine ⟨fun rest ↦ ?_, ?_, List.append_ne_nil_of_right_ne_nil _ hne⟩
  · rw [List.append_assoc, writtenBound, htext]
    exact leadingOp_bounded op hne hdigits (hs rest)
  · exact hsign.append (balanced_of_isPathPart fun d hd ↦ isPathPart_of_isDigit (hdigits d hd))

/-! ## Printed texts spell formulas -/

theorem formulaText_const {truth : String} {b : Bool} (h : (truth, b) ∈ truthWords) :
    FormulaText 0 (.const b) truth.toList := by
  have hterm : TermText (.level 2 (.truth b)) (truth.toList ++ [] ++ []) :=
    .chain (.chain (.factor (.unsigned (.truth h))) .stop) .stop
  rw [List.append_nil, List.append_nil] at hterm
  exact .relation (.holds hterm)

theorem FormulaText.wrap {f : Formula} {s : List Char} (h : FormulaText 6 f s) :
    FormulaText 0 f ('(' :: (s ++ [')'])) :=
  .paren (TokenText.self ['(']) h (TokenText.self [')'])

/-- An operand is a formula of its own. -/
theorem FormulaText.alone {f : Formula} {s : List Char} (h : FormulaText 0 f s) :
    FormulaText 6 f s :=
  h.lift_le (Nat.zero_le 6)

theorem FormulaText.letter {op : UnaryOp} {f : Formula} {s : List Char} (hop : op ≠ .not)
    (h : FormulaText 6 f s) :
    FormulaText 0 (.unary op f) ((Dialect.letters op).toList ++ '(' :: (s ++ [')'])) :=
  .leading (leadingText_letter hop h.wrap fun _ ↦ detached_cons rfl _) rfl h.wrap

/-- The text of a formula in a readable dialect spells it, if the texts of its atoms do. -/
theorem formulaText_spellWith {d : Dialect} {leaf : Bool → Atom → List Char} {f : Formula}
    (hd : d.IsReadable f.binaryOps)
    (h : ∀ a ∈ f.atoms, ∀ operand, FormulaText 0 (.atom a) (leaf operand a)) :
    FormulaText 0 f (f.spellWith d leaf true) ∧ FormulaText 6 f (f.spellWith d leaf false) := by
  -- operands are made of texts that stand alone and the other way round, so both go together
  induction f with
  | const b =>
    have htext := formulaText_const (hd.truth b)
    exact ⟨htext, htext.alone⟩
  | atom a =>
    have hleaf := h a List.mem_cons_self
    exact ⟨hleaf true, (hleaf false).alone⟩
  | unary op f ih =>
    obtain ⟨hoperand, halone⟩ := ih hd h
    cases op with
    | not =>
      have htext := FormulaText.leading (leadingText_not hoperand) rfl hoperand
      exact ⟨htext, htext.alone⟩
    | next | eventually | always =>
      exact ⟨.letter (by decide) halone, .alone (.letter (by decide) halone)⟩
  | bounded op n f ih =>
    obtain ⟨-, halone⟩ := ih hd h
    have hop : LeadingText (.bounded (writtenBound op n)) (op.spell n).toList
        ('(' :: (f.spellWith d leaf false ++ [')'])) :=
      leadingText_bounded op n fun _ ↦ detached_cons rfl _
    have htext := FormulaText.leading hop (apply_writtenBound op n f) halone.wrap
    exact ⟨htext, htext.alone⟩
  | binary op l r ihl ihr =>
    have hdl := hd.mono fun op hop ↦ List.mem_cons_of_mem _ (List.mem_append_left _ hop)
    have hdr := hd.mono fun op hop ↦ List.mem_cons_of_mem _ (List.mem_append_right _ hop)
    obtain ⟨hl, -⟩ := ihl hdl fun a ha ↦ h a (List.mem_append_left _ ha)
    obtain ⟨hr, -⟩ := ihr hdr fun a ha ↦ h a (List.mem_append_right _ ha)
    -- the space after the operator belongs to the right operand
    have hright := hr.gaps (Gaps.cons (c := ' ') rfl Gaps.nil)
    have hop := joinText_spelling (hd.spelled op List.mem_cons_self)
    have hjoined := FormulaText.join (hl.lift_le (Nat.zero_le _)) (hop _)
      (hright.lift_le (Nat.zero_le _))
    have hlevel : op.level + 1 ≤ 6 := by cases op <;> decide
    exact ⟨(hjoined.lift_le hlevel).wrap, hjoined.lift_le hlevel⟩

/-- A well read atom is spelled by its text. -/
theorem formulaText_atom {a : Atom} (h : a.WellRead) : FormulaText 0 (.atom a) a.text.toList := by
  have htext := FormulaText.relation h.spelled
  rwa [h.core.normalize, String.ofList_toList, h.isAtom] at htext

theorem formulaText_parenthesizedIf {f : Formula} {text : String}
    (h : FormulaText 0 f text.toList) (wanted : Bool) :
    FormulaText 0 f (parenthesizedIf wanted text).toList := by
  cases wanted with
  | false => exact h
  | true =>
    have hwrap := h.alone.wrap
    simpa [parenthesizedIf] using hwrap

/-- The text of a formula in a readable dialect spells it, with every atom as it was written. -/
theorem formulaText_printWith {d : Dialect} {f : Formula} (hd : d.IsReadable f.binaryOps)
    (h : ∀ a ∈ f.atoms, a.WellRead) : FormulaText 6 f (f.printWith d Atom.text false).toList := by
  have hatoms : ∀ a ∈ f.atoms, ∀ operand, FormulaText 0 (.atom a)
      (parenthesizedIf (operand && !Text.isSimple a.text.toList) a.text).toList :=
    fun a ha operand ↦ formulaText_parenthesizedIf (formulaText_atom (h a ha)) _
  rw [Formula.toList_printWith hd.letters]
  exact (formulaText_spellWith hd hatoms).2

end Grammar

theorem eq_ok_of_toOption {ε α : Type} {result : Except ε α} {a : α}
    (h : result.toOption = some a) : result = .ok a := by
  cases result with
  | error e => cases h
  | ok b => rw [Option.some.inj h]

namespace Formula

/-- The text of a formula in a readable dialect is read as the formula, unless its parentheses nest
too deep. -/
theorem parse_printWith {d : Dialect} {f : Formula} (hd : d.IsReadable f.binaryOps)
    (h : ∀ a ∈ f.atoms, a.WellRead) :
    let printed := f.printWith d Atom.text false
    parse printed =
      if Text.nesting printed.toList ≤ maxNesting then .ok f
      else .error (.tooDeep (Text.nesting printed.toList)) := by
  have hparse := (Grammar.formulaText_printWith hd h).parse
  rwa [String.ofList_toList] at hparse

/-- The canonical text of a formula that was read is read as the same formula, unless its
parentheses nest too deep. -/
theorem parse_print {text : String} {f : Formula} (h : parse text = .ok f) :
    parse f.print =
      if Text.nesting f.print.toList ≤ maxNesting then .ok f
      else .error (.tooDeep (Text.nesting f.print.toList)) :=
  parse_printWith (Dialect.isReadable_canonical _) (Grammar.wellRead_of_parse h)

theorem parse_print_weakUntil :
    ∃ f, parse "(x) > 2 W F<=3 (a & !b)" = .ok f ∧ f.print = "((x) > 2) W F<=3(a && !b)" ∧
      parse f.print = .ok f := by
  let negated : Formula := unary .not (atom ⟨"b", .holds (.var "b")⟩)
  let window : Formula :=
    bounded .eventuallyWithin 3 (binary .and (atom ⟨"a", .holds (.var "a")⟩) negated)
  let f : Formula :=
    binary .weakUntil (atom ⟨"(x) > 2", .compare (.var "x") .gt (.number "2")⟩) window
  have hread : parse "(x) > 2 W F<=3 (a & !b)" = .ok f := eq_ok_of_toOption (by decide +kernel)
  have hprint : f.print = "((x) > 2) W F<=3(a && !b)" := by decide +kernel
  have hnesting : Text.nesting f.print.toList ≤ maxNesting := by decide +kernel
  have hagain := parse_print hread
  rw [if_pos hnesting] at hagain
  exact ⟨f, hread, hprint, hagain⟩

end Formula

end TemporalRequirements

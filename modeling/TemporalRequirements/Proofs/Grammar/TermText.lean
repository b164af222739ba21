import TemporalRequirements.Proofs.Grammar.Token

/-!
# The texts of terms

`TermText` is the grammar of terms without a reader: which texts spell an operand, the arguments of
a call, a chain of one level of operations, or the rest of a chain that was begun.  Level zero holds
the operands with their signs, level one the products and level two the sums.  Gaps may stand before
every token.
-/

namespace TemporalRequirements.Grammar

/-- What a part of a term's text may spell. -/
inductive Phrase where
  | operand (t : Term)
  | arguments (ts : List Term)
  | items (ts : List Term)
  | signed (t : Term)
  | level (k : Nat) (t : Term)
  /-- The operations that turn the chain `l` of level `k` into `t`. -/
  | tail (k : Nat) (l t : Term)

inductive OperationText : Nat → ArithOp → List Char → List Char → Prop where
  | mul {s s' : List Char} : TokenText ['*'] s → OperationText 0 .mul s s'
  | div {s s' : List Char} : TokenText ['/'] s → OperationText 0 .div s s'
  | mod {s s' : List Char} : TokenText ['%'] s → OperationText 0 .mod s s'
  | add {s s' : List Char} : TokenText ['+'] s → OperationText 1 .add s s'
  | sub {s s' : List Char} : TokenText ['-'] s → s'.head?.any isGap = false →
      OperationText 1 .sub s s'
  /-- A minus sign with a gap after it asks for the remainder. -/
  | gapped {s s' : List Char} : TokenText ['-'] s → s'.head?.any isGap = true →
      OperationText 1 .mod s s'

inductive TermText : Phrase → List Char → Prop where
  | gap {t : Term} {c : Char} {s : List Char} (hc : isGap c = true)
      (hs : TermText (.operand t) s) : TermText (.operand t) (c :: s)
  | number {s : List Char} (hs : NumberText s) :
      TermText (.operand (.number (String.ofList s))) s
  | truth {w : String} {b : Bool} (hw : (w, b) ∈ truthWords) :
      TermText (.operand (.truth b)) w.toList
  | var {w : List Char} (hw : NameText w) : TermText (.operand (.var (String.ofList w))) w
  | call {w s : List Char} {ts : List Term} (hw : NameText w) (hs : TermText (.arguments ts) s) :
      TermText (.operand (.call (String.ofList w) ts)) (w ++ s)
  | paren {t : Term} {s s' : List Char} (hs : TermText (.level 2 t) s)
      (hclose : TokenText [')'] s') : TermText (.operand t) ('(' :: (s ++ s'))
  | noArguments {s s' : List Char} (hopen : TokenText ['('] s) (hclose : TokenText [')'] s') :
      TermText (.arguments []) (s ++ s')
  | arguments {ts : List Term} {s s' s'' : List Char} (hopen : TokenText ['('] s)
      (hs : TermText (.items ts) s') (hclose : TokenText [')'] s'') :
      TermText (.arguments ts) (s ++ (s' ++ s''))
  | lastItem {t : Term} {s : List Char} (hs : TermText (.level 2 t) s) : TermText (.items [t]) s
  | item {t : Term} {ts : List Term} {s s' s'' : List Char} (hs : TermText (.level 2 t) s)
      (hcomma : TokenText [','] s') (hs' : TermText (.items ts) s'') :
      TermText (.items (t :: ts)) (s ++ (s' ++ s''))
  | unsigned {t : Term} {s : List Char} (hs : TermText (.operand t) s) : TermText (.signed t) s
  | negative {t : Term} {s s' : List Char} (hsign : TokenText ['-'] s)
      (hs : TermText (.signed t) s') : TermText (.signed (.neg t)) (s ++ s')
  | factor {t : Term} {s : List Char} (hs : TermText (.signed t) s) : TermText (.level 0 t) s
  | chain {k : Nat} {l t : Term} {s s' : List Char} (hs : TermText (.level k l) s)
      (htail : TermText (.tail k l t) s') : TermText (.level (k + 1) t) (s ++ s')
  | stop {k : Nat} {t : Term} : TermText (.tail k t t) []
  | link {k : Nat} {op : ArithOp} {l r t : Term} {s s' s'' : List Char}
      (hop : OperationText k op s s') (hs : TermText (.level k r) s')
      (htail : TermText (.tail k (.arith op l r) t) s'') :
      TermText (.tail k l t) (s ++ (s' ++ s''))

/-! ## How texts start and end -/

def startsOperand (c : Char) : Bool := c == '(' || c.isDigit || Text.isNameStart c

def Phrase.starts : Phrase → Char → Bool
  | .operand _, c => startsOperand c
  | .arguments _, c => c == '('
  | .items _, c | .signed _, c | .level _ _, c => c == '-' || startsOperand c
  | .tail _ _ _, _ => false

def Phrase.isTail : Phrase → Bool
  | .tail _ _ _ => true
  | _ => false

namespace TermText

variable {p : Phrase} {s : List Char}

/-- A phrase starts as its kind says, after gaps. -/
theorem starts (h : TermText p s) (hp : p.isTail = false) :
    ∃ c rest, skipGaps s = c :: rest ∧ p.starts c = true := by
  induction h with
  | @gap t c s hc _ ih =>
    rw [skipGaps_cons_of_gap hc]
    exact ih hp
  | number hs =>
    obtain ⟨c, rest, rfl, hc⟩ := hs.starts
    have hgap := isGap_of_isPathPart (isPathPart_of_isDigit hc)
    exact ⟨c, rest, skipGaps_cons_of_not_gap hgap rest, by simp [Phrase.starts, startsOperand, hc]⟩
  | @truth w b hw =>
    simp only [truthWords, List.mem_cons, Prod.mk.injEq, List.not_mem_nil, or_false] at hw
    rcases hw with ⟨rfl, -⟩ | ⟨rfl, -⟩ | ⟨rfl, -⟩ | ⟨rfl, -⟩ <;> exact ⟨_, _, rfl, rfl⟩
  | var hw =>
    obtain ⟨c, rest, rfl, hc⟩ := hw.starts
    have hgap := isGap_of_isPathPart (Text.isPathPart_of_isNameStart hc)
    exact ⟨c, rest, skipGaps_cons_of_not_gap hgap rest, by simp [Phrase.starts, startsOperand, hc]⟩
  | call hw _ _ =>
    obtain ⟨c, rest, rfl, hc⟩ := hw.starts
    have hgap := isGap_of_isPathPart (Text.isPathPart_of_isNameStart hc)
    exact ⟨c, _, skipGaps_cons_of_not_gap hgap _, by simp [Phrase.starts, startsOperand, hc]⟩
  | paren _ _ _ => exact ⟨'(', _, rfl, rfl⟩
  | noArguments hopen _ => exact ⟨'(', _, hopen.skipGaps_append rfl _, rfl⟩
  | arguments hopen _ _ _ => exact ⟨'(', _, hopen.skipGaps_append rfl _, rfl⟩
  | lastItem _ ih => exact ih rfl
  | item _ _ _ ih _ =>
    obtain ⟨c, rest, hskip, hc⟩ := ih rfl
    exact ⟨c, _, skipGaps_append_of_cons hskip _, hc⟩
  | unsigned _ ih =>
    obtain ⟨c, rest, hskip, hc⟩ := ih rfl
    exact ⟨c, rest, hskip, by rw [Phrase.starts, Bool.or_eq_true]; exact Or.inr hc⟩
  | negative hsign _ _ => exact ⟨'-', _, hsign.skipGaps_append rfl _, rfl⟩
  | factor _ ih => exact ih rfl
  | chain _ _ ih _ =>
    obtain ⟨c, rest, hskip, hc⟩ := ih rfl
    exact ⟨c, _, skipGaps_append_of_cons hskip _, hc⟩
  | stop => cases hp
  | link _ _ _ _ _ => cases hp

/-- A text of a phrase ends in ink, unless it adds nothing to a chain. -/
theorem endsFirm_or (h : TermText p s) : Text.EndsFirm s ∨ s = [] ∧ p.isTail = true := by
  have hfirm {p : Phrase} {s : List Char} (h : Text.EndsFirm s ∨ s = [] ∧ p.isTail = true)
      (hp : p.isTail = false) : Text.EndsFirm s := by
    rcases h with h | ⟨-, htail⟩
    · exact h
    · rw [hp] at htail
      cases htail
  have hparts {s : List Char} {c : Char} {rest : List Char} (heq : s = c :: rest)
      (hs : ∀ c ∈ s, Text.isPathPart c = true) : Text.EndsFirm s :=
    Text.endsFirm_of_forall (by simp [heq]) fun c hc ↦ isBlank_of_isPathPart (hs c hc)
  induction h with
  | @gap t c s _ _ ih => exact Or.inl ((hfirm ih rfl).append [c])
  | number hs =>
    obtain ⟨c, rest, heq, -⟩ := hs.starts
    exact Or.inl (hparts heq hs.parts)
  | @truth w b hw =>
    simp only [truthWords, List.mem_cons, Prod.mk.injEq, List.not_mem_nil, or_false] at hw
    left
    rcases hw with ⟨rfl, -⟩ | ⟨rfl, -⟩ | ⟨rfl, -⟩ | ⟨rfl, -⟩ <;>
      exact Text.endsFirm_of_forall (by decide) (Text.forall_mem_of_all rfl)
  | var hw =>
    obtain ⟨c, rest, heq, -⟩ := hw.starts
    exact Or.inl (hparts heq hw.parts)
  | @call w s ts _ _ ih => exact Or.inl ((hfirm ih rfl).append w)
  | @paren t s s' _ hclose _ => exact Or.inl ((hclose.endsFirm rfl).append ('(' :: s))
  | @noArguments s s' _ hclose => exact Or.inl ((hclose.endsFirm rfl).append s)
  | @arguments ts s s' s'' _ _ hclose _ =>
    exact Or.inl (((hclose.endsFirm rfl).append s').append s)
  | lastItem _ ih => exact Or.inl (hfirm ih rfl)
  | @item t ts s s' s'' _ _ _ _ ih => exact Or.inl (((hfirm ih rfl).append s').append s)
  | unsigned _ ih => exact Or.inl (hfirm ih rfl)
  | @negative t s s' _ _ ih => exact Or.inl ((hfirm ih rfl).append s)
  | factor _ ih => exact Or.inl (hfirm ih rfl)
  | @chain k l t s s' _ _ ih ih' =>
    left
    rcases ih' with ih' | ⟨rfl, -⟩
    · exact ih'.append s
    · rw [List.append_nil]
      exact hfirm ih rfl
  | stop => exact Or.inr ⟨rfl, rfl⟩
  | @link k op l r t s s' s'' _ _ _ ih ih' =>
    left
    rcases ih' with ih' | ⟨rfl, -⟩
    · exact (ih'.append s').append s
    · rw [List.append_nil]
      exact (hfirm ih rfl).append s

theorem endsFirm (h : TermText p s) (hp : p.isTail = false) : Text.EndsFirm s := by
  rcases h.endsFirm_or with hfirm | ⟨-, htail⟩
  · exact hfirm
  · rw [hp] at htail
    cases htail

end TermText

theorem balanced_of_isPathPart {s : List Char} (h : ∀ c ∈ s, Text.isPathPart c = true) :
    Text.Balanced s :=
  Text.Balanced.of_forall fun c hc ↦
    ⟨ne_of_isPathPart (h c hc) rfl, ne_of_isPathPart (h c hc) rfl⟩

theorem OperationText.balanced {k : Nat} {op : ArithOp} {s s' : List Char}
    (h : OperationText k op s s') : Text.Balanced s := by
  cases h with
  | mul h | div h | mod h | add h | sub h _ | gapped h _ =>
    exact h.balanced (by decide) (by decide)

theorem balanced_group {s s' s'' : List Char} (hopen : TokenText ['('] s)
    (hs : Text.Balanced s') (hclose : TokenText [')'] s'') : Text.Balanced (s ++ (s' ++ s'')) := by
  obtain ⟨gaps, hgaps, rfl⟩ := hopen
  obtain ⟨gaps', hgaps', rfl⟩ := hclose
  have hinner : Text.Balanced (s' ++ gaps') := hs.append (Gaps.balanced hgaps')
  have hgroup : Text.Balanced ('(' :: ((s' ++ gaps') ++ [')'])) := hinner.wrap
  rw [List.append_assoc, List.singleton_append, ← List.append_assoc s']
  exact (Gaps.balanced hgaps).append hgroup

/-- The parentheses of a phrase match. -/
theorem TermText.balanced {p : Phrase} {s : List Char} (h : TermText p s) : Text.Balanced s := by
  induction h with
  | gap hc _ ih => exact (Gaps.balanced (Gaps.cons hc Gaps.nil)).append ih
  | number hs => exact balanced_of_isPathPart hs.parts
  | truth hw =>
    simp only [truthWords, List.mem_cons, Prod.mk.injEq, List.not_mem_nil, or_false] at hw
    rcases hw with ⟨rfl, -⟩ | ⟨rfl, -⟩ | ⟨rfl, -⟩ | ⟨rfl, -⟩ <;>
      exact Text.Balanced.of_forall (Text.forall_mem_of_all rfl)
  | var hw => exact balanced_of_isPathPart hw.parts
  | call hw _ ih => exact (balanced_of_isPathPart hw.parts).append ih
  | paren _ hclose ih => exact balanced_group (TokenText.self ['(']) ih hclose
  | noArguments hopen hclose => exact balanced_group hopen .nil hclose
  | arguments hopen _ hclose ih => exact balanced_group hopen ih hclose
  | lastItem _ ih | unsigned _ ih | factor _ ih => exact ih
  | item _ hcomma _ ih ih' =>
    exact ih.append ((hcomma.balanced (by decide) (by decide)).append ih')
  | negative hsign _ ih => exact (hsign.balanced (by decide) (by decide)).append ih
  | chain _ _ ih ih' => exact ih.append ih'
  | stop => exact .nil
  | link hop _ _ ih ih' => exact hop.balanced.append (ih.append ih')

/-! ## Other gaps and parentheses -/

theorem isBlank_of_startsOperand {c : Char} (h : startsOperand c = true) :
    Text.isBlank c = false := by
  simp only [startsOperand, Bool.or_eq_true, beq_iff_eq] at h
  rcases h with (rfl | hc) | hc
  · rfl
  · exact isBlank_of_isPathPart (isPathPart_of_isDigit hc)
  · exact isBlank_of_isPathPart (Text.isPathPart_of_isNameStart hc)

theorem isBlank_of_starts {p : Phrase} {c : Char} (h : p.starts c = true) :
    Text.isBlank c = false := by
  cases p with
  | operand t => exact isBlank_of_startsOperand h
  | arguments ts =>
    obtain rfl := beq_iff_eq.mp h
    rfl
  | items ts | signed t | level k t =>
    rcases Bool.or_eq_true _ _ ▸ h with h | h
    · obtain rfl := beq_iff_eq.mp h
      rfl
    · exact isBlank_of_startsOperand h
  | tail k l t => cases h

/-- Squeezing keeps whether a gap comes first. -/
theorem TermText.isGap_head_squeeze {p : Phrase} {s : List Char} (h : TermText p s)
    (hp : p.isTail = false) : (Text.squeeze s).head?.any isGap = s.head?.any isGap := by
  obtain ⟨c, rest, hskip, hc⟩ := h.starts hp
  cases s with
  | nil => rfl
  | cons d s =>
    rw [Text.head?_squeeze_cons, List.head?_cons, Option.any_some, Option.any_some]
    cases hd : isGap d with
    | true =>
      rw [isBlank_of_isGap hd]
      rfl
    | false =>
      rw [skipGaps_cons_of_not_gap hd] at hskip
      obtain ⟨rfl, rfl⟩ := List.cons.inj hskip
      rw [isBlank_of_starts hc]
      exact hd

/-- Squeezing keeps the gap that makes a minus sign a remainder. -/
theorem OperationText.squeeze {k : Nat} {op : ArithOp} {s s' : List Char} {p : Phrase}
    (h : OperationText k op s s') (hs : TermText p s') (hp : p.isTail = false) :
    OperationText k op (Text.squeeze s) (Text.squeeze s') := by
  cases h with
  | mul h => exact .mul (h.squeeze_mark rfl)
  | div h => exact .div (h.squeeze_mark rfl)
  | mod h => exact .mod (h.squeeze_mark rfl)
  | add h => exact .add (h.squeeze_mark rfl)
  | sub h hhead => exact .sub (h.squeeze_mark rfl) (by rw [hs.isGap_head_squeeze hp, hhead])
  | gapped h hhead => exact .gapped (h.squeeze_mark rfl) (by rw [hs.isGap_head_squeeze hp, hhead])

theorem OperationText.endsFirm {k : Nat} {op : ArithOp} {s s' : List Char}
    (h : OperationText k op s s') : Text.EndsFirm s := by
  cases h with
  | mul h | div h | mod h | add h | sub h _ | gapped h _ => exact h.endsFirm rfl

theorem squeeze_of_isPathPart {s : List Char} (h : ∀ c ∈ s, Text.isPathPart c = true) :
    Text.squeeze s = s :=
  Text.squeeze_eq_self fun c hc ↦ isBlank_of_isPathPart (h c hc)

/-- A squeezed text spells the same phrase. -/
theorem TermText.squeeze {p : Phrase} {s : List Char} (h : TermText p s) :
    TermText p (Text.squeeze s) := by
  induction h with
  | @gap t c s hc hs ih =>
    cases s with
    | nil => exact absurd rfl (hs.endsFirm rfl).ne_nil
    | cons d s =>
      rw [Text.squeeze_cons_of_blank (isBlank_of_isGap hc)]
      split
      · exact ih
      · exact .gap rfl ih
  | number hs =>
    rw [squeeze_of_isPathPart hs.parts]
    exact .number hs
  | truth hw =>
    have hself := hw
    simp only [truthWords, List.mem_cons, Prod.mk.injEq, List.not_mem_nil, or_false] at hw
    rcases hw with ⟨rfl, rfl⟩ | ⟨rfl, rfl⟩ | ⟨rfl, rfl⟩ | ⟨rfl, rfl⟩ <;>
      exact .truth hself
  | var hw =>
    rw [squeeze_of_isPathPart hw.parts]
    exact .var hw
  | call hw _ ih =>
    have hfirm : Text.EndsFirm _ := (TermText.var hw).endsFirm rfl
    rw [Text.squeeze_append hfirm, squeeze_of_isPathPart hw.parts]
    exact .call hw ih
  | paren hs hclose ih =>
    rw [Text.squeeze_cons_of_firm rfl, Text.squeeze_append (hs.endsFirm rfl)]
    exact .paren ih (hclose.squeeze_mark rfl)
  | noArguments hopen hclose =>
    rw [Text.squeeze_append (hopen.endsFirm rfl)]
    exact .noArguments (hopen.squeeze_mark rfl) (hclose.squeeze_mark rfl)
  | arguments hopen hs hclose ih =>
    rw [Text.squeeze_append (hopen.endsFirm rfl), Text.squeeze_append (hs.endsFirm rfl)]
    exact .arguments (hopen.squeeze_mark rfl) ih (hclose.squeeze_mark rfl)
  | lastItem _ ih => exact .lastItem ih
  | item hs hcomma _ ih ih' =>
    rw [Text.squeeze_append (hs.endsFirm rfl), Text.squeeze_append (hcomma.endsFirm rfl)]
    exact .item ih (hcomma.squeeze_mark rfl) ih'
  | unsigned _ ih => exact .unsigned ih
  | negative hsign _ ih =>
    rw [Text.squeeze_append (hsign.endsFirm rfl)]
    exact .negative (hsign.squeeze_mark rfl) ih
  | factor _ ih => exact .factor ih
  | chain hs _ ih ih' =>
    rw [Text.squeeze_append (hs.endsFirm rfl)]
    exact .chain ih ih'
  | stop => exact .stop
  | link hop hs _ ih ih' =>
    rw [Text.squeeze_append hop.endsFirm, Text.squeeze_append (hs.endsFirm rfl)]
    exact .link (hop.squeeze hs rfl) ih ih'

theorem skipGaps_append_eq {p : Phrase} {s : List Char} (h : TermText p s)
    (hp : p.isTail = false) (t : List Char) : skipGaps (s ++ t) = skipGaps s ++ t := by
  obtain ⟨c, rest, hskip, -⟩ := h.starts hp
  rw [skipGaps_append_of_cons hskip, hskip, List.cons_append]

/-- Whether a phrase is an operand, with or without signs, or a chain of them. -/
def Phrase.isTerm : Phrase → Bool
  | .operand _ | .signed _ | .level _ _ => true
  | _ => false

/-- A term is spelled as well without the gaps in front. -/
theorem TermText.skipGaps {p : Phrase} {s : List Char} (h : TermText p s)
    (hp : p.isTerm = true) : TermText p (skipGaps s) := by
  have hself {t : Term} {c : Char} {rest : List Char} (h : TermText (.operand t) (c :: rest))
      (hc : isGap c = false) : TermText (.operand t) (Grammar.skipGaps (c :: rest)) := by
    rw [skipGaps_cons_of_not_gap hc]
    exact h
  induction h with
  | gap hc _ ih =>
    rw [skipGaps_cons_of_gap hc]
    exact ih rfl
  | number hs =>
    obtain ⟨c, rest, rfl, hc⟩ := hs.starts
    exact hself (.number hs) (isGap_of_isPathPart (isPathPart_of_isDigit hc))
  | truth hw =>
    have htruth := TermText.truth hw
    simp only [truthWords, List.mem_cons, Prod.mk.injEq, List.not_mem_nil, or_false] at hw
    rcases hw with ⟨rfl, rfl⟩ | ⟨rfl, rfl⟩ | ⟨rfl, rfl⟩ | ⟨rfl, rfl⟩ <;> exact hself htruth rfl
  | var hw =>
    obtain ⟨c, rest, rfl, hc⟩ := hw.starts
    exact hself (.var hw) (isGap_of_isPathPart (Text.isPathPart_of_isNameStart hc))
  | call hw hs _ =>
    obtain ⟨c, rest, rfl, hc⟩ := hw.starts
    exact hself (.call hw hs) (isGap_of_isPathPart (Text.isPathPart_of_isNameStart hc))
  | paren hs hclose _ => exact hself (.paren hs hclose) rfl
  | noArguments _ _ | arguments _ _ _ _ | lastItem _ _ | item _ _ _ _ _ => cases hp
  | unsigned _ ih => exact .unsigned (ih rfl)
  | negative hsign hs _ =>
    rw [hsign.skipGaps_append rfl]
    exact .negative (TokenText.self ['-']) hs
  | factor _ ih => exact .factor (ih rfl)
  | chain hs htail ih _ =>
    rw [skipGaps_append_eq hs rfl]
    exact .chain (ih rfl) htail
  | stop | link _ _ _ _ _ => cases hp

/-- A term is spelled as well with gaps in front. -/
theorem TermText.gaps {p : Phrase} {gaps s : List Char} (hp : p.isTerm = true)
    (hgaps : Gaps gaps) (h : TermText p s) : TermText p (gaps ++ s) := by
  have hoperand {t : Term} {s : List Char} (h : TermText (.operand t) s) :
      TermText (.operand t) (gaps ++ s) := by
    induction gaps with
    | nil => exact h
    | cons c gaps ih =>
      exact .gap (hgaps c List.mem_cons_self) (ih fun d hd ↦ hgaps d (List.mem_cons_of_mem c hd))
  induction h with
  | gap hc hs _ => exact hoperand (.gap hc hs)
  | number hs => exact hoperand (.number hs)
  | truth hw => exact hoperand (.truth hw)
  | var hw => exact hoperand (.var hw)
  | call hw hs _ => exact hoperand (.call hw hs)
  | paren hs hclose _ => exact hoperand (.paren hs hclose)
  | noArguments _ _ | arguments _ _ _ _ | lastItem _ _ | item _ _ _ _ _ => cases hp
  | unsigned _ ih => exact .unsigned (ih rfl)
  | negative hsign hs _ =>
    rw [← List.append_assoc]
    exact .negative (hsign.gaps hgaps) hs
  | factor _ ih => exact .factor (ih rfl)
  | chain hs htail ih _ =>
    rw [← List.append_assoc]
    exact .chain (ih rfl) htail
  | stop | link _ _ _ _ _ => cases hp

/-- The term of an operand, with or without signs, or of a chain. -/
def Phrase.term? : Phrase → Option Term
  | .operand t | .signed t | .level _ t => some t
  | _ => none

/-- What may follow the first group of a term that starts with one: nothing, and then the group
spells the term, or an operation. -/
inductive GroupEnd (t : Term) (inner : List Char) : List Char → Prop where
  | whole {s gaps : List Char} (heq : inner = s ++ gaps) (hgaps : Gaps gaps)
      (hs : TermText (.level 2 t) s) : GroupEnd t inner []
  | continued {k : Nat} {op : ArithOp} {r : Term} {s s' : List Char}
      (hop : OperationText k op s s') (hs : TermText (.level k r) s') (rest : List Char) :
      GroupEnd t inner (s ++ (s' ++ rest))

/-- A term whose first character opens a group. -/
theorem TermText.groupEnd {p : Phrase} {t : Term} {text s : List Char} (h : TermText p text)
    (htext : text = '(' :: s) (hp : p.term? = some t) :
    ∃ inner rest, s = inner ++ ')' :: rest ∧ Text.Balanced inner ∧ GroupEnd t inner rest := by
  have hpart {c : Char} {rest s : List Char} (hc : Text.isPathPart c = true)
      (heq : c :: rest = '(' :: s) : False :=
    ne_of_isPathPart hc rfl (List.cons.inj heq).1
  induction h generalizing t s with
  | gap hc _ _ =>
    obtain ⟨rfl, -⟩ := List.cons.inj htext
    cases hc
  | number hs =>
    obtain ⟨c, rest, rfl, hc⟩ := hs.starts
    exact (hpart (isPathPart_of_isDigit hc) htext).elim
  | truth hw =>
    simp only [truthWords, List.mem_cons, Prod.mk.injEq, List.not_mem_nil, or_false] at hw
    rcases hw with ⟨rfl, -⟩ | ⟨rfl, -⟩ | ⟨rfl, -⟩ | ⟨rfl, -⟩ <;> cases htext
  | var hw =>
    obtain ⟨c, rest, rfl, hc⟩ := hw.starts
    exact (hpart (Text.isPathPart_of_isNameStart hc) htext).elim
  | call hw _ _ =>
    obtain ⟨c, rest, rfl, hc⟩ := hw.starts
    exact (hpart (Text.isPathPart_of_isNameStart hc) htext).elim
  | @paren t' s' s'' hs hclose _ =>
    obtain ⟨gaps, hgaps, rfl⟩ := hclose
    obtain rfl := Option.some.inj hp
    obtain ⟨-, rfl⟩ := List.cons.inj htext
    refine ⟨s' ++ gaps, [], by rw [List.append_assoc], hs.balanced.append hgaps.balanced, ?_⟩
    exact .whole rfl hgaps hs
  | noArguments _ _ | arguments _ _ _ _ | lastItem _ _ | item _ _ _ _ _ => cases hp
  | unsigned _ ih => exact ih htext hp
  | factor _ ih => exact ih htext hp
  | negative hsign _ _ =>
    obtain ⟨gaps, hgaps, rfl⟩ := hsign
    cases gaps with
    | nil => cases htext
    | cons c gaps =>
      obtain ⟨rfl, -⟩ := List.cons.inj htext
      cases hgaps '(' List.mem_cons_self
  | @chain k l t' s' s'' hs htail ih _ =>
    obtain rfl := Option.some.inj hp
    cases s' with
    | nil => exact absurd rfl (hs.endsFirm rfl).ne_nil
    | cons c s' =>
      obtain ⟨rfl, rfl⟩ := List.cons.inj htext
      obtain ⟨inner, rest, rfl, hbalanced, hend⟩ := ih rfl rfl
      refine ⟨inner, rest ++ s'', List.append_assoc inner (')' :: rest) s'', hbalanced, ?_⟩
      cases hend with
      | whole heq hgaps hinner =>
        cases htail with
        | stop => exact .whole heq hgaps hinner
        | link hop hr _ => exact .continued hop hr _
      | continued hop hr rest =>
        rw [List.append_assoc, List.append_assoc]
        exact .continued hop hr _
  | stop | link _ _ _ _ _ => cases hp

end TemporalRequirements.Grammar

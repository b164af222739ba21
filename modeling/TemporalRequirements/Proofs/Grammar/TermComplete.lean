import TemporalRequirements.Proofs.Grammar.TermSound

/-!
# Texts that spell terms are read

A text that spells a term is read as that term wherever what follows does not go on with it.  The
bounds on depth and rounds that the readers carry never matter: the length of the text is enough.
-/

namespace TemporalRequirements.Grammar

/-- A text that does not go on with the operand before it. -/
structure OperandEnd (rest : List Char) : Prop where
  detached : Detached rest
  notCall : mark '(' rest = none

/-- A text that does not go on with a chain of the levels below `k`. -/
structure LevelEnd (k : Nat) (rest : List Char) : Prop extends OperandEnd rest where
  stops : ∀ j, j < k → operationAt j rest = none

theorem LevelEnd.of_succ {k : Nat} {rest : List Char} (h : LevelEnd (k + 1) rest) :
    LevelEnd k rest :=
  ⟨h.toOperandEnd, fun j hj ↦ h.stops j (Nat.lt_succ_of_lt hj)⟩

theorem multiplicativeOp_eq_none {c : Char} {s rest : List Char} (h : skipGaps s = c :: rest)
    (hc : c ∉ ['*', '/', '%']) : multiplicativeOp s = none := by
  simp only [List.mem_cons, List.not_mem_nil, or_false, not_or] at hc
  obtain ⟨hmul, hdiv, hmod⟩ := hc
  simp [multiplicativeOp, symbol, h, oneOf, Text.after?, Ne.symm hmul, Ne.symm hdiv, Ne.symm hmod]

/-- No sign of a sum is read where none stands. -/
theorem additiveOp_eq_none {c : Char} {s rest : List Char} (h : skipGaps s = c :: rest)
    (hc : c ∉ ['+', '-']) : additiveOp s = none := by
  simp only [List.mem_cons, List.not_mem_nil, or_false, not_or] at hc
  unfold additiveOp
  rw [h]
  split
  · rename_i heq
    exact absurd (List.cons.inj heq).1 hc.1
  · rename_i heq
    exact absurd (List.cons.inj heq).1 hc.2
  · rfl

theorem operationAt_of_skipGaps_nil {s : List Char} (h : skipGaps s = []) (k : Nat) :
    operationAt k s = none := by
  match k with
  | 0 => simp [operationAt, multiplicativeOp, symbol, h, oneOf, Text.after?]
  | 1 => simp [operationAt, additiveOp, h]
  | _ + 2 => rfl

/-- A term ends before a text without an operation, a call or a part of a path in front. -/
theorem levelEnd_of_skipGaps {c : Char} {s rest : List Char} (h : skipGaps s = c :: rest)
    (hs : Detached s) (hc : c ∉ ['(', '*', '/', '%', '+', '-']) (k : Nat) : LevelEnd k s := by
  simp only [List.mem_cons, List.not_mem_nil, or_false, not_or] at hc
  obtain ⟨hopen, hmul, hdiv, hmod, hadd, hsub⟩ := hc
  refine ⟨⟨hs, mark_eq_none h hopen⟩, fun j _ ↦ ?_⟩
  match j with
  | 0 => exact multiplicativeOp_eq_none h (by simp [hmul, hdiv, hmod])
  | 1 => exact additiveOp_eq_none h (by simp [hadd, hsub])
  | _ + 2 => rfl

theorem TokenText.levelEnd {c : Char} {s : List Char} (h : TokenText [c] s)
    (hgap : isGap c = false) (hpart : Text.isPathPart c = false)
    (hc : c ∉ ['(', '*', '/', '%', '+', '-']) (k : Nat) (rest : List Char) :
    LevelEnd k (s ++ rest) :=
  levelEnd_of_skipGaps (h.skipGaps_append hgap rest) (h.detached hpart rest) hc k

/-- The chains of lower levels end before an operation. -/
theorem OperationText.levelEnd {k : Nat} {op : ArithOp} {s s' : List Char}
    (h : OperationText k op s s') (rest : List Char) : LevelEnd k (s ++ rest) := by
  have hoperand {c : Char} {s : List Char} (h : TokenText [c] s) (hgap : isGap c = false)
      (hpart : Text.isPathPart c = false) (hc : c ≠ '(') : OperandEnd (s ++ rest) :=
    ⟨h.detached hpart rest, mark_eq_none (h.skipGaps_append hgap rest) hc⟩
  have hproduct {c : Char} {s : List Char} (h : TokenText [c] s) (hgap : isGap c = false)
      (hc : c ∉ ['*', '/', '%']) : ∀ j, j < 1 → operationAt j (s ++ rest) = none := by
    intro j hj
    obtain rfl := Nat.lt_one_iff.mp hj
    exact multiplicativeOp_eq_none (h.skipGaps_append hgap rest) hc
  cases h with
  | mul h | div h | mod h =>
    exact ⟨hoperand h rfl rfl (by decide), fun j hj ↦ absurd hj (Nat.not_lt_zero j)⟩
  | add h | sub h _ | gapped h _ =>
    exact ⟨hoperand h rfl rfl (by decide), hproduct h rfl (by decide)⟩

theorem isMinusBefore_of_starts {p : Phrase} {s : List Char} (h : TermText p s)
    (hp : p.isTail = false) (rest : List Char) : isMinusBefore (s ++ rest) = true := by
  obtain ⟨c, tail, hskip, hc⟩ := h.starts hp
  rw [isMinusBefore, skipGaps_append_of_cons hskip, List.head?_cons]
  simp only [bne_iff_ne, ne_eq, Option.some.injEq]
  rintro rfl
  cases p <;> cases hc

/-- The sign of an operation is read where its operand follows. -/
theorem OperationText.reads {k : Nat} {op : ArithOp} {s s' : List Char} {r : Term}
    (h : OperationText k op s s') (hs : TermText (.level k r) s') (rest : List Char) :
    operationAt k (s ++ (s' ++ rest)) = some (op, s' ++ rest) := by
  have hsymbol {c : Char} {s : List Char} (h : TokenText [c] s) (hgap : isGap c = false)
      {rest : List Char} : skipGaps (s ++ rest) = c :: rest := h.skipGaps_append hgap rest
  have hhead : (s' ++ rest).head?.any isGap = s'.head?.any isGap := by
    obtain ⟨c, s', rfl⟩ := List.exists_cons_of_ne_nil (hs.endsFirm rfl).ne_nil
    rfl
  have hminus := isMinusBefore_of_starts hs rfl rest
  cases h with
  | mul h => simp [operationAt, multiplicativeOp, symbol, hsymbol h rfl, oneOf, Text.after?]
  | div h => simp [operationAt, multiplicativeOp, symbol, hsymbol h rfl, oneOf, Text.after?]
  | mod h => simp [operationAt, multiplicativeOp, symbol, hsymbol h rfl, oneOf, Text.after?]
  | add h => simp [operationAt, additiveOp, hsymbol h rfl]
  | sub h hgap | gapped h hgap =>
    simp [-List.head?_append, operationAt, additiveOp, hsymbol h rfl, hminus, hhead, hgap]

/-! ## Steps of the readers -/

theorem operand_gap {inner : Reader Term} {n : Nat} {c : Char} (h : isGap c = true)
    (s : List Char) : operand inner n (c :: s) = operand inner n s := by
  rw [operand, operand, skipGaps_cons_of_gap h]

theorem operand_of_digit {inner : Reader Term} {n : Nat} {c : Char} (h : c.isDigit = true)
    (s : List Char) : operand inner n (c :: s) =
      some (.number (String.ofList (Text.takeNumber (c :: s)).1),
        (Text.takeNumber (c :: s)).2) := by
  have hpart := isPathPart_of_isDigit h
  have hopen : c ≠ '(' := ne_of_isPathPart hpart rfl
  rw [operand, skipGaps_cons_of_not_gap (isGap_of_isPathPart hpart)]
  dsimp only
  rw [if_neg hopen, if_pos h]

theorem operand_of_word {inner : Reader Term} {n : Nat} {w : List Char} (h : WordText w)
    (rest : List Char) : operand inner n (w ++ rest) = named inner n (w ++ rest) := by
  obtain ⟨c, tail, rfl, hc⟩ := h.starts
  have hpart := Text.isPathPart_of_isNameStart hc
  have hopen : c ≠ '(' := ne_of_isPathPart hpart rfl
  have hdigit : ¬ c.isDigit = true := by simp [isDigit_of_isNameStart hc]
  rw [List.cons_append, operand, skipGaps_cons_of_not_gap (isGap_of_isPathPart hpart)]
  dsimp only
  rw [if_neg hopen, if_neg hdigit]

theorem operand_of_paren {inner : Reader Term} {n : Nat} {t : Term} {s rest rest' : List Char}
    (hinner : inner s = some (t, rest)) (hclose : mark ')' rest = some rest') :
    operand inner n ('(' :: s) = some (t, rest') := by
  rw [operand, skipGaps_cons_of_not_gap rfl]
  dsimp only
  rw [if_pos rfl, hinner, Option.bind_eq_bind, Option.bind_some, hclose]
  rfl

theorem wordText_of_truth {w : String} {b : Bool} (h : (w, b) ∈ truthWords) :
    WordText w.toList := by
  simp only [truthWords, List.mem_cons, Prod.mk.injEq, List.not_mem_nil, or_false] at h
  rcases h with ⟨rfl, -⟩ | ⟨rfl, -⟩ | ⟨rfl, -⟩ | ⟨rfl, -⟩ <;>
    exact ⟨⟨_, _, rfl, rfl⟩, Text.forall_mem_of_all rfl⟩

theorem named_of_truth {inner : Reader Term} {n : Nat} {w : String} {b : Bool} {rest : List Char}
    (h : (w, b) ∈ truthWords) (hrest : Detached rest) :
    named inner n (w.toList ++ rest) = some (.truth b, rest) := by
  have hfind : truthWords.find? (fun entry ↦ entry.1 = String.ofList w.toList) =
      some (w, b) := by
    simp only [truthWords, List.mem_cons, Prod.mk.injEq, List.not_mem_nil, or_false] at h
    rcases h with ⟨rfl, rfl⟩ | ⟨rfl, rfl⟩ | ⟨rfl, rfl⟩ | ⟨rfl, rfl⟩ <;> rfl
  rw [named, (wordText_of_truth h).word_append hrest]
  simp only [Option.bind_eq_bind, Option.bind_some, hfind, Option.pure_def]

theorem named_of_call {inner : Reader Term} {n : Nat} {w s rest : List Char} {ts : List Term}
    (hw : NameText w) (hs : Detached s) (h : arguments inner n s = some (ts, rest)) :
    named inner n (w ++ s) = some (.call (String.ofList w) ts, rest) := by
  rw [named, hw.toWordText.word_append hs]
  simp only [Option.bind_eq_bind, Option.bind_some, hw.notTruth, if_neg hw.notTemporal, h,
    Option.pure_def]

theorem named_of_var {inner : Reader Term} {n : Nat} {w rest : List Char}
    (hw : NameText w) (hrest : OperandEnd rest) :
    named inner n (w ++ rest) = some (.var (String.ofList w), rest) := by
  have harguments : arguments inner n rest = none := by
    rw [arguments, hrest.notCall]
    rfl
  rw [named, hw.toWordText.word_append hrest.detached]
  simp only [Option.bind_eq_bind, Option.bind_some, hw.notTruth, if_neg hw.notTemporal,
    harguments, Option.pure_def]

theorem negativeSign_token {s s' : List Char} {t : Term} (h : TokenText ['-'] s)
    (hs : TermText (.signed t) s') (rest : List Char) :
    negativeSign (s ++ (s' ++ rest)) = some ((), s' ++ rest) := by
  simp [negativeSign, h.skipGaps_append rfl, isMinusBefore_of_starts hs rfl rest]

theorem negativeSign_eq_none {c : Char} {s rest : List Char} (h : skipGaps s = c :: rest)
    (hc : c ≠ '-') : negativeSign s = none := by
  unfold negativeSign
  rw [h]
  split
  · rename_i heq
    exact absurd (List.cons.inj heq).1 hc
  · rfl

theorem ne_minus_of_startsOperand {c : Char} (h : startsOperand c = true) : c ≠ '-' := by
  rintro rfl
  cases h

/-- No sign is read where an operand stands. -/
theorem many_negativeSign_operand {t : Term} {s : List Char} (h : TermText (.operand t) s)
    (n : Nat) (rest : List Char) : many negativeSign n (s ++ rest) = ([], s ++ rest) := by
  obtain ⟨c, tail, hskip, hc⟩ := h.starts rfl
  cases n with
  | zero => rfl
  | succ n =>
    rw [many, negativeSign_eq_none (skipGaps_append_of_cons hskip rest)
      (ne_minus_of_startsOperand hc)]

theorem comma_token {s : List Char} (h : TokenText [','] s) (rest : List Char) :
    symbol [(",", ())] (s ++ rest) = some ((), rest) := by
  simp [symbol, h.skipGaps_append rfl, oneOf, Text.after?]

theorem comma_eq_none {c : Char} {s rest : List Char} (h : skipGaps s = c :: rest)
    (hc : c ≠ ',') : symbol [(",", ())] s = none := by
  simp [symbol, h, oneOf, Text.after?, Ne.symm hc]

/-- No term is read where none of its tokens stands. -/
theorem termUpTo_eq_none {c : Char} {s rest : List Char} (h : skipGaps s = c :: rest)
    (hminus : c ≠ '-') (hc : startsOperand c = false) (n : Nat) : termUpTo n s = none := by
  simp only [startsOperand, Bool.or_eq_false_iff, beq_eq_false_iff_ne] at hc
  obtain ⟨⟨hopen, hdigit⟩, hname⟩ := hc
  cases n with
  | zero => rfl
  | succ n =>
    have hskip : skipGaps (c :: rest) = c :: rest := by rw [← h, skipGaps_idem]
    have hword : word (c :: rest) = none := word_eq_none hskip hname
    have hoperand : operand (termUpTo n) (n + 1) s = none := by
      rw [operand, h]
      dsimp only
      rw [if_neg hopen, if_neg (by simp [hdigit]), named, hword]
      rfl
    have hsigned : signed (termUpTo n) (n + 1) s = none := by
      rw [signed, many, negativeSign_eq_none h hminus]
      simp [hoperand]
    simp [termUpTo, termChain, chain, hsigned]

theorem levelEnd_of_tail {k : Nat} {l t : Term} {s rest : List Char}
    (h : TermText (.tail k l t) s) (hrest : LevelEnd (k + 1) rest) : LevelEnd k (s ++ rest) := by
  cases h with
  | stop => exact hrest.of_succ
  | link hop _ _ =>
    rw [List.append_assoc]
    exact hop.levelEnd _

/-! ## Reading what is spelled -/

/-- How a phrase is read off a text before `rest`, with inner terms up to depth `n` and `m` rounds
for each loop. -/
def Phrase.ReadFrom (n m : Nat) (rest : List Char) : Phrase → List Char → Prop
  | .operand t, s => OperandEnd rest →
    Grammar.operand (termUpTo n) m (s ++ rest) = some (t, rest)
  | .arguments ts, s => Grammar.arguments (termUpTo n) m (s ++ rest) = some (ts, rest)
  | .items ts, s => s.length ≤ n → symbol [(",", ())] rest = none → LevelEnd 2 rest →
    ∃ first others, chain (symbol [(",", ())]) (termUpTo n) m (s ++ rest) =
      some ((first, others), rest) ∧ first :: others.map Prod.snd = ts
  | .signed t, s => OperandEnd rest →
    ∃ signs t' s', many negativeSign m (s ++ rest) = (signs, s') ∧
      (∀ m', m ≤ m' → Grammar.operand (termUpTo n) m' s' = some (t', rest)) ∧
      signs.foldr (fun _ t ↦ .neg t) t' = t
  | .level k t, s => LevelEnd k rest → readLevel (termUpTo n) m k (s ++ rest) = some (t, rest)
  | .tail k l t, s => LevelEnd (k + 1) rest → ∀ j, s.length ≤ j →
    ∃ others, links (operationAt k) (readLevel (termUpTo n) m k) j (s ++ rest) = (others, rest) ∧
      joinLeft .arith l others = t

/-- Whether a phrase is read off a text, whatever follows, where depth and rounds suffice for the
length of the text. -/
def Phrase.Reads (p : Phrase) (s : List Char) : Prop :=
  ∀ n m rest, s.length ≤ n + 1 → s.length ≤ m → p.ReadFrom n m rest s

namespace Phrase.Reads

theorem gap {t : Term} {c : Char} {s : List Char} (hc : isGap c = true)
    (h : (Phrase.operand t).Reads s) : (Phrase.operand t).Reads (c :: s) := by
  intro n m rest hn hm hrest
  rw [List.length_cons] at hn hm
  rw [List.cons_append, operand_gap hc]
  exact h n m rest (by omega) (by omega) hrest

/-- A name is the name of a call where arguments follow. -/
theorem call {w s : List Char} {ts : List Term} (hw : NameText w)
    (hs : TermText (.arguments ts) s) (h : (Phrase.arguments ts).Reads s) :
    (Phrase.operand (.call (String.ofList w) ts)).Reads (w ++ s) := by
  intro n m rest hn hm hrest
  rw [List.length_append] at hn hm
  obtain ⟨c, tail, hskip, hc⟩ := hs.starts rfl
  obtain rfl := beq_iff_eq.mp hc
  rw [List.append_assoc, operand_of_word hw.toWordText]
  exact named_of_call hw (detached_of_skipGaps (skipGaps_append_of_cons hskip rest) rfl)
    (h n m rest (by omega) (by omega))

theorem paren {t : Term} {s s' : List Char} (h : (Phrase.level 2 t).Reads s)
    (hclose : TokenText [')'] s') : (Phrase.operand t).Reads ('(' :: (s ++ s')) := by
  intro n m rest hn hm hrest
  have hpos := hclose.length_pos
  simp only [List.length_cons, List.length_append] at hn hm
  obtain ⟨n, rfl⟩ : ∃ n', n = n' + 1 := ⟨n - 1, by omega⟩
  rw [List.cons_append, List.append_assoc]
  apply operand_of_paren
  · exact h n (n + 1) (s' ++ rest) (by omega) (by omega)
      (hclose.levelEnd rfl rfl (by decide) 2 rest)
  · exact mark_token hclose rfl rest

/-- No term starts at the closing parenthesis, so a call may do without arguments. -/
theorem noArguments {s s' : List Char} (hopen : TokenText ['('] s) (hclose : TokenText [')'] s') :
    (Phrase.arguments []).Reads (s ++ s') := by
  intro n m rest hn hm
  have hitems : Grammar.chain (symbol [(",", ())]) (termUpTo n) m (s' ++ rest) = none := by
    rw [Grammar.chain, termUpTo_eq_none (hclose.skipGaps_append rfl rest) (by decide) rfl]
    rfl
  rw [ReadFrom, List.append_assoc, Grammar.arguments, mark_token hopen rfl]
  simp only [Option.bind_eq_bind, Option.bind_some, hitems, mark_token hclose rfl,
    Option.pure_def]

theorem arguments {ts : List Term} {s s' s'' : List Char} (hopen : TokenText ['('] s)
    (h : (Phrase.items ts).Reads s') (hclose : TokenText [')'] s'') :
    (Phrase.arguments ts).Reads (s ++ (s' ++ s'')) := by
  intro n m rest hn hm
  have hpos := hclose.length_pos
  have hpos' := hopen.length_pos
  simp only [List.length_append] at hn hm
  obtain ⟨first, others, hitems, hts⟩ := h n m (s'' ++ rest) (by omega) (by omega) (by omega)
    (comma_eq_none (hclose.skipGaps_append rfl rest) (by decide))
    (hclose.levelEnd rfl rfl (by decide) 2 rest)
  rw [ReadFrom, List.append_assoc, List.append_assoc, Grammar.arguments, mark_token hopen rfl]
  simp only [Option.bind_eq_bind, Option.bind_some, hitems, mark_token hclose rfl, hts,
    Option.pure_def]

theorem lastItem {t : Term} {s : List Char} (hs : TermText (.level 2 t) s)
    (h : (Phrase.level 2 t).Reads s) : (Phrase.items [t]).Reads s := by
  intro n m rest hn hm hlength hcomma hrest
  have hpos := List.length_pos_iff.mpr (hs.endsFirm rfl).ne_nil
  obtain ⟨n, rfl⟩ : ∃ n', n = n' + 1 := ⟨n - 1, by omega⟩
  have hfirst := h n (n + 1) rest (by omega) (by omega) hrest
  refine ⟨t, [], chain_eq_some.mpr ⟨rest, hfirst, ?_⟩, rfl⟩
  cases m with
  | zero => rfl
  | succ m => rw [links, hcomma]

/-- Arguments are read one after the other up to the last. -/
theorem item {t : Term} {ts : List Term} {s s' s'' : List Char} (h : (Phrase.level 2 t).Reads s)
    (hcomma : TokenText [','] s') (h' : (Phrase.items ts).Reads s'') :
    (Phrase.items (t :: ts)).Reads (s ++ (s' ++ s'')) := by
  intro n m rest hn hm hlength hend hrest
  have hpos := hcomma.length_pos
  simp only [List.length_append] at hn hm hlength
  obtain ⟨n, rfl⟩ : ∃ n', n = n' + 1 := ⟨n - 1, by omega⟩
  obtain ⟨m, rfl⟩ : ∃ m', m = m' + 1 := ⟨m - 1, by omega⟩
  have hfirst := h n (n + 1) (s' ++ (s'' ++ rest)) (by omega) (by omega)
    (hcomma.levelEnd rfl rfl (by decide) 2 _)
  obtain ⟨second, others, hothers, rfl⟩ := h' (n + 1) m rest (by omega) (by omega) (by omega)
    hend hrest
  obtain ⟨afterSecond, hsecond, hlinks⟩ := chain_eq_some.mp hothers
  rw [List.append_assoc, List.append_assoc]
  refine ⟨t, ((), second) :: others, chain_eq_some.mpr ⟨_, hfirst, ?_⟩, rfl⟩
  rw [links, comma_token hcomma]
  simp only [hsecond, hlinks]

theorem negative {t : Term} {s s' : List Char} (hsign : TokenText ['-'] s)
    (hs : TermText (.signed t) s') (h : (Phrase.signed t).Reads s') :
    (Phrase.signed (.neg t)).Reads (s ++ s') := by
  intro n m rest hn hm hrest
  have hpos := hsign.length_pos
  rw [List.length_append] at hn hm
  obtain ⟨m, rfl⟩ : ∃ m', m = m' + 1 := ⟨m - 1, by omega⟩
  obtain ⟨signs, t', final, hmany, hoperand, rfl⟩ := h n m rest (by omega) (by omega) hrest
  refine ⟨() :: signs, t', final, ?_, fun m' hm' ↦ hoperand m' (by omega), rfl⟩
  rw [List.append_assoc, many, negativeSign_token hsign hs]
  simp only [hmany]

theorem factor {t : Term} {s : List Char} (h : (Phrase.signed t).Reads s) :
    (Phrase.level 0 t).Reads s := by
  intro n m rest hn hm hrest
  obtain ⟨signs, t', final, hmany, hoperand, rfl⟩ := h n m rest hn hm hrest.toOperandEnd
  rw [readLevel, Grammar.signed, hmany]
  simp only [hoperand m (Nat.le_refl m), Option.bind_eq_bind, Option.bind_some,
    Option.pure_def]

theorem chain {k : Nat} {l t : Term} {s s' : List Char} (h : (Phrase.level k l).Reads s)
    (htail : TermText (.tail k l t) s') (h' : (Phrase.tail k l t).Reads s') :
    (Phrase.level (k + 1) t).Reads (s ++ s') := by
  intro n m rest hn hm hrest
  rw [List.length_append] at hn hm
  have hfirst := h n m (s' ++ rest) (by omega) (by omega) (levelEnd_of_tail htail hrest)
  obtain ⟨others, hlinks, rfl⟩ := h' n m rest (by omega) (by omega) hrest m (by omega)
  rw [List.append_assoc, readLevel, termChain, chain_eq_some.mpr ⟨_, hfirst, hlinks⟩]
  rfl

theorem stop {k : Nat} {t : Term} : (Phrase.tail k t t).Reads [] := by
  intro n m rest hn hm hrest j hj
  refine ⟨[], ?_, rfl⟩
  cases j with
  | zero => rfl
  | succ j => rw [List.nil_append, links, hrest.stops _ (Nat.lt_succ_self _)]

/-- A chain goes on with an operation and its operand. -/
theorem link {k : Nat} {op : ArithOp} {l r t : Term} {s s' s'' : List Char}
    (hop : OperationText k op s s') (hs : TermText (.level k r) s')
    (htail : TermText (.tail k (.arith op l r) t) s'') (h : (Phrase.level k r).Reads s')
    (h' : (Phrase.tail k (.arith op l r) t).Reads s'') :
    (Phrase.tail k l t).Reads (s ++ (s' ++ s'')) := by
  intro n m rest hn hm hrest j hj
  have hpos : 0 < s.length := List.length_pos_iff.mpr hop.endsFirm.ne_nil
  simp only [List.length_append] at hn hm hj
  obtain ⟨j, rfl⟩ : ∃ j', j = j' + 1 := ⟨j - 1, by omega⟩
  have hoperand := h n m (s'' ++ rest) (by omega) (by omega) (levelEnd_of_tail htail hrest)
  obtain ⟨others, hlinks, rfl⟩ := h' n m rest (by omega) (by omega) hrest j (by omega)
  refine ⟨(op, r) :: others, ?_, rfl⟩
  rw [List.append_assoc, List.append_assoc, links, hop.reads hs]
  simp only [hoperand, hlinks]

end Phrase.Reads

/-- What spells a phrase is read as the phrase. -/
theorem TermText.reads {p : Phrase} {s : List Char} (h : TermText p s) : p.Reads s := by
  induction h with
  | gap hc _ ih => exact ih.gap hc
  | number hs =>
    intro n m rest hn hm hrest
    have hnumber := hs.takeNumber_append hrest.detached
    obtain ⟨c, tail, rfl, hc⟩ := hs.starts
    rw [List.cons_append] at hnumber ⊢
    rw [operand_of_digit hc, hnumber]
  | truth hw =>
    intro n m rest hn hm hrest
    rw [operand_of_word (wordText_of_truth hw)]
    exact named_of_truth hw hrest.detached
  | var hw =>
    intro n m rest hn hm hrest
    rw [operand_of_word hw.toWordText]
    exact named_of_var hw hrest
  | call hw hs ih => exact .call hw hs ih
  | paren _ hclose ih => exact .paren ih hclose
  | noArguments hopen hclose => exact .noArguments hopen hclose
  | arguments hopen _ hclose ih => exact .arguments hopen ih hclose
  | lastItem hs ih => exact .lastItem hs ih
  | item _ hcomma _ ih ih' => exact .item ih hcomma ih'
  | unsigned hs ih =>
    intro n m rest hn hm hrest
    exact ⟨[], _, _, many_negativeSign_operand hs m rest,
      fun m' hm' ↦ ih n m' rest hn (Nat.le_trans hm hm') hrest, rfl⟩
  | negative hsign hs ih => exact .negative hsign hs ih
  | factor _ ih => exact ih.factor
  | chain _ htail ih ih' => exact .chain ih htail ih'
  | stop => exact .stop
  | link hop hs htail ih ih' => exact .link hop hs htail ih ih'

/-- A text that spells a term is read as the term, whatever follows that does not go on with it. -/
theorem termUpTo_append {t : Term} {s rest : List Char} {n : Nat}
    (h : TermText (.level 2 t) s) (hn : s.length ≤ n) (hrest : LevelEnd 2 rest) :
    termUpTo n (s ++ rest) = some (t, rest) := by
  have hpos := List.length_pos_iff.mpr (h.endsFirm rfl).ne_nil
  obtain ⟨n, rfl⟩ : ∃ n', n = n' + 1 := ⟨n - 1, by omega⟩
  exact h.reads n (n + 1) rest hn hn hrest

end TemporalRequirements.Grammar

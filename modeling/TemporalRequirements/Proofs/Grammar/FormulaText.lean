import TemporalRequirements.Proofs.Grammar.AtomReading

/-!
# The texts of formulas

`FormulaText` is the grammar of formulas by levels: level zero holds the operands of binary
operators, and each further level adds the next looser operator.  A text that spells a formula is
read as that formula.  The reader tries a relation before a formula in parentheses, so that a
formula in parentheses that is a term as well is read as a term; both readings are the same formula.
-/

namespace TemporalRequirements.Grammar

def levelOp (k : Nat) : Reader BinaryOp := levelOps[k]?.getD fun _ ↦ none

/-- The reader of formulas of a level whose parentheses nest at most `n` deep. -/
def readFormulaLevel (n : Nat) : Nat → Reader Judged
  | 0 => factor (primary (termUpTo (n + 1)) (formulaUpTo n)) (n + 1)
  | k + 1 => level (levelOp k) (readFormulaLevel n k) (n + 1)

theorem formulaUpTo_succ (n : Nat) : formulaUpTo (n + 1) = readFormulaLevel n 6 := rfl

/-- A text that does not go on with a formula of a level. -/
structure FormulaEnd (k : Nat) (rest : List Char) : Prop extends RelationEnd rest where
  notJoined : ∀ j, j < k → levelOp j rest = none

theorem FormulaEnd.mono {k k' : Nat} {rest : List Char} (h : FormulaEnd k rest) (hk : k' ≤ k) :
    FormulaEnd k' rest :=
  ⟨h.toRelationEnd, fun j hj ↦ h.notJoined j (Nat.lt_of_lt_of_le hj hk)⟩

/-- An operator that stands before its operand `s'`. -/
structure LeadingText (op : LeadingOp) (s s' : List Char) : Prop where
  reads : ∀ rest, leadingOp (s ++ (s' ++ rest)) = some (op, s' ++ rest)
  balanced : Text.Balanced s
  ne_nil : s ≠ []

/-- A binary operator of a level that stands before its right operand `s'`. -/
structure JoinText (k : Nat) (op : BinaryOp) (s s' : List Char) : Prop where
  reads : ∀ rest, levelOp k (s ++ (s' ++ rest)) = some (op, s' ++ rest)
  ends : ∀ rest, FormulaEnd k (s ++ (s' ++ rest))
  balanced : Text.Balanced s
  ne_nil : s ≠ []

inductive FormulaText : Nat → Formula → List Char → Prop where
  | relation {p : Predicate} {s : List Char} (hs : PredicateText p s) :
      FormulaText 0 (p.formula (String.ofList (normalizeAtomText s))) s
  | paren {f : Formula} {s s' s'' : List Char} (hopen : TokenText ['('] s)
      (hs : FormulaText 6 f s') (hclose : TokenText [')'] s'') :
      FormulaText 0 f (s ++ (s' ++ s''))
  | leading {op : LeadingOp} {f g : Formula} {s s' : List Char} (hop : LeadingText op s s')
      (happly : op.apply (.ok f) = .ok g) (hs : FormulaText 0 f s') : FormulaText 0 g (s ++ s')
  | lift {k : Nat} {f : Formula} {s : List Char} (hs : FormulaText k f s) :
      FormulaText (k + 1) f s
  | join {k : Nat} {op : BinaryOp} {l r : Formula} {s s' s'' : List Char}
      (hl : FormulaText k l s) (hop : JoinText k op s' s'') (hr : FormulaText (k + 1) r s'') :
      FormulaText (k + 1) (.binary op l r) (s ++ (s' ++ s''))

namespace FormulaText

variable {k : Nat} {f : Formula} {s : List Char}

theorem balanced (h : FormulaText k f s) : Text.Balanced s := by
  induction h with
  | relation hs => exact hs.balanced
  | paren hopen _ hclose ih => exact balanced_group hopen ih hclose
  | leading hop _ _ ih => exact hop.balanced.append ih
  | lift _ ih => exact ih
  | join _ hop _ ih ih' => exact ih.append (hop.balanced.append ih')

theorem endsFirm (h : FormulaText k f s) : Text.EndsFirm s := by
  induction h with
  | relation hs => exact hs.endsFirm
  | @paren f s s' s'' _ _ hclose _ => exact ((hclose.endsFirm rfl).append s').append s
  | @leading op f g s s' _ _ _ ih => exact ih.append s
  | lift _ ih => exact ih
  | @join k op l r s s' s'' _ _ _ _ ih => exact (ih.append s').append s

theorem lift_le (h : FormulaText k f s) {k' : Nat} (hk : k ≤ k') : FormulaText k' f s := by
  induction hk with
  | refl => exact h
  | step _ ih => exact .lift ih

end FormulaText

/-- No binary operator starts with another character. -/
theorem levelOp_eq_none {c : Char} {s rest : List Char} (h : skipGaps s = c :: rest)
    (hc : c ∉ ['&', '^', '|', '-', '<']) (hname : Text.isNameStart c = false) (k : Nat) :
    levelOp k s = none := by
  simp only [List.mem_cons, List.not_mem_nil, or_false, not_or] at hc
  obtain ⟨hand, hxor, hor, himplies, hiff⟩ := hc
  match k with
  | 0 =>
    simp [levelOp, levelOps, wordOf, word_eq_none h hname]
  | 1 | 2 | 3 | 4 | 5 =>
    simp [levelOp, levelOps, symbol, h, oneOf, Text.after?, Ne.symm hand, Ne.symm hxor,
      Ne.symm hor, Ne.symm himplies, Ne.symm hiff]
  | _ + 6 => rfl

theorem relationOp_eq_none {c : Char} {s rest : List Char} (h : skipGaps s = c :: rest)
    (hc : startsComparison c = false) : relationOp s = none := by
  simp only [startsComparison, List.mem_cons, List.not_mem_nil, or_false, decide_eq_false_iff_not,
    not_or] at hc
  obtain ⟨heq, hne, hlt, hle, hgt, hge⟩ := hc
  simp [relationOp, symbol, h, RelOp.spellings, oneOf, Text.after?, Ne.symm heq, Ne.symm hne,
    Ne.symm hlt, Ne.symm hle, Ne.symm hgt, Ne.symm hge]

/-- A closing parenthesis ends every formula. -/
theorem TokenText.formulaEnd_close {s : List Char} (h : TokenText [')'] s) (k : Nat)
    (rest : List Char) : FormulaEnd k (s ++ rest) := by
  have hskip := h.skipGaps_append rfl rest
  exact ⟨⟨h.levelEnd rfl rfl (by decide) 2 rest, relationOp_eq_none hskip rfl⟩,
    fun j _ ↦ levelOp_eq_none hskip (by decide) rfl j⟩

theorem formulaEnd_nil (k : Nat) : FormulaEnd k [] := by
  refine ⟨⟨⟨⟨(fun c hc ↦ by cases hc), rfl⟩, fun j _ ↦ operationAt_of_skipGaps_nil rfl j⟩, rfl⟩, ?_⟩
  intro j _
  match j with
  | 0 | 1 | 2 | 3 | 4 | 5 => rfl
  | _ + 6 => rfl

/-! ## Reading relations -/

theorem find?_truthWords_of_temporal {w : String} (h : w ∈ temporalWords) :
    truthWords.find? (fun entry ↦ entry.1 = w) = none := by
  simp only [temporalWords, List.mem_cons, List.not_mem_nil, or_false] at h
  rcases h with rfl | rfl | rfl | rfl | rfl | rfl | rfl <;> decide

/-- No term starts with a temporal letter. -/
theorem termUpTo_of_word {s w rest : List Char} (h : word s = some (w, rest))
    (hw : String.ofList w ∈ temporalWords) (n : Nat) : termUpTo n s = none := by
  cases n with
  | zero => rfl
  | succ n =>
    cases hskip : skipGaps s with
    | nil =>
      rw [word_of_skipGaps_nil hskip] at h
      cases h
    | cons c tail =>
      cases hname : Text.isNameStart c with
      | false =>
        rw [word_eq_none hskip hname] at h
        cases h
      | true =>
        have hpart := Text.isPathPart_of_isNameStart hname
        have hword : word (c :: tail) = some (w, rest) := by
          rw [← h, word, word, ← hskip, skipGaps_idem]
        have hnamed : named (termUpTo n) (n + 1) (c :: tail) = none := by
          rw [named, hword]
          simp only [Option.bind_eq_bind, Option.bind_some, find?_truthWords_of_temporal hw,
            if_pos hw]
        have hoperand : operand (termUpTo n) (n + 1) s = none := by
          rw [operand, hskip]
          dsimp only
          rw [if_neg (ne_of_isPathPart hpart rfl), if_neg (by simp [isDigit_of_isNameStart hname]),
            hnamed]
        have hsigned : signed (termUpTo n) (n + 1) s = none := by
          rw [signed, many, negativeSign_eq_none hskip (ne_of_isPathPart hpart rfl)]
          simp [hoperand]
        simp [termUpTo, termChain, chain, hsigned]

/-- No term is read where an operator stands before its operand. -/
theorem termUpTo_of_leadingOp {op : LeadingOp} {s rest : List Char} {n : Nat}
    (h : leadingOp s = some (op, rest)) : termUpTo n s = none := by
  unfold leadingOp at h
  split at h
  · rename_i tail hskip
    exact termUpTo_eq_none hskip (by decide) rfl n
  · obtain ⟨⟨w, afterWord⟩, hword, hop⟩ := Option.bind_eq_some_iff.mp h
    rw [word, skipGaps_idem, ← word] at hword
    apply termUpTo_of_word hword
    dsimp only at hop
    split at hop
    · decide
    · decide
    · decide
    · cases hop

/-- No operator is read where a predicate starts. -/
theorem many_leadingOp_predicate {p : Predicate} {s rest : List Char} {n : Nat}
    (h : PredicateText p s) (hrest : RelationEnd rest) :
    many leadingOp n (s ++ rest) = ([], s ++ rest) := by
  cases n with
  | zero => rfl
  | succ n =>
    have hnone : leadingOp (s ++ rest) = none := by
      cases hop : leadingOp (s ++ rest) with
      | none => rfl
      | some result =>
        have hterm := termUpTo_of_leadingOp (n := s.length) hop
        have hreads := h.reads (Nat.le_refl _) hrest
        rw [relation, hterm] at hreads
        cases hreads
    rw [many, hnone]

/-- A term read where a group stands starts with the whole group. -/
theorem TermText.exists_groupEnd {t : Term} {span rest inner after : List Char}
    (h : TermText (.level 2 t) span) (hinner : Text.Balanced inner)
    (heq : Grammar.skipGaps (span ++ rest) = '(' :: (inner ++ ')' :: after)) :
    ∃ gaps tail, Gaps gaps ∧ span = gaps ++ '(' :: (inner ++ ')' :: tail) ∧
      after = tail ++ rest ∧ GroupEnd t inner tail := by
  obtain ⟨gaps, hgaps, hspan⟩ := exists_gaps span
  have hskip := h.skipGaps rfl
  rw [skipGaps_append_eq h rfl] at heq
  cases hstart : Grammar.skipGaps span with
  | nil =>
    rw [hstart] at hskip
    exact absurd rfl (hskip.endsFirm rfl).ne_nil
  | cons c tail =>
    rw [hstart] at heq hskip hspan
    obtain ⟨rfl, htail⟩ := List.cons.inj heq
    obtain ⟨inner', tail', rfl, hinner', hend⟩ := hskip.groupEnd rfl rfl
    rw [List.append_eq, List.append_assoc, List.cons_append] at htail
    obtain ⟨rfl, rfl⟩ := hinner'.eq_of_close hinner htail
    exact ⟨gaps, tail', hgaps, hspan, rfl, hend⟩

/-- Where no operation follows a group, the group is the whole term. -/
theorem GroupEnd.whole_of_levelEnd {t : Term} {inner tail rest : List Char}
    (h : GroupEnd t inner tail) (hrest : LevelEnd 2 (tail ++ rest)) :
    tail = [] ∧ ∃ s gaps, inner = s ++ gaps ∧ Gaps gaps ∧ TermText (.level 2 t) s := by
  cases h with
  | whole heq hgaps hs => exact ⟨rfl, _, _, heq, hgaps, hs⟩
  | @continued k op r s s' hop hs more =>
    have hreads := hop.reads hs (more ++ rest)
    have hk : k < 2 := by cases hop <;> decide
    have hstop := hrest.stops k hk
    rw [List.append_assoc, List.append_assoc, hreads] at hstop
    cases hstop

/-- A relation read where a formula in parentheses stands is the group as a term. -/
theorem relation_of_group {n : Nat} {f : Formula} {s rest inner after : List Char}
    (h : relation (termUpTo n) s = some (f, rest))
    (hs : skipGaps s = '(' :: (inner ++ ')' :: after)) (hinner : Text.Balanced inner)
    (hafter : RelationEnd after) :
    rest = after ∧ ∃ p s' gaps, inner = s' ++ gaps ∧ Gaps gaps ∧ PredicateText p s' ∧
      f = p.formula (String.ofList (normalizeAtomText s')) := by
  obtain ⟨span, p, rfl, hspan, rfl⟩ := relation_sound h
  cases hspan with
  | @holds t span hterm =>
    obtain ⟨gaps, tail, hgaps, rfl, rfl, hend⟩ := hterm.exists_groupEnd hinner hs
    obtain ⟨rfl, s', gaps', rfl, hgaps', hs'⟩ := hend.whole_of_levelEnd hafter.toLevelEnd
    refine ⟨rfl, .holds t, s', gaps', rfl, hgaps', .holds hs', ?_⟩
    rw [List.append_assoc, (PredicateText.holds hs').normalize_wrap hgaps hgaps']
  | @compare l r op s s' s'' hl hop hr =>
    rw [List.append_assoc] at hs
    obtain ⟨gaps, tail, hgaps, -, rfl, hend⟩ := hl.exists_groupEnd hinner hs
    obtain ⟨rfl, -⟩ := hend.whole_of_levelEnd hafter.toLevelEnd
    have hcompared := hafter.notCompared
    rw [List.nil_append, List.append_assoc, hop.reads hr] at hcompared
    cases hcompared

/-! ## Reading formulas -/

/-- How a formula of a level is read off a text before `rest`, with inner parentheses up to depth
`n` and `m` rounds for the outer loop. -/
def ReadsFormula (n m : Nat) (rest : List Char) : Nat → Formula → List Char → Prop
  | 0, f, s => ∃ ops g s', many leadingOp m (s ++ rest) = (ops, s') ∧
    primary (termUpTo (n + 1)) (formulaUpTo n) s' = some (.ok g, rest) ∧
    ops.foldr LeadingOp.apply (.ok g) = .ok f
  | k + 1, f, s => level (levelOp k) (readFormulaLevel n k) m (s ++ rest) = some (.ok f, rest)

theorem ReadsFormula.readLevel {n k : Nat} {f : Formula} {s rest : List Char}
    (h : ReadsFormula n (n + 1) rest k f s) :
    readFormulaLevel n k (s ++ rest) = some (.ok f, rest) := by
  cases k with
  | zero =>
    obtain ⟨ops, g, s', hops, hprimary, happly⟩ := h
    rw [readFormulaLevel, factor, hops]
    simp only [hprimary, Option.bind_eq_bind, Option.bind_some, happly, Option.pure_def]
  | succ k => exact h

/-- A level reads what a tighter level reads, where its operator does not follow. -/
theorem ReadsFormula.lift {n m k : Nat} {f : Formula} {s rest : List Char}
    (h : ReadsFormula n (n + 1) rest k f s) (hrest : levelOp k rest = none) :
    ReadsFormula n m rest (k + 1) f s := by
  have hlinks : links (levelOp k) (readFormulaLevel n k) m rest = ([], rest) := by
    cases m with
    | zero => rfl
    | succ m => rw [links, hrest]
  rw [ReadsFormula, level, chain_eq_some.mpr ⟨rest, h.readLevel, hlinks⟩]
  rfl

theorem ReadsFormula.lift_le {n m k k' : Nat} {f : Formula} {s rest : List Char}
    (h : ReadsFormula n (n + 1) rest k f s) (hk : k < k')
    (hrest : FormulaEnd k' rest) : ReadsFormula n m rest k' f s := by
  induction hk generalizing m with
  | refl => exact h.lift (hrest.notJoined k (Nat.lt_succ_self k))
  | @step k' hk ih =>
    have hread := ih (m := n + 1) (hrest.mono (Nat.le_succ k'))
    exact hread.lift (hrest.notJoined k' (Nat.lt_succ_self k'))

theorem readsFormula_predicate {p : Predicate} {n m : Nat} {s rest : List Char}
    (h : PredicateText p s) (hn : s.length ≤ n + 1) (hrest : RelationEnd rest) :
    ReadsFormula n m rest 0 (p.formula (String.ofList (normalizeAtomText s))) s := by
  refine ⟨[], _, _, many_leadingOp_predicate h hrest, ?_, rfl⟩
  rw [primary, h.reads hn hrest]

theorem many_leadingOp_eq_nil {c : Char} {s rest : List Char} (h : skipGaps s = c :: rest)
    (hc : c ≠ '!') (hname : Text.isNameStart c = false) (n : Nat) :
    many leadingOp n s = ([], s) := by
  cases n with
  | zero => rfl
  | succ n =>
    have hskip : skipGaps (c :: rest) = c :: rest := by rw [← h, skipGaps_idem]
    have hword : word (c :: rest) = none := word_eq_none hskip hname
    have hnone : leadingOp s = none := by
      unfold leadingOp
      rw [h]
      split
      · rename_i heq
        exact absurd (List.cons.inj heq).1 hc
      · rw [hword]
        rfl
    rw [many, hnone]

/-- The relation that is tried before a formula in parentheses reads the same formula, if any. -/
theorem relation_eq_of_paren {n : Nat} {f g : Formula} {s s' s'' rest after : List Char}
    (hopen : TokenText ['('] s) (hs : Text.Balanced s') (hclose : TokenText [')'] s'')
    (hn : s'.length + s''.length ≤ n + 1) (hrest : RelationEnd rest)
    (hread : formulaUpTo (n + 1) (s' ++ (s'' ++ rest)) = some (.ok f, s'' ++ rest))
    (h : relation (termUpTo (n + 2)) (s ++ (s' ++ (s'' ++ rest))) = some (g, after)) :
    g = f ∧ after = rest := by
  obtain ⟨gaps, hgaps, rfl⟩ := hclose
  have hgroup : skipGaps (s ++ (s' ++ (gaps ++ [')'] ++ rest))) =
      '(' :: ((s' ++ gaps) ++ ')' :: rest) := by
    rw [hopen.skipGaps_append rfl]
    simp
  obtain ⟨rfl, p, u, gaps', hparts, hgaps', hu, rfl⟩ :=
    relation_of_group h hgroup (hs.append hgaps.balanced) hrest
  have hclose' : TokenText [')'] (gaps' ++ [')']) := ⟨gaps', hgaps', rfl⟩
  have hlength := congrArg List.length hparts
  simp only [List.length_append, List.length_singleton] at hlength hn
  have hsame : s' ++ (gaps ++ [')'] ++ after) = u ++ (gaps' ++ [')'] ++ after) := by
    rw [List.append_assoc, List.append_assoc, ← List.append_assoc s', hparts, List.append_assoc]
  have hlone : ReadsFormula n (n + 1) (gaps' ++ [')'] ++ after) 6
      (p.formula (String.ofList (normalizeAtomText u))) u :=
    (readsFormula_predicate hu (by omega) (hclose'.formulaEnd_close 6 after).toRelationEnd).lift_le
      (by decide) (hclose'.formulaEnd_close 6 after)
  have hread' := hlone.readLevel
  rw [← formulaUpTo_succ, ← hsame, hread] at hread'
  exact ⟨(Except.ok.inj (Prod.mk.inj (Option.some.inj hread')).1).symm, rfl⟩

/-- A formula is read from a group whose inside is read as the formula. -/
theorem readsFormula_group {n m : Nat} {f : Formula} {s s' s'' rest : List Char}
    (hopen : TokenText ['('] s) (hs : Text.Balanced s') (hclose : TokenText [')'] s'')
    (hn : s'.length + s''.length ≤ n + 1) (hrest : RelationEnd rest)
    (hinner : formulaUpTo (n + 1) (s' ++ (s'' ++ rest)) = some (.ok f, s'' ++ rest)) :
    ReadsFormula (n + 1) m rest 0 f (s ++ (s' ++ s'')) := by
  have hops := many_leadingOp_eq_nil (hopen.skipGaps_append rfl (s' ++ (s'' ++ rest)))
    (by decide) rfl m
  rw [ReadsFormula, List.append_assoc, List.append_assoc]
  refine ⟨[], f, _, hops, ?_, rfl⟩
  rw [primary]
  cases hrelation : relation (termUpTo (n + 1 + 1)) (s ++ (s' ++ (s'' ++ rest))) with
  | none =>
    simp only [mark_token hopen rfl, hinner, mark_token hclose rfl, Option.bind_eq_bind,
      Option.bind_some, Option.pure_def]
  | some result =>
    -- the group is a term as well
    obtain ⟨g, after⟩ := result
    obtain ⟨rfl, rfl⟩ := relation_eq_of_paren hopen hs hclose hn hrest hinner hrelation
    rfl

/-- What spells a formula is read as the formula. -/
theorem FormulaText.readsFormula {k : Nat} {f : Formula} {s : List Char} (h : FormulaText k f s) :
    ∀ n m rest, s.length ≤ n + 1 → s.length ≤ m → FormulaEnd k rest →
      ReadsFormula n m rest k f s := by
  induction h with
  | relation hs =>
    intro n m rest hn hm hrest
    exact readsFormula_predicate hs hn hrest.toRelationEnd
  | @paren f s s' s'' hopen hs hclose ih =>
    intro n m rest hn hm hrest
    have hpos := hopen.length_pos
    have hpos' := hclose.length_pos
    simp only [List.length_append] at hn hm
    obtain ⟨n, rfl⟩ : ∃ n', n = n' + 1 := ⟨n - 1, by omega⟩
    have hinner : formulaUpTo (n + 1) (s' ++ (s'' ++ rest)) = some (.ok f, s'' ++ rest) :=
      (ih n (n + 1) (s'' ++ rest) (by omega) (by omega)
        (hclose.formulaEnd_close 6 rest)).readLevel
    exact readsFormula_group hopen hs.balanced hclose (by omega) hrest.toRelationEnd hinner
  | @leading op f g s s' hop happly hs ih =>
    intro n m rest hn hm hrest
    have hpos := List.length_pos_iff.mpr hop.ne_nil
    rw [List.length_append] at hn hm
    obtain ⟨m, rfl⟩ : ∃ m', m = m' + 1 := ⟨m - 1, by omega⟩
    obtain ⟨ops, f', final, hops, hprimary, hfold⟩ := ih n m rest (by omega) (by omega) hrest
    refine ⟨op :: ops, f', final, ?_, hprimary, ?_⟩
    · rw [List.append_assoc, many, hop.reads]
      simp only [hops]
    · rw [List.foldr_cons, hfold, happly]
  | @lift k f s hs ih =>
    intro n m rest hn hm hrest
    have hread := ih n (n + 1) rest hn hn (hrest.mono (Nat.le_succ k))
    exact hread.lift (hrest.notJoined k (Nat.lt_succ_self k))
  | @join k op l r s s' s'' hl hop hr ih ih' =>
    intro n m rest hn hm hrest
    have hpos := List.length_pos_iff.mpr hop.ne_nil
    simp only [List.length_append] at hn hm
    obtain ⟨m, rfl⟩ : ∃ m', m = m' + 1 := ⟨m - 1, by omega⟩
    have hleft := (ih n (n + 1) (s' ++ (s'' ++ rest)) (by omega) (by omega)
      (hop.ends rest)).readLevel
    have hright := ih' n m rest (by omega) (by omega) hrest
    obtain ⟨⟨⟨first, others⟩, final⟩, hchain, hresult⟩ := Option.bind_eq_some_iff.mp hright
    obtain ⟨afterFirst, hfirst, hlinks⟩ := chain_eq_some.mp hchain
    obtain ⟨hjoined, hfinal⟩ := Prod.mk.inj (Option.some.inj hresult)
    have hlinks' : links (levelOp k) (readFormulaLevel n k) (m + 1) (s' ++ (s'' ++ rest)) =
        ((op, first) :: others, rest) := by
      rw [links, hop.reads, ← hfinal]
      simp only [hfinal, hfirst, hlinks]
    rw [ReadsFormula, List.append_assoc, List.append_assoc, level,
      chain_eq_some.mpr ⟨_, hleft, hlinks'⟩]
    simp only [Option.bind_eq_bind, Option.bind_some, joinRight, hjoined, joinJudged]
    rfl

/-- A text from which a formula is read to the end denotes it, unless its parentheses nest too
deep. -/
theorem parse_of_formulaUpTo {f : Formula} {s : List Char} (hblank : s.all Text.isBlank = false)
    (hread : formulaUpTo (s.length + 1) s = some (.ok f, [])) :
    Formula.parse (String.ofList s) =
      if Text.nesting s ≤ maxNesting then .ok f else .error (.tooDeep (Text.nesting s)) := by
  have hwhole : wholeFormula s = .ok f := by
    unfold wholeFormula
    simp only [hread]
    exact if_pos rfl
  rw [Formula.parse, String.toList_ofList, hblank, hwhole]
  by_cases hnesting : Text.nesting s ≤ maxNesting
  · simp [hnesting, Nat.not_lt.mpr hnesting]
  · simp [hnesting, Nat.lt_of_not_le hnesting]

/-- A text that spells a formula is read as the formula, unless its parentheses nest too deep. -/
theorem FormulaText.parse {f : Formula} {s : List Char} (h : FormulaText 6 f s) :
    Formula.parse (String.ofList s) =
      if Text.nesting s ≤ maxNesting then .ok f else .error (.tooDeep (Text.nesting s)) := by
  have hblank : s.all Text.isBlank = false := by
    obtain ⟨front, c, rfl, hc⟩ := h.endsFirm
    simp [hc]
  have hread := (h.readsFormula s.length (s.length + 1) [] (Nat.le_succ _) (Nat.le_succ _)
    (formulaEnd_nil 6)).readLevel
  rw [List.append_nil, ← formulaUpTo_succ] at hread
  exact parse_of_formulaUpTo hblank hread

end TemporalRequirements.Grammar

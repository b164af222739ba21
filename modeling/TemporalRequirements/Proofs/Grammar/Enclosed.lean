import TemporalRequirements.Proofs.Grammar.FormulaSound
import TemporalRequirements.Proofs.Grammar.Printed
import TemporalRequirements.Proofs.Text.Nesting

/-!
# Reading inside of parentheses

To every reader a closing parenthesis is like the end of the text, with one exception: the reader of
a closing parenthesis.  That one is only asked for after an opening one, and in a text that closes
all of its groups, the group ends within the text.  So whatever is read from such a text is read
from it in parentheses as well, and a formula in parentheses is the formula.
-/

namespace TemporalRequirements

namespace Grammar

/-- A text of which no part up to the end opens more groups than it closes. -/
def Closed : List Char → Prop
  | [] => True
  | c :: s => (c :: s).count '(' ≤ (c :: s).count ')' ∧ Closed s

theorem Closed.count {s : List Char} (h : Closed s) : s.count '(' ≤ s.count ')' := by
  cases s with
  | nil => exact Nat.le_refl 0
  | cons c s => exact h.1

theorem Closed.of_append {s t : List Char} (h : Closed (s ++ t)) : Closed t := by
  induction s with
  | nil => exact h
  | cons c s ih => exact ih h.2

/-- Texts that close their groups do so one after the other. -/
theorem Closed.append {s t : List Char} (hs : Closed s) (ht : Closed t) : Closed (s ++ t) := by
  induction s with
  | nil => exact ht
  | cons c s ih =>
    refine ⟨?_, ih hs.2⟩
    have hfront := hs.1
    have hback := ht.count
    change ((c :: s) ++ t).count '(' ≤ ((c :: s) ++ t).count ')'
    rw [List.count_append, List.count_append]
    omega

theorem closed_of_balanced {s : List Char} (h : Text.Balanced s) : Closed s := by
  induction h with
  | nil => trivial
  | plain hopen hclose hs ih =>
    exact ⟨Nat.le_of_eq (Text.Balanced.plain hopen hclose hs).count_open_eq_count_close, ih⟩
  | @group s t hs ht ihs iht =>
    have hrest : Closed (')' :: t) := by
      refine ⟨?_, iht⟩
      have hback := iht.count
      rw [List.count_cons_self, List.count_cons_of_ne (by decide)]
      omega
    exact ⟨Nat.le_of_eq (Text.Balanced.group hs ht).count_open_eq_count_close, ihs.append hrest⟩

/-- A text that closes a group which was opened before it. -/
def ClosesOuter (s : List Char) : Prop := s.count '(' < s.count ')'

theorem Closed.closesOuter {s t : List Char} (h : Closed (s ++ t)) (hs : TokenText ['('] s) :
    ClosesOuter t := by
  obtain ⟨gaps, -, rfl⟩ := hs
  rw [List.append_assoc] at h
  have hcount := h.of_append.count
  rw [List.singleton_append, List.count_cons_self, List.count_cons_of_ne (by decide)] at hcount
  exact hcount

/-- Reading on over a well-nested text does not close the outer group. -/
theorem ClosesOuter.of_append {s t : List Char} (h : ClosesOuter (s ++ t))
    (hs : Text.Balanced s) : ClosesOuter t := by
  unfold ClosesOuter at h ⊢
  rw [List.count_append, List.count_append, hs.count_open_eq_count_close] at h
  omega

theorem ClosesOuter.skipGaps_ne_nil {s : List Char} (h : ClosesOuter s) : skipGaps s ≠ [] := by
  intro hnil
  obtain ⟨gaps, hgaps, hs⟩ := exists_gaps s
  rw [hnil, List.append_nil] at hs
  have hcount := hgaps.balanced.count_open_eq_count_close
  rw [← hs] at hcount
  exact Nat.ne_of_lt h hcount

section Tokens

variable {α : Type}

/-- A closing parenthesis and further text behind what a reader leaves. -/
def appendClose (w : List Char) (result : α × List Char) : α × List Char :=
  (result.1, result.2 ++ ')' :: w)

/-- A reader to which a closing parenthesis is like the end of the text. -/
def StopsAtClose (read : Reader α) : Prop :=
  ∀ s w, read (s ++ ')' :: w) = (read s).map (appendClose w)

theorem takeWhile_close {p : Char → Bool} (hp : p ')' = false) (s w : List Char) :
    (s ++ ')' :: w).takeWhile p = s.takeWhile p := by
  induction s with
  | nil => exact List.takeWhile_cons_of_neg (by simp [hp])
  | cons c s ih =>
    rw [List.cons_append, List.takeWhile_cons, List.takeWhile_cons, ih]

theorem dropWhile_close {p : Char → Bool} (hp : p ')' = false) (s w : List Char) :
    (s ++ ')' :: w).dropWhile p = s.dropWhile p ++ ')' :: w := by
  induction s with
  | nil => exact List.dropWhile_cons_of_neg (by simp [hp])
  | cons c s ih =>
    rw [List.cons_append, List.dropWhile_cons, List.dropWhile_cons, ih]
    split <;> rfl

theorem skipGaps_close (s w : List Char) :
    skipGaps (s ++ ')' :: w) = skipGaps s ++ ')' :: w :=
  dropWhile_close rfl s w

/-- A pattern without parentheses is found alike in front of a closing parenthesis. -/
theorem after?_close {pattern : List Char} (h : isPlain pattern = true) (s w : List Char) :
    Text.after? pattern (s ++ ')' :: w) = (Text.after? pattern s).map (· ++ ')' :: w) := by
  have hne : ∀ c ∈ pattern, c ≠ ')' := fun c hc ↦ ((isPlain_iff.mp h).2 c hc).2
  clear h
  induction pattern generalizing s with
  | nil => rfl
  | cons p pattern ih =>
    cases s with
    | nil => exact if_neg (hne p List.mem_cons_self)
    | cons c s =>
      rw [List.cons_append, Text.after?, Text.after?,
        ih _ fun c hc ↦ hne c (List.mem_cons_of_mem p hc)]
      split <;> rfl

/-- A table without parentheses is read alike in front of a closing parenthesis. -/
theorem oneOf_close {table : List (String × α)} (h : isPlainTable table = true) :
    StopsAtClose (oneOf table) := by
  intro s w
  induction table with
  | nil => rfl
  | cons entry table ih =>
    rw [isPlainTable, List.all_cons, Bool.and_eq_true] at h
    rw [oneOf, oneOf, after?_close h.1]
    cases Text.after? entry.1.toList s with
    | none => exact ih h.2
    | some rest => rfl

theorem symbol_close {table : List (String × α)} (h : isPlainTable table = true) :
    StopsAtClose (symbol table) := by
  intro s w
  rw [symbol, symbol, skipGaps_close, oneOf_close h, Option.map_map, Option.map_map]
  rfl

theorem mark_close {c : Char} {s : List Char} (h : c ≠ ')' ∨ ClosesOuter s) (w : List Char) :
    mark c (s ++ ')' :: w) = (mark c s).map (· ++ ')' :: w) := by
  rw [mark, mark, skipGaps_close]
  cases hskip : skipGaps s with
  | nil =>
    rcases h with hc | houter
    · exact if_neg hc.symm
    · exact absurd hskip houter.skipGaps_ne_nil
  | cons d rest =>
    rw [List.cons_append]
    dsimp only
    split <;> rfl

/-- A word ends at a closing parenthesis. -/
theorem word_close : StopsAtClose word := by
  intro s w
  rw [word, word, skipGaps_close]
  cases skipGaps s with
  | nil => rfl
  | cons c rest =>
    rw [List.cons_append]
    dsimp only
    rw [takeWhile_close rfl, dropWhile_close rfl]
    split <;> rfl

theorem wordOf_close (table : List (String × α)) : StopsAtClose (wordOf table) := by
  intro s w
  rw [wordOf, wordOf, word_close]
  cases word s with
  | none => rfl
  | some result =>
    obtain ⟨name, rest⟩ := result
    cases hentry : table.find? (fun entry ↦ entry.1.toList = name) with
    | none => simp [appendClose, hentry]
    | some entry => simp [appendClose, hentry]

theorem isMinusBefore_close (s w : List Char) :
    isMinusBefore (s ++ ')' :: w) = isMinusBefore s := by
  rw [isMinusBefore, isMinusBefore, skipGaps_close]
  cases skipGaps s <;> rfl

theorem additiveOp_close : StopsAtClose additiveOp := by
  intro s w
  rw [additiveOp, additiveOp, skipGaps_close]
  cases skipGaps s with
  | nil => rfl
  | cons c rest =>
    have hgap : (rest ++ ')' :: w).head?.any isGap = rest.head?.any isGap := by
      cases rest <;> rfl
    by_cases hplus : c = '+'
    · subst hplus
      rfl
    · by_cases hminus : c = '-'
      · subst hminus
        simp only [List.cons_append, isMinusBefore_close, hgap]
        split <;> rfl
      · simp [hplus, hminus]

theorem operationAt_close (k : Nat) : StopsAtClose (operationAt k) := by
  match k with
  | 0 => exact symbol_close rfl
  | 1 => exact additiveOp_close
  | _ + 2 => exact fun _ _ ↦ rfl

theorem negativeSign_close : StopsAtClose negativeSign := by
  intro s w
  rw [negativeSign, negativeSign, skipGaps_close]
  cases skipGaps s with
  | nil => rfl
  | cons c rest =>
    by_cases hminus : c = '-'
    · subst hminus
      simp only [List.cons_append, isMinusBefore_close]
      split <;> rfl
    · simp [hminus]

/-- A number ends at a closing parenthesis. -/
theorem takeNumber_close (s w : List Char) :
    Text.takeNumber (s ++ ')' :: w) =
      ((Text.takeNumber s).1, (Text.takeNumber s).2 ++ ')' :: w) := by
  rw [Text.takeNumber, Text.takeNumber, takeWhile_close rfl, dropWhile_close rfl]
  cases s.dropWhile Char.isDigit with
  | nil => rfl
  | cons c rest =>
    by_cases hpoint : c = '.'
    · subst hpoint
      simp only [List.cons_append, takeWhile_close (p := Char.isDigit) rfl,
        dropWhile_close (p := Char.isDigit) rfl]
      split <;> rfl
    · simp [hpoint]

theorem boundAfter_close (letter : String) (always : Bool) :
    StopsAtClose (boundAfter letter always) := by
  have htable : StopsAtClose (oneOf BoundRelation.spellings) := oneOf_close rfl
  intro s w
  rw [boundAfter, boundAfter, skipGaps_close, htable]
  cases oneOf BoundRelation.spellings (skipGaps s) with
  | none => rfl
  | some result =>
    simp only [Option.map_some, appendClose, Option.bind_eq_bind, Option.bind_some,
      skipGaps_close, takeWhile_close (p := Char.isDigit) rfl,
      dropWhile_close (p := Char.isDigit) rfl]
    split <;> rfl

/-- An operator before an operand does not reach over a closing parenthesis. -/
theorem leadingOp_close : StopsAtClose leadingOp := by
  intro s w
  rw [leadingOp, leadingOp, skipGaps_close]
  cases skipGaps s with
  | nil => rfl
  | cons c rest =>
    by_cases hbang : c = '!'
    · subst hbang
      have hhead : (skipGaps (rest ++ ')' :: w)).head? = some '=' ↔
          (skipGaps rest).head? = some '=' := by
        rw [skipGaps_close]
        cases skipGaps rest <;> simp
      simp only [List.cons_append, hhead]
      split <;> rfl
    · rw [List.cons_append]
      split
      · rename_i heq
        exact absurd (List.cons.inj heq).1 hbang
      · split
        · rename_i heq
          exact absurd (List.cons.inj heq).1 hbang
        · rw [← List.cons_append, word_close]
          cases word (c :: rest) with
          | none => rfl
          | some result =>
            obtain ⟨letter, after⟩ := result
            simp only [Option.map_some, appendClose, Option.bind_eq_bind, Option.bind_some]
            split
            · rfl
            · rw [boundAfter_close]
              cases boundAfter "F" false after <;> rfl
            · rw [boundAfter_close]
              cases boundAfter "G" true after <;> rfl
            · rfl

theorem relationOp_close : StopsAtClose relationOp := by
  intro s w
  rw [relationOp, relationOp, skipGaps_close, after?_close rfl]
  cases Text.after? "<->".toList (skipGaps s) with
  | some rest => rfl
  | none => exact symbol_close rfl s w

theorem levelOp_close (k : Nat) : StopsAtClose (levelOp k) := by
  match k with
  | 0 => exact wordOf_close _
  | 1 | 2 | 3 | 4 | 5 => exact symbol_close rfl
  | _ + 6 => exact fun _ _ ↦ rfl

end Tokens

/-! ## Loops and terms -/

section Loops

variable {α β : Type}

/-- A reader that reads inside of parentheses what another one reads alone, from texts shorter than
`n` that close their groups.  The two may differ in how deep they go. -/
def Encloses (n : Nat) (read read' : Reader α) : Prop :=
  ∀ s w, s.length < n → Closed s → read' (s ++ ')' :: w) = (read s).map (appendClose w)

/-- A loop that is given enough rounds stops at a closing parenthesis. -/
theorem many_close {read : Reader α} (hread : StopsAtClose read) (htoken : ReadsToken read)
    {n n' : Nat} {s : List Char} (w : List Char) (hn : s.length < n) (hn' : s.length < n') :
    many read n' (s ++ ')' :: w) = appendClose w (many read n s) := by
  induction n generalizing n' s with
  | zero => cases hn
  | succ n ih =>
    obtain ⟨n', rfl⟩ : ∃ k, n' = k + 1 := ⟨n' - 1, by omega⟩
    rw [many, many, hread]
    cases hs : read s with
    | none => rfl
    | some result =>
      obtain ⟨a, rest⟩ := result
      obtain ⟨token, rfl, hsolid⟩ := htoken _ _ _ hs
      have hpos := List.length_pos_iff.mpr hsolid.ne_nil
      rw [List.length_append] at hn hn'
      have hrest : many read n' (rest ++ ')' :: w) = appendClose w (many read n rest) :=
        ih (by omega) (by omega)
      simp only [Option.map_some, appendClose, hrest]

section Chains

variable {op : Reader β} {read read' : Reader α} {P : α → List Char → Prop} {k n n' : Nat}

/-- The links of a chain stop at a closing parenthesis. -/
theorem links_close (hop : StopsAtClose op) (htoken : ReadsToken op)
    (hread : Encloses k read read') (hsound : Sound read P) {s : List Char} (w : List Char)
    (hk : s.length ≤ k) (hn : s.length < n) (hn' : s.length < n') (hclosed : Closed s) :
    links op read' n' (s ++ ')' :: w) = appendClose w (links op read n s) := by
  induction n generalizing n' s with
  | zero => cases hn
  | succ n ih =>
    obtain ⟨n', rfl⟩ : ∃ k, n' = k + 1 := ⟨n' - 1, by omega⟩
    rw [links, links, hop]
    cases hs : op s with
    | none => rfl
    | some result =>
      obtain ⟨o, afterOp⟩ := result
      obtain ⟨token, rfl, hsolid⟩ := htoken _ _ _ hs
      have hpos := List.length_pos_iff.mpr hsolid.ne_nil
      rw [List.length_append] at hk hn hn'
      have hoperand := hread afterOp w (by omega) hclosed.of_append
      simp only [Option.map_some, appendClose, hoperand]
      cases hafter : read afterOp with
      | none => rfl
      | some result =>
        obtain ⟨a, rest⟩ := result
        obtain ⟨span, rfl, -⟩ := hsound _ _ _ hafter
        rw [List.length_append] at hk hn hn'
        have hrest : links op read' n' (rest ++ ')' :: w) =
            appendClose w (links op read n rest) :=
          ih (by omega) (by omega) (by omega) hclosed.of_append.of_append
        simp only [Option.map_some, appendClose, hrest]

/-- A chain stops at a closing parenthesis if its operands do. -/
theorem chain_close (hop : StopsAtClose op) (htoken : ReadsToken op)
    (hread : Encloses k read read') (hsound : Sound read P) (hn : k ≤ n) (hn' : k ≤ n') :
    Encloses k (chain op read n) (chain op read' n') := by
  intro s w hk hclosed
  rw [chain, chain, hread s w hk hclosed]
  cases hs : read s with
  | none => rfl
  | some result =>
    obtain ⟨first, rest⟩ := result
    obtain ⟨span, rfl, -⟩ := hsound _ _ _ hs
    rw [List.length_append] at hk
    have hlinks : links op read' n' (rest ++ ')' :: w) = appendClose w (links op read n rest) :=
      links_close hop htoken hread hsound w (by omega) (by omega) (by omega) hclosed.of_append
    simp only [Option.map_some, appendClose, Option.bind_eq_bind, Option.bind_some, hlinks]
    rfl

end Chains

end Loops

theorem readsToken_operationAt (k : Nat) : ReadsToken (operationAt k) := by
  intro s op rest hread
  match k with
  | 0 => exact readsToken_symbol rfl s op rest hread
  | 1 =>
    obtain ⟨gaps, hgaps, hs⟩ := exists_gaps s
    have hsign (sign : Char) (hskip : skipGaps s = sign :: rest) (hplain : isPlain [sign] = true) :
        ∃ span, s = span ++ rest ∧ IsToken span := by
      have htoken : TokenText [sign] (gaps ++ [sign]) := ⟨gaps, hgaps, rfl⟩
      refine ⟨gaps ++ [sign], ?_, htoken.isToken hplain⟩
      rw [List.append_assoc, List.singleton_append, ← hskip, ← hs]
    change additiveOp s = some (op, rest) at hread
    unfold additiveOp at hread
    split at hread
    · rename_i tail hskip
      obtain ⟨-, rfl⟩ := Prod.mk.inj (Option.some.inj hread)
      exact hsign '+' hskip rfl
    · rename_i tail hskip
      split at hread
      · obtain ⟨-, rfl⟩ := Prod.mk.inj (Option.some.inj hread)
        exact hsign '-' hskip rfl
      · cases hread
    · cases hread
  | _ + 2 => cases hread

theorem readsToken_negativeSign : ReadsToken negativeSign := by
  intro s u rest hread
  obtain ⟨token, htoken, hs⟩ := negativeSign_eq_some hread
  exact ⟨token, hs, htoken.isToken rfl⟩

section Terms

variable {k n n' : Nat} {inner inner' : Reader Term}

/-- The arguments of a call are read alike in front of a closing parenthesis. -/
theorem arguments_close (hinner : Encloses k inner inner')
    (hsound : Sound inner fun t ↦ TermText (.level 2 t)) (hn : k ≤ n) (hn' : k ≤ n') :
    Encloses (k + 1) (arguments inner n) (arguments inner' n') := by
  have hcomma : isPlainTable [(",", ())] = true := rfl
  have hitems : Encloses k (chain (symbol [(",", ())]) inner n)
      (chain (symbol [(",", ())]) inner' n') :=
    chain_close (symbol_close hcomma) (readsToken_symbol hcomma) hinner hsound hn hn'
  intro s w hk hclosed
  rw [arguments, arguments, mark_close (Or.inl (by decide))]
  cases hopen : mark '(' s with
  | none => rfl
  | some afterOpen =>
    obtain ⟨opener, hopener, rfl⟩ := mark_eq_some hopen
    have hpos := hopener.length_pos
    rw [List.length_append] at hk
    have houter := hclosed.closesOuter hopener
    simp only [Option.map_some, Option.bind_eq_bind, Option.bind_some,
      hitems afterOpen w (by omega) hclosed.of_append]
    cases hchain : chain (symbol [(",", ())]) inner n afterOpen with
    | none =>
      simp only [Option.map_none, mark_close (Or.inr houter)]
      cases mark ')' afterOpen <;> rfl
    | some result =>
      obtain ⟨⟨first, others⟩, rest⟩ := result
      obtain ⟨afterFirst, hfirst, hlinks⟩ := chain_eq_some.mp hchain
      obtain ⟨text, rfl, htext⟩ := hsound _ _ _ hfirst
      obtain ⟨span, rfl, hspan⟩ := itemLinks_sound hsound hlinks
      have hbalanced : Text.Balanced (text ++ span) := (hspan first text htext).balanced
      rw [← List.append_assoc] at houter
      simp only [Option.map_some, appendClose, mark_close (Or.inr (houter.of_append hbalanced))]
      cases mark ')' rest <;> rfl

theorem named_close (hinner : Encloses k inner inner')
    (hsound : Sound inner fun t ↦ TermText (.level 2 t)) (hn : k ≤ n) (hn' : k ≤ n') :
    Encloses (k + 1) (named inner n) (named inner' n') := by
  intro s w hk hclosed
  rw [named, named, word_close]
  cases hword : word s with
  | none => rfl
  | some result =>
    obtain ⟨name, rest⟩ := result
    obtain ⟨token, rfl, -⟩ := readsToken_word _ _ _ hword
    rw [List.length_append] at hk
    simp only [Option.map_some, appendClose, Option.bind_eq_bind, Option.bind_some,
      arguments_close hinner hsound hn hn' rest w (by omega) hclosed.of_append]
    cases truthWords.find? (fun entry ↦ entry.1 = String.ofList name) with
    | some entry => rfl
    | none =>
      by_cases htemporal : String.ofList name ∈ temporalWords
      · simp only [if_pos htemporal]
        rfl
      · simp only [if_neg htemporal]
        cases arguments inner n rest <;> rfl

/-- An operand is read alike in front of a closing parenthesis. -/
theorem operand_close (hinner : Encloses k inner inner')
    (hsound : Sound inner fun t ↦ TermText (.level 2 t)) (hn : k ≤ n) (hn' : k ≤ n') :
    Encloses (k + 1) (operand inner n) (operand inner' n') := by
  intro s w hk hclosed
  obtain ⟨gaps, hgaps, hs⟩ := exists_gaps s
  rw [operand, operand, skipGaps_close]
  have hstart : Closed (skipGaps s) := by
    rw [hs] at hclosed
    exact hclosed.of_append
  have hlength : (skipGaps s).length ≤ s.length := (List.dropWhile_sublist _).length_le
  cases hskip : skipGaps s with
  | nil => rfl
  | cons c rest =>
    rw [hskip] at hstart hlength
    rw [List.length_cons] at hlength
    rw [List.cons_append]
    dsimp only
    split
    · rename_i hc
      subst hc
      have houter : ClosesOuter rest :=
        Closed.closesOuter (s := ['(']) (t := rest) hstart (TokenText.self ['('])
      rw [hinner rest w (by omega) hstart.2]
      cases hterm : inner rest with
      | none => rfl
      | some result =>
        obtain ⟨t, afterTerm⟩ := result
        obtain ⟨span, rfl, hspan⟩ := hsound _ _ _ hterm
        simp only [Option.map_some, appendClose, Option.bind_eq_bind, Option.bind_some,
          mark_close (Or.inr (houter.of_append hspan.balanced))]
        cases mark ')' afterTerm <;> rfl
    · split
      · rw [← List.cons_append, takeNumber_close]
        rfl
      · rw [← List.cons_append]
        exact named_close hinner hsound hn hn' (c :: rest) w
          (by rw [List.length_cons]; omega) hstart

theorem signed_close (hinner : Encloses k inner inner')
    (hsound : Sound inner fun t ↦ TermText (.level 2 t)) (hn : k < n) (hn' : k < n') :
    Encloses (k + 1) (signed inner n) (signed inner' n') := by
  intro s w hk hclosed
  have hmany : many negativeSign n' (s ++ ')' :: w) = appendClose w (many negativeSign n s) :=
    many_close negativeSign_close readsToken_negativeSign w (by omega) (by omega)
  cases hsigns : many negativeSign n s with
  | mk signs rest =>
    obtain ⟨span, rfl, -⟩ := many_sound readsToken_negativeSign hsigns
    rw [List.length_append] at hk
    have hoperand : operand inner' n' (rest ++ ')' :: w) =
        (operand inner n rest).map (appendClose w) :=
      operand_close hinner hsound (by omega) (by omega) rest w (by omega) hclosed.of_append
    rw [signed, signed, hmany, hsigns]
    simp only [appendClose, hoperand]
    cases operand inner n rest <;> rfl

/-- Terms of every level are read alike in front of a closing parenthesis. -/
theorem readLevel_close (hinner : Encloses k inner inner')
    (hsound : Sound inner fun t ↦ TermText (.level 2 t)) (hn : k < n) (hn' : k < n') (j : Nat) :
    Encloses (k + 1) (readLevel inner n j) (readLevel inner' n' j) := by
  induction j with
  | zero => exact signed_close hinner hsound hn hn'
  | succ j ih =>
    intro s w hk hclosed
    have hchain := chain_close (operationAt_close j) (readsToken_operationAt j) ih
      (readLevel_sound hsound n j) hn hn' s w hk hclosed
    rw [readLevel, readLevel, termChain, termChain, hchain]
    cases chain (operationAt j) (readLevel inner n j) n s <;> rfl

end Terms

/-- A term is read inside of parentheses as it is read alone. -/
theorem termUpTo_close {n n' : Nat} (h : n ≤ n') : Encloses n (termUpTo n) (termUpTo n') := by
  induction n generalizing n' with
  | zero =>
    intro s w hn
    cases hn
  | succ n ih =>
    obtain ⟨n', rfl⟩ : ∃ k, n' = k + 1 := ⟨n' - 1, by omega⟩
    rw [termUpTo_succ, termUpTo_succ]
    exact readLevel_close (ih (by omega)) (termUpTo_sound n) (Nat.lt_succ_self n) (by omega) 2

/-! ## Formulas and whole texts -/

/-- Comparisons are read alike in front of a closing parenthesis. -/
theorem relation_close {k : Nat} {term term' : Reader Term} (hterm : Encloses k term term')
    (hsound : Sound term fun t ↦ TermText (.level 2 t)) :
    Encloses k (relation term) (relation term') := by
  intro s w hk hclosed
  have htext (span rest : List Char) :
      textBetween (span ++ rest ++ ')' :: w) (rest ++ ')' :: w) = textBetween (span ++ rest) rest := by
    rw [List.append_assoc, textBetween_append, textBetween_append]
  rw [relation, relation, hterm s w hk hclosed]
  cases hleft : term s with
  | none => rfl
  | some result =>
    obtain ⟨l, afterLeft⟩ := result
    obtain ⟨span, rfl, -⟩ := hsound _ _ _ hleft
    simp only [Option.map_some, appendClose, Option.bind_eq_bind, Option.bind_some, htext,
      relationOp_close afterLeft w]
    cases hop : relationOp afterLeft with
    | none => rfl
    | some result =>
      obtain ⟨op, afterOp⟩ := result
      obtain ⟨token, -, rfl⟩ := relationOp_eq_some hop
      simp only [List.length_append] at hk
      simp only [Option.map_some, appendClose, Option.bind_some,
        hterm afterOp w (by omega) hclosed.of_append.of_append]
      cases hright : term afterOp with
      | none => rfl
      | some result =>
        obtain ⟨r, afterRight⟩ := result
        obtain ⟨span', rfl, -⟩ := hsound _ _ _ hright
        have hboth := htext (span ++ (token ++ span')) afterRight
        simp only [List.append_assoc] at hboth
        simp [appendClose, hboth]

/-- A parenthesis around a formula nests it one deeper than its inside. -/
theorem primary_close {k n n' : Nat} {inner inner' : Reader Judged} (h : n ≤ n')
    (hn : k + 1 ≤ n) (hinner : Encloses k inner inner') (hsound : Sound inner SpanOf) :
    Encloses (k + 1) (primary (termUpTo n) inner) (primary (termUpTo n') inner') := by
  intro s w hk hclosed
  have hrelation := relation_close (termUpTo_close h) (termUpTo_sound n) s w (by omega) hclosed
  rw [primary, primary, hrelation]
  cases relation (termUpTo n) s with
  | some result => rfl
  | none =>
    simp only [Option.map_none, mark_close (c := '(') (Or.inl (by decide))]
    cases hopen : mark '(' s with
    | none => rfl
    | some afterOpen =>
      obtain ⟨opener, hopener, rfl⟩ := mark_eq_some hopen
      have hpos := hopener.length_pos
      rw [List.length_append] at hk
      have houter := hclosed.closesOuter hopener
      simp only [Option.map_some, Option.bind_eq_bind, Option.bind_some,
        hinner afterOpen w (by omega) hclosed.of_append]
      cases hread : inner afterOpen with
      | none => rfl
      | some result =>
        obtain ⟨f, afterInner⟩ := result
        obtain ⟨span, rfl, hspan⟩ := hsound _ _ _ hread
        simp only [Option.map_some, appendClose, Option.bind_some,
          mark_close (Or.inr (houter.of_append hspan.balanced))]
        cases mark ')' afterInner <;> rfl

/-- The operators before an operand do not change where its reader stops. -/
theorem factor_close {k n n' : Nat} {read read' : Reader Judged} (hread : Encloses k read read')
    (hn : k ≤ n) (hn' : k ≤ n') : Encloses k (factor read n) (factor read' n') := by
  intro s w hk hclosed
  have hmany : many leadingOp n' (s ++ ')' :: w) = appendClose w (many leadingOp n s) :=
    many_close leadingOp_close readsToken_leadingOp w (by omega) (by omega)
  cases hops : many leadingOp n s with
  | mk ops rest =>
    obtain ⟨span, rfl, -⟩ := many_sound readsToken_leadingOp hops
    rw [List.length_append] at hk
    have hrest := hread rest w (by omega) hclosed.of_append
    rw [factor, factor, hmany, hops]
    simp only [appendClose, hrest]
    cases read rest <;> rfl

/-- Formulas of every level are read alike in front of a closing parenthesis. -/
theorem readFormulaLevel_close {n n' : Nat} (h : n ≤ n')
    (hinner : Encloses n (formulaUpTo n) (formulaUpTo n')) (k : Nat) :
    Encloses (n + 1) (readFormulaLevel n k) (readFormulaLevel n' k) := by
  induction k with
  | zero =>
    have hprimary := primary_close (Nat.succ_le_succ h) (Nat.le_refl (n + 1)) hinner
      (formulaUpTo_sound n)
    exact factor_close hprimary (Nat.le_refl _) (Nat.succ_le_succ h)
  | succ k ih =>
    intro s w hk hclosed
    have hchain := chain_close (levelOp_close k) (readsToken_levelOp k) ih
      (readFormulaLevel_sound (formulaUpTo_sound n) k) (Nat.le_refl _) (Nat.succ_le_succ h) s w hk
      hclosed
    rw [readFormulaLevel, readFormulaLevel, level, level, hchain]
    cases chain (levelOp k) (readFormulaLevel n k) (n + 1) s <;> rfl

/-- A formula is read inside of parentheses as it is read alone. -/
theorem formulaUpTo_close {n n' : Nat} (h : n ≤ n') :
    Encloses n (formulaUpTo n) (formulaUpTo n') := by
  induction n generalizing n' with
  | zero =>
    intro s w hn
    cases hn
  | succ n ih =>
    obtain ⟨n', rfl⟩ : ∃ k, n' = k + 1 := ⟨n' - 1, by omega⟩
    rw [formulaUpTo_succ, formulaUpTo_succ]
    exact readFormulaLevel_close (by omega) (ih (by omega)) 6

/-- A formula that is read from the whole of a text is read from it in parentheses. -/
theorem formulaUpTo_wrap {n : Nat} {f : Formula} {span gaps : List Char}
    (hspan : Text.Balanced span) (hgaps : Gaps gaps) (hn : (span ++ gaps).length < n)
    (hread : formulaUpTo n (span ++ gaps) = some (.ok f, gaps)) :
    formulaUpTo (n + 2) ('(' :: (span ++ gaps ++ [')'])) = some (.ok f, []) := by
  have hclosed : Closed (span ++ gaps) := closed_of_balanced (hspan.append hgaps.balanced)
  have hinner : formulaUpTo (n + 1) (span ++ (gaps ++ [')'] ++ [])) =
      some (.ok f, gaps ++ [')'] ++ []) := by
    have hclose := formulaUpTo_close (Nat.le_succ n) (span ++ gaps) [] hn hclosed
    rw [hread, List.append_assoc] at hclose
    rw [List.append_nil]
    exact hclose
  have hgroup : ReadsFormula (n + 1) (n + 2) [] 0 f (['('] ++ (span ++ (gaps ++ [')']))) :=
    readsFormula_group (TokenText.self ['(']) hspan ⟨gaps, hgaps, rfl⟩
      (by simp only [List.length_append, List.length_singleton] at hn ⊢; omega)
      (formulaEnd_nil 0).toRelationEnd hinner
  have hwhole : readFormulaLevel (n + 1) 6 (['('] ++ (span ++ (gaps ++ [')'])) ++ []) =
      some (.ok f, []) :=
    (hgroup.lift_le (by decide) (formulaEnd_nil 6)).readLevel
  rw [formulaUpTo_succ, List.append_assoc span]
  rwa [List.append_nil] at hwhole

end Grammar

namespace Formula

/-- A text that is read as a formula is read as the same formula in parentheses, be they those of a
term or those of a formula, unless they nest too deep. -/
theorem parse_wrap {text : String} {f : Formula} (h : parse text = .ok f) :
    parse ("(" ++ text ++ ")") =
      if Text.nesting text.toList < maxNesting then .ok f
      else .error (.tooDeep (Text.nesting text.toList + 1)) := by
  obtain ⟨span, gaps, hs, hgaps, hspan, hread, -⟩ := Grammar.exists_span_of_parse h
  have hwrapped : "(" ++ text ++ ")" = String.ofList ('(' :: (text.toList ++ [')'])) := by
    apply String.toList_inj.mp
    simp
  rw [hs] at hread hwrapped ⊢
  have hwhole : Grammar.formulaUpTo (('(' :: (span ++ gaps ++ [')'])).length + 1)
      ('(' :: (span ++ gaps ++ [')'])) = some (.ok f, []) := by
    have hlength : ('(' :: (span ++ gaps ++ [')'])).length = (span ++ gaps).length + 2 := by
      simp [Nat.add_assoc]
    rw [hlength]
    exact Grammar.formulaUpTo_wrap hspan.balanced hgaps (Nat.lt_succ_self _) hread
  calc
    parse ("(" ++ text ++ ")") = parse (String.ofList ('(' :: (span ++ gaps ++ [')']))) := by
      rw [hwrapped]
    _ = if Text.nesting ('(' :: (span ++ gaps ++ [')'])) ≤ maxNesting then .ok f
        else .error (.tooDeep (Text.nesting ('(' :: (span ++ gaps ++ [')'])))) :=
      Grammar.parse_of_formulaUpTo rfl hwhole
    _ = if Text.nesting (span ++ gaps) < maxNesting then .ok f
        else .error (.tooDeep (Text.nesting (span ++ gaps) + 1)) := by
      rw [(hspan.balanced.append hgaps.balanced).nesting_wrap]
      simp only [Nat.succ_le_iff]

/-- Parentheses around a sum are those of a term, around an until those of a formula. -/
theorem parse_wrap_sum_until :
    let sum : Formula := atom ⟨"x + 1", .holds (.arith .add (.var "x") (.number "1"))⟩
    let waits : Formula := binary .strongUntil (atom (.var "a")) (atom (.var "b"))
    (parse "x + 1 " = .ok sum ∧ parse "(x + 1 )" = .ok sum) ∧
      parse "(a)U b" = .ok waits ∧ parse "((a)U b)" = .ok waits := by
  intro sum waits
  have hsum : parse "x + 1 " = .ok sum := eq_ok_of_toOption (by decide +kernel)
  have hwaits : parse "(a)U b" = .ok waits := eq_ok_of_toOption (by decide +kernel)
  have hsum' := parse_wrap hsum
  have hwaits' := parse_wrap hwaits
  rw [if_pos (by decide +kernel)] at hsum' hwaits'
  exact ⟨⟨hsum, hsum'⟩, hwaits, hwaits'⟩

end Formula

end TemporalRequirements

import TemporalRequirements.Proofs.Grammar.TermText

/-!
# Terms are read from texts that spell them

Whatever the readers of terms take off the front of a text spells what they return.  Each reader is
shown to keep to the grammar if the reader of inner terms does; the readers of terms of bounded
depth then follow by induction on the bound.
-/

namespace TemporalRequirements.Grammar

/-- A reader that takes off texts that spell what it returns. -/
def Sound {α : Type} (read : Reader α) (Spells : α → List Char → Prop) : Prop :=
  ∀ s a rest, read s = some (a, rest) → ∃ span, s = span ++ rest ∧ Spells a span

def operationAt : Nat → Reader ArithOp
  | 0 => multiplicativeOp
  | 1 => additiveOp
  | _ => fun _ ↦ none

/-- The sign of a product is taken off whatever follows. -/
theorem multiplicativeOp_eq_some {op : ArithOp} {s rest : List Char}
    (h : multiplicativeOp s = some (op, rest)) :
    ∃ token, s = token ++ rest ∧ ∀ s', OperationText 0 op token s' := by
  obtain ⟨sign, token, hmem, htoken, rfl⟩ := symbol_eq_some h
  refine ⟨token, rfl, fun s' ↦ ?_⟩
  simp only [List.mem_cons, Prod.mk.injEq, List.not_mem_nil, or_false] at hmem
  rcases hmem with ⟨rfl, rfl⟩ | ⟨rfl, rfl⟩ | ⟨rfl, rfl⟩
  · exact .mul htoken
  · exact .div htoken
  · exact .mod htoken

/-- The sign of a sum is taken off, and means what the text after it makes of it. -/
theorem additiveOp_eq_some {op : ArithOp} {s rest : List Char}
    (h : additiveOp s = some (op, rest)) :
    ∃ token, s = token ++ rest ∧
      ∀ s' r, rest = s' ++ r → s' ≠ [] → OperationText 1 op token s' := by
  obtain ⟨gaps, hgaps, hs⟩ := exists_gaps s
  unfold additiveOp at h
  split at h
  · rename_i tail hskip
    obtain ⟨rfl, rfl⟩ := Prod.mk.inj (Option.some.inj h)
    refine ⟨gaps ++ ['+'], by rw [List.append_assoc, List.singleton_append, ← hskip, ← hs], ?_⟩
    intro s' r _ _
    exact .add ⟨gaps, hgaps, rfl⟩
  · rename_i tail hskip
    split at h
    · obtain ⟨rfl, rfl⟩ := Prod.mk.inj (Option.some.inj h)
      refine ⟨gaps ++ ['-'], by rw [List.append_assoc, List.singleton_append, ← hskip, ← hs], ?_⟩
      intro s' r htail hne
      obtain ⟨c, s', rfl⟩ := List.exists_cons_of_ne_nil hne
      rw [htail, List.cons_append, List.head?_cons, Option.any_some]
      cases hc : isGap c with
      | true => exact .gapped ⟨gaps, hgaps, rfl⟩ hc
      | false => exact .sub ⟨gaps, hgaps, rfl⟩ hc
    · cases h
  · cases h

theorem operationAt_eq_some {k : Nat} {op : ArithOp} {s rest : List Char}
    (h : operationAt k s = some (op, rest)) :
    ∃ token, s = token ++ rest ∧
      ∀ s' r, rest = s' ++ r → s' ≠ [] → OperationText k op token s' := by
  match k with
  | 0 =>
    obtain ⟨token, hs, htoken⟩ := multiplicativeOp_eq_some h
    exact ⟨token, hs, fun s' _ _ _ ↦ htoken s'⟩
  | 1 => exact additiveOp_eq_some h
  | _ + 2 => cases h

def readLevel (inner : Reader Term) (n : Nat) : Nat → Reader Term
  | 0 => signed inner n
  | k + 1 => termChain (operationAt k) (readLevel inner n k) n

theorem termUpTo_succ (n : Nat) : termUpTo (n + 1) = readLevel (termUpTo n) (n + 1) 2 := rfl

/-- The links that are read spell the tail of a chain. -/
theorem links_sound {k : Nat} {read : Reader Term}
    (hread : Sound read fun t ↦ TermText (.level k t)) {n : Nat} {s rest : List Char}
    {others : List (ArithOp × Term)} (h : links (operationAt k) read n s = (others, rest)) :
    ∃ span, s = span ++ rest ∧ ∀ l, TermText (.tail k l (joinLeft .arith l others)) span := by
  induction n generalizing s others with
  | zero =>
    obtain ⟨rfl, rfl⟩ := Prod.mk.inj h
    exact ⟨[], rfl, fun l ↦ .stop⟩
  | succ n ih =>
    have hstop {others : List (ArithOp × Term)} (h : ([], s) = (others, rest)) :
        ∃ span, s = span ++ rest ∧
          ∀ l, TermText (.tail k l (joinLeft .arith l others)) span := by
      obtain ⟨rfl, rfl⟩ := Prod.mk.inj h
      exact ⟨[], rfl, fun l ↦ .stop⟩
    rw [links] at h
    split at h
    · exact hstop h
    · rename_i op afterOp hop
      split at h
      · exact hstop h
      · rename_i r afterOperand hoperand
        obtain ⟨token, rfl, htoken⟩ := operationAt_eq_some hop
        obtain ⟨span, rfl, hspan⟩ := hread _ _ _ hoperand
        cases hlinks : links (operationAt k) read n afterOperand with
        | mk more final =>
          rw [hlinks] at h
          obtain ⟨rfl, rfl⟩ := Prod.mk.inj h
          obtain ⟨tail, rfl, htail⟩ := ih hlinks
          refine ⟨token ++ (span ++ tail), by simp, fun l ↦ ?_⟩
          exact .link (htoken span _ rfl (hspan.endsFirm rfl).ne_nil) hspan (htail _)

/-- A chain is read as its first operand and then its links. -/
theorem chain_eq_some {α β : Type} {op : Reader β} {read : Reader α} {n : Nat}
    {s rest : List Char} {first : α} {others : List (β × α)} :
    chain op read n s = some ((first, others), rest) ↔
      ∃ afterFirst, read s = some (first, afterFirst) ∧
        links op read n afterFirst = (others, rest) := by
  unfold chain
  cases hfirst : read s with
  | none => simp
  | some result =>
    obtain ⟨first', afterFirst⟩ := result
    simp [Prod.ext_iff, and_assoc]

theorem termChain_sound {k : Nat} {read : Reader Term}
    (hread : Sound read fun t ↦ TermText (.level k t)) (n : Nat) :
    Sound (termChain (operationAt k) read n) fun t ↦ TermText (.level (k + 1) t) := by
  intro s t rest h
  obtain ⟨⟨⟨first, others⟩, final⟩, hchain, hresult⟩ := Option.bind_eq_some_iff.mp h
  obtain ⟨afterFirst, hfirst, hlinks⟩ := chain_eq_some.mp hchain
  obtain ⟨rfl, rfl⟩ := Prod.mk.inj (Option.some.inj hresult)
  obtain ⟨span, rfl, hspan⟩ := hread _ _ _ hfirst
  obtain ⟨tail, rfl, htail⟩ := links_sound hread hlinks
  exact ⟨span ++ tail, by rw [List.append_assoc], .chain hspan (htail first)⟩

/-! ## Operands -/

section Operands

variable {inner : Reader Term} {n : Nat}

theorem comma_eq_some {s rest : List Char} {u : Unit}
    (h : symbol [(",", ())] s = some (u, rest)) :
    ∃ token, TokenText [','] token ∧ s = token ++ rest := by
  obtain ⟨sign, token, hmem, htoken, hs⟩ := symbol_eq_some h
  obtain ⟨rfl, -⟩ := Prod.mk.inj (List.mem_singleton.mp hmem)
  exact ⟨token, htoken, hs⟩

/-- Items read after a first one make a list with it. -/
theorem itemLinks_sound (hinner : Sound inner fun t ↦ TermText (.level 2 t)) {s rest : List Char}
    {others : List (Unit × Term)} (h : links (symbol [(",", ())]) inner n s = (others, rest)) :
    ∃ span, s = span ++ rest ∧ ∀ first text, TermText (.level 2 first) text →
      TermText (.items (first :: others.map Prod.snd)) (text ++ span) := by
  induction n generalizing s others with
  | zero =>
    obtain ⟨rfl, rfl⟩ := Prod.mk.inj h
    exact ⟨[], rfl, fun first text htext ↦ by rw [List.append_nil]; exact .lastItem htext⟩
  | succ n ih =>
    have hstop {others : List (Unit × Term)} (h : ([], s) = (others, rest)) :
        ∃ span, s = span ++ rest ∧ ∀ first text, TermText (.level 2 first) text →
          TermText (.items (first :: others.map Prod.snd)) (text ++ span) := by
      obtain ⟨rfl, rfl⟩ := Prod.mk.inj h
      exact ⟨[], rfl, fun first text htext ↦ by rw [List.append_nil]; exact .lastItem htext⟩
    rw [links] at h
    split at h
    · exact hstop h
    · rename_i u afterComma hcomma
      split at h
      · exact hstop h
      · rename_i t afterItem hitem
        obtain ⟨token, htoken, rfl⟩ := comma_eq_some hcomma
        obtain ⟨span, rfl, hspan⟩ := hinner _ _ _ hitem
        cases hlinks : links (symbol [(",", ())]) inner n afterItem with
        | mk more final =>
          rw [hlinks] at h
          obtain ⟨rfl, rfl⟩ := Prod.mk.inj h
          obtain ⟨tail, rfl, htail⟩ := ih hlinks
          refine ⟨token ++ (span ++ tail), by simp, fun first text htext ↦ ?_⟩
          exact .item htext htoken (htail t span hspan)

/-- The arguments of a call are read off a text that spells them. -/
theorem arguments_sound (hinner : Sound inner fun t ↦ TermText (.level 2 t)) :
    Sound (arguments inner n) fun ts ↦ TermText (.arguments ts) := by
  intro s ts rest h
  obtain ⟨afterOpen, hopen, hread⟩ := Option.bind_eq_some_iff.mp h
  obtain ⟨opener, hopener, rfl⟩ := mark_eq_some hopen
  split at hread
  · rename_i first others afterItems hitems
    obtain ⟨afterClose, hclose, hresult⟩ := Option.bind_eq_some_iff.mp hread
    obtain ⟨rfl, rfl⟩ := Prod.mk.inj (Option.some.inj hresult)
    obtain ⟨afterFirst, hfirst, hlinks⟩ := chain_eq_some.mp hitems
    obtain ⟨text, rfl, htext⟩ := hinner _ _ _ hfirst
    obtain ⟨span, rfl, hspan⟩ := itemLinks_sound hinner hlinks
    obtain ⟨closer, hcloser, rfl⟩ := mark_eq_some hclose
    exact ⟨opener ++ ((text ++ span) ++ closer), by simp,
      .arguments hopener (hspan first text htext) hcloser⟩
  · obtain ⟨afterClose, hclose, hresult⟩ := Option.bind_eq_some_iff.mp hread
    obtain ⟨rfl, rfl⟩ := Prod.mk.inj (Option.some.inj hresult)
    obtain ⟨closer, hcloser, rfl⟩ := mark_eq_some hclose
    exact ⟨opener ++ closer, by rw [List.append_assoc], .noArguments hopener hcloser⟩

/-- What starts with a name is a truth value, a call or a variable. -/
theorem named_sound (hinner : Sound inner fun t ↦ TermText (.level 2 t)) :
    Sound (named inner n) fun t ↦ TermText (.operand t) := by
  intro s t rest h
  obtain ⟨⟨w, afterWord⟩, hword, hread⟩ := Option.bind_eq_some_iff.mp h
  obtain ⟨gaps, hgaps, rfl, hw, -⟩ := word_eq_some hword
  dsimp only at hread
  split at hread
  · rename_i entry htruth
    obtain ⟨rfl, rfl⟩ := Prod.mk.inj (Option.some.inj hread)
    have hmem : (entry.1, entry.2) ∈ truthWords := List.mem_of_find?_eq_some htruth
    have hname : entry.1 = String.ofList w := by simpa using List.find?_some htruth
    refine ⟨gaps ++ w, by rw [List.append_assoc], TermText.gaps rfl hgaps ?_⟩
    have htext := TermText.truth hmem
    rw [hname, String.toList_ofList] at htext
    exact htext
  · rename_i hnotTruth
    split at hread
    · cases hread
    · rename_i hnotTemporal
      have hname : NameText w := ⟨hw, hnotTruth, hnotTemporal⟩
      split at hread
      · rename_i args afterArguments harguments
        obtain ⟨rfl, rfl⟩ := Prod.mk.inj (Option.some.inj hread)
        obtain ⟨span, rfl, hspan⟩ := arguments_sound hinner _ _ _ harguments
        exact ⟨gaps ++ (w ++ span), by simp, TermText.gaps rfl hgaps (.call hname hspan)⟩
      · obtain ⟨rfl, rfl⟩ := Prod.mk.inj (Option.some.inj hread)
        exact ⟨gaps ++ w, by rw [List.append_assoc], TermText.gaps rfl hgaps (.var hname)⟩

/-- Operands are read off texts that spell them. -/
theorem operand_sound (hinner : Sound inner fun t ↦ TermText (.level 2 t)) :
    Sound (operand inner n) fun t ↦ TermText (.operand t) := by
  intro s t rest h
  obtain ⟨gaps, hgaps, hs⟩ := exists_gaps s
  unfold operand at h
  cases hskip : skipGaps s with
  | nil =>
    rw [hskip] at h
    cases h
  | cons c tail =>
    rw [hskip] at h hs
    dsimp only at h
    split at h
    · rename_i hc
      obtain ⟨⟨t', afterInner⟩, hterm, h⟩ := Option.bind_eq_some_iff.mp h
      obtain ⟨afterClose, hclose, hresult⟩ := Option.bind_eq_some_iff.mp h
      obtain ⟨rfl, rfl⟩ := Prod.mk.inj (Option.some.inj hresult)
      obtain ⟨span, rfl, hspan⟩ := hinner _ _ _ hterm
      obtain ⟨closer, hcloser, rfl⟩ := mark_eq_some hclose
      refine ⟨gaps ++ '(' :: (span ++ closer), ?_, TermText.gaps rfl hgaps (.paren hspan hcloser)⟩
      rw [hs, hc]
      simp
    · split at h
      · rename_i hdigit
        cases hnumber : Text.takeNumber (c :: tail) with
        | mk text final =>
          rw [hnumber] at h
          obtain ⟨rfl, rfl⟩ := Prod.mk.inj (Option.some.inj h)
          obtain ⟨heq, htext⟩ := takeNumber_sound hdigit hnumber
          refine ⟨gaps ++ text, ?_, TermText.gaps rfl hgaps (.number htext)⟩
          rw [List.append_assoc, ← heq, hs]
      · obtain ⟨span, heq, hspan⟩ := named_sound hinner _ _ _ h
        refine ⟨gaps ++ span, ?_, TermText.gaps rfl hgaps hspan⟩
        rw [List.append_assoc, ← heq, hs]

theorem negativeSign_eq_some {s rest : List Char} {u : Unit}
    (h : negativeSign s = some (u, rest)) :
    ∃ token, TokenText ['-'] token ∧ s = token ++ rest := by
  obtain ⟨gaps, hgaps, hs⟩ := exists_gaps s
  unfold negativeSign at h
  split at h
  · rename_i tail hskip
    split at h
    · obtain ⟨-, rfl⟩ := Prod.mk.inj (Option.some.inj h)
      refine ⟨gaps ++ ['-'], ⟨gaps, hgaps, rfl⟩, ?_⟩
      rw [List.append_assoc, List.singleton_append, ← hskip, ← hs]
    · cases h
  · cases h

/-- Signs read before an operand are those of a signed operand. -/
theorem signs_sound {s rest : List Char} {signs : List Unit}
    (h : many negativeSign n s = (signs, rest)) :
    ∃ span, s = span ++ rest ∧ ∀ t text, TermText (.operand t) text →
      TermText (.signed (signs.foldr (fun _ t ↦ .neg t) t)) (span ++ text) := by
  induction n generalizing s signs with
  | zero =>
    obtain ⟨rfl, rfl⟩ := Prod.mk.inj h
    exact ⟨[], rfl, fun t text htext ↦ .unsigned htext⟩
  | succ n ih =>
    rw [many] at h
    split at h
    · obtain ⟨rfl, rfl⟩ := Prod.mk.inj h
      exact ⟨[], rfl, fun t text htext ↦ .unsigned htext⟩
    · rename_i u afterSign hsign
      obtain ⟨token, htoken, rfl⟩ := negativeSign_eq_some hsign
      cases hmany : many negativeSign n afterSign with
      | mk more final =>
        rw [hmany] at h
        obtain ⟨rfl, rfl⟩ := Prod.mk.inj h
        obtain ⟨span, rfl, hspan⟩ := ih hmany
        refine ⟨token ++ span, by rw [List.append_assoc], fun t text htext ↦ ?_⟩
        rw [List.append_assoc]
        exact .negative htoken (hspan t text htext)

/-- Negated operands are read off texts that spell them. -/
theorem signed_sound (hinner : Sound inner fun t ↦ TermText (.level 2 t)) :
    Sound (signed inner n) fun t ↦ TermText (.signed t) := by
  intro s t rest h
  cases hsigns : many negativeSign n s with
  | mk signs afterSigns =>
    unfold signed at h
    rw [hsigns] at h
    obtain ⟨⟨t', final⟩, hoperand, hresult⟩ := Option.bind_eq_some_iff.mp h
    obtain ⟨rfl, rfl⟩ := Prod.mk.inj (Option.some.inj hresult)
    obtain ⟨span, rfl, hspan⟩ := signs_sound hsigns
    obtain ⟨text, rfl, htext⟩ := operand_sound hinner _ _ _ hoperand
    exact ⟨span ++ text, by rw [List.append_assoc], hspan t' text htext⟩

end Operands

/-! ## Terms of bounded depth -/

theorem readLevel_sound {inner : Reader Term}
    (hinner : Sound inner fun t ↦ TermText (.level 2 t)) (n k : Nat) :
    Sound (readLevel inner n k) fun t ↦ TermText (.level k t) := by
  induction k with
  | zero =>
    intro s t rest h
    obtain ⟨span, rfl, hspan⟩ := signed_sound hinner s t rest h
    exact ⟨span, rfl, .factor hspan⟩
  | succ k ih => exact termChain_sound ih n

/-- What is read as a term spells it. -/
theorem termUpTo_sound (n : Nat) : Sound (termUpTo n) fun t ↦ TermText (.level 2 t) := by
  induction n with
  | zero =>
    intro s t rest h
    cases h
  | succ n ih =>
    rw [termUpTo_succ]
    exact readLevel_sound ih (n + 1) 2

end TemporalRequirements.Grammar

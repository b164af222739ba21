import TemporalRequirements.Proofs.Grammar.Arithmetic
import TemporalRequirements.Proofs.Text.Nesting

/-!
# The text of an atom stands for the atom

The text that an atom keeps has single blanks inside and nothing to take off at its ends.  It nests
no deeper than the formula from which it was taken, so it can be read again, and gives the atom
alone.  Atoms with one text are therefore one atom.
-/

namespace TemporalRequirements

/-- No two blanks stand side by side in a squeezed text. -/
theorem Text.not_infix_squeeze (s : List Char) : ¬ [' ', ' '] <:+: Text.squeeze s := by
  induction s with
  | nil => decide
  | cons c s ih =>
    cases hc : Text.isBlank c with
    | false =>
      rw [Text.squeeze_cons_of_firm hc]
      intro h
      rcases List.infix_cons_iff.mp h with hprefix | hinfix
      · obtain ⟨rest, hrest⟩ := hprefix
        obtain ⟨rfl, -⟩ := List.cons.inj hrest
        cases hc
      · exact ih hinfix
    | true =>
      cases s with
      | nil =>
        have hspace : Text.squeeze [c] = [' '] := by simp [Text.squeeze, hc]
        rw [hspace]
        decide
      | cons d s =>
        rw [Text.squeeze_cons_of_blank hc]
        split
        · exact ih
        · rename_i hd
          intro h
          rcases List.infix_cons_iff.mp h with hprefix | hinfix
          · -- after the space comes ink
            obtain ⟨rest, hrest⟩ := hprefix
            have hhead := Text.head?_squeeze_cons d s
            rw [← (List.cons.inj hrest).2, if_neg hd] at hhead
            rw [← Option.some.inj hhead] at hd
            exact hd rfl
          · exact ih hinfix

/-- A text without outer blanks, without a run of blanks other than one space, and without a group
of parentheses that wraps it whole. -/
structure Text.IsNormal (s : List Char) : Prop where
  firm : (∀ c ∈ s.head?, isBlank c = false) ∧ ∀ c ∈ s.getLast?, isBlank c = false
  spaces : Spaced s ∧ ¬ [' ', ' '] <:+: s
  unwrapped : ∀ inner, Balanced inner → s ≠ '(' :: (inner ++ [')'])

namespace Grammar

/-- A text that starts and ends in ink, squeezed and balanced, is in normal form. -/
theorem CoreText.isNormal {s : List Char} (h : CoreText s) : Text.IsNormal s where
  firm := by
    constructor
    · intro c hc
      obtain ⟨d, rest, rfl, hd⟩ := h.starts
      obtain rfl := Option.some.inj hc
      exact hd
    · intro c hc
      obtain ⟨front, d, rfl, hd⟩ := h.ends
      rw [List.getLast?_concat] at hc
      obtain rfl := Option.some.inj hc
      exact hd
  spaces := ⟨Text.spaced_of_squeeze_eq h.squeezed, h.squeezed ▸ Text.not_infix_squeeze s⟩
  unwrapped inner hinner heq := by
    have hbare := h.bare
    rw [heq, hinner.inside?_wrap] at hbare
    cases hbare

/-! ## Nesting -/

theorem nesting_normalizeAtomText_le (s : List Char) :
    Text.nesting (normalizeAtomText s) ≤ Text.nesting s := by
  calc
    Text.nesting (normalizeAtomText s) ≤ Text.nesting (Text.squeeze (Text.trim s)) :=
      Text.nesting_le_of_infix (Text.isInfix_unwrap _)
    _ = Text.nesting (Text.trim s) := Text.nestingFrom_squeeze 0 _
    _ ≤ Text.nesting s := Text.nesting_le_of_infix (Text.isInfix_trim s)

/-- The text of an atom nests no deeper than the formula that it stands in. -/
theorem nesting_atom_le {text : String} {f : Formula} (h : Formula.parse text = .ok f) {a : Atom}
    (ha : a ∈ f.atoms) : Text.nesting a.text.toList ≤ maxNesting := by
  obtain ⟨span, gaps, hs, -, hspan, -, hnesting⟩ := exists_span_of_parse h
  obtain ⟨part, hpart, p, -, hformula⟩ := hspan.atoms a ha
  have hwithin : part <:+: text.toList := hs ▸ hpart.trans (List.prefix_append span gaps).isInfix
  rw [(Predicate.parts_of_formula hformula).2, String.toList_ofList]
  calc
    Text.nesting (normalizeAtomText part) ≤ Text.nesting part := nesting_normalizeAtomText_le part
    _ ≤ Text.nesting text.toList := Text.nesting_le_of_infix hwithin
    _ ≤ maxNesting := hnesting

end Grammar

namespace Formula

/-! ## Reading an atom again -/

/-- The text of an atom that is read is in normal form and is read as the atom, text and predicate
alike; so an atom with this text in any formula that is read is the same atom. -/
theorem parse_atom_text {text : String} {f : Formula} (h : parse text = .ok f) {a : Atom}
    (ha : a ∈ f.atoms) :
    Text.IsNormal a.text.toList ∧ parse a.text = .ok (atom a) ∧
      ∀ text' f', parse text' = .ok f' → ∀ b ∈ f'.atoms, b.text = a.text →
        b.predicate = a.predicate := by
  have hwell : a.WellRead := Grammar.wellRead_of_parse h a ha
  have hparse : parse a.text = .ok (atom a) := by
    have hagain := (Grammar.formulaText_atom hwell).alone.parse
    rw [String.ofList_toList, if_pos (Grammar.nesting_atom_le h ha)] at hagain
    exact hagain
  refine ⟨hwell.core.isNormal, hparse, ?_⟩
  intro text' f' h' b hb htext
  have hspelled := (Grammar.wellRead_of_parse h' b hb).spelled
  rw [htext] at hspelled
  exact hspelled.unique hwell.spelled

/-- Two writings of one comparison, one of them in parentheses and with more blanks. -/
theorem parse_atom_text_spaced :
    let a : Atom := ⟨"x -1 > f( y )",
      .compare (.arith .sub (.var "x") (.number "1")) .gt (.call "f" [.var "y"])⟩
    parse "G(( x  -1 >\tf( y ) ) && b)" =
        .ok (unary .always (binary .and (atom a) (atom (.var "b")))) ∧
      Text.IsNormal a.text.toList ∧ parse a.text = .ok (atom a) := by
  intro a
  have hread : parse "G(( x  -1 >\tf( y ) ) && b)" =
      .ok (unary .always (binary .and (atom a) (atom (.var "b")))) :=
    eq_ok_of_toOption (by decide +kernel)
  have ha : a ∈ (unary .always (binary .and (atom a) (atom (.var "b")))).atoms :=
    List.mem_cons_self
  obtain ⟨hnormal, hparse, -⟩ := parse_atom_text hread ha
  exact ⟨hread, hnormal, hparse⟩

end Formula

end TemporalRequirements

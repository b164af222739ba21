import TemporalRequirements.Proofs.Grammar.Printed

/-!
# Precedence and grouping

A formula is read back from the text that has only the parentheses its levels ask for.  A binary
formula stands bare where its operator binds tightly enough, relations stand bare everywhere, and
only a chain that is grouped from the right goes without parentheses.
-/

namespace TemporalRequirements

namespace Formula

/-- The text of a formula in a place for operators of the levels below `place`.  Every operator is
grouped from the right: its right operand may be of its own level, its left operand may not, and
the operand of an operator with one operand is no binary formula at all. -/
def printAt (place : Nat) : Formula → String
  | const b => truthText b
  | atom a => a.text
  | unary .not f => Dialect.letters .not ++ printAt 0 f
  | unary op f => Dialect.letters op ++ " " ++ printAt 0 f
  | bounded op n f => op.spell n ++ " " ++ printAt 0 f
  | binary op l r =>
    parenthesizedIf (place ≤ op.level)
      (printAt op.level l ++ " " ++ Dialect.canonical.binary op ++ " " ++ printAt (op.level + 1) r)

/-- The text of a formula with the parentheses that it needs. -/
def printMinimal (f : Formula) : String := f.printAt 6

end Formula

namespace Grammar

/-! ## They spell the formula -/

/-- A space in front of an operand separates it from the operator before it. -/
theorem FormulaText.spaced {k : Nat} {f : Formula} {s : List Char} (h : FormulaText k f s) :
    FormulaText k f (' ' :: s) :=
  h.gaps (Gaps.cons (c := ' ') rfl Gaps.nil)

theorem detached_spaced (s rest : List Char) : Detached (' ' :: s ++ rest) :=
  detached_cons rfl (s ++ rest)

theorem FormulaText.unary {op : UnaryOp} {f : Formula} {s : List Char} (hop : op ≠ .not)
    (h : FormulaText 0 f s) :
    FormulaText 0 (.unary op f) ((Dialect.letters op).toList ++ ' ' :: s) :=
  .leading (leadingText_letter hop h.spaced (detached_spaced s)) rfl h.spaced

theorem FormulaText.bounded {f : Formula} {s : List Char} (op : BoundedOp) (n : UInt32)
    (h : FormulaText 0 f s) :
    FormulaText 0 (.bounded op n f) ((op.spell n).toList ++ ' ' :: s) :=
  .leading (leadingText_bounded op n (detached_spaced s)) (apply_writtenBound op n f) h.spaced

/-- A binary formula is of the level above its operator's own. -/
theorem FormulaText.binary {l r : Formula} {s s' : List Char} (op : BinaryOp)
    (hl : FormulaText op.level l s) (hr : FormulaText (op.level + 1) r s') :
    FormulaText (op.level + 1) (.binary op l r)
      (s ++ (' ' :: (Dialect.canonical.binary op).toList ++ ' ' :: s')) :=
  .join hl (joinText_canonical op s') hr.spaced

/-- Parentheses go around a formula that is too loose for its place. -/
theorem FormulaText.placed {k : Nat} {f : Formula} {text : String} (hk : k + 1 ≤ 6)
    (h : FormulaText (k + 1) f text.toList) (place : Nat) :
    FormulaText place f (parenthesizedIf (place ≤ k) text).toList := by
  by_cases hplace : place ≤ k
  · have hwrap := (h.lift_le hk).wrap.lift_le (Nat.zero_le place)
    simpa [parenthesizedIf, hplace] using hwrap
  · have hbare := h.lift_le (Nat.lt_of_not_le hplace)
    simpa [parenthesizedIf, hplace] using hbare

/-- Every place of a formula spells what stands there on the levels of the place. -/
theorem formulaText_printAt {f : Formula} (h : ∀ a ∈ f.atoms, a.WellRead) (place : Nat) :
    FormulaText place f (f.printAt place).toList := by
  induction f generalizing place with
  | const b => exact (formulaText_const (Dialect.truth_canonical b)).lift_le (Nat.zero_le place)
  | atom a => exact (formulaText_atom (h a List.mem_cons_self)).lift_le (Nat.zero_le place)
  | unary op f ih =>
    have hoperand := ih h 0
    refine FormulaText.lift_le ?_ (Nat.zero_le place)
    cases op with
    | not =>
      rw [Formula.printAt, String.toList_append]
      exact .leading (leadingText_not hoperand) rfl hoperand
    | next | eventually | always =>
      simp only [Formula.printAt, String.toList_append, List.append_assoc]
      exact hoperand.unary (by decide)
  | bounded op n f ih =>
    refine FormulaText.lift_le ?_ (Nat.zero_le place)
    rw [Formula.printAt, String.toList_append, String.toList_append, List.append_assoc]
    exact (ih h 0).bounded op n
  | binary op l r ihl ihr =>
    have hl := ihl (fun a ha ↦ h a (List.mem_append_left _ ha)) op.level
    have hr := ihr (fun a ha ↦ h a (List.mem_append_right _ ha)) (op.level + 1)
    have hjoined := FormulaText.binary op hl hr
    rw [Formula.printAt]
    apply FormulaText.placed (by cases op <;> decide)
    simpa using hjoined

end Grammar

namespace Formula

/-! ## Reading back -/

/-- The text of a formula with the parentheses that it needs is read as the formula, unless its
parentheses nest too deep. -/
theorem parse_printMinimal {text : String} {f : Formula} (h : parse text = .ok f) :
    parse f.printMinimal =
      if Text.nesting f.printMinimal.toList ≤ maxNesting then .ok f
      else .error (.tooDeep (Text.nesting f.printMinimal.toList)) := by
  have htext := (Grammar.formulaText_printAt (Grammar.wellRead_of_parse h) 6).parse
  rwa [String.ofList_toList] at htext

theorem parse_printMinimal_chains :
    ∃ f, parse "((a -> b) -> (x + 1 < y)) <-> (!((p U q) V F<=3 (X (a = b) ^ c)))" = .ok f ∧
      f.printMinimal = "(a -> b) -> x + 1 < y <-> !((p U q) V F<=3 (X a = b ^ c))" ∧
      parse f.printMinimal = .ok f := by
  let name (v : String) : Formula := atom ⟨v, .holds (.var v)⟩
  let sum : Formula :=
    atom ⟨"x + 1 < y", .compare (.arith .add (.var "x") (.number "1")) .lt (.var "y")⟩
  let same : Formula := atom ⟨"a = b", .compare (.var "a") .eq (.var "b")⟩
  let chain : Formula := binary .implies (binary .implies (name "a") (name "b")) sum
  let window : Formula :=
    bounded .eventuallyWithin 3 (binary .xor (unary .next same) (name "c"))
  let waiting : Formula := binary .release (binary .strongUntil (name "p") (name "q")) window
  let f : Formula := binary .iff chain (unary .not waiting)
  have hread :
      parse "((a -> b) -> (x + 1 < y)) <-> (!((p U q) V F<=3 (X (a = b) ^ c)))" = .ok f :=
    eq_ok_of_toOption (by decide +kernel)
  have hprint : f.printMinimal =
      "(a -> b) -> x + 1 < y <-> !((p U q) V F<=3 (X a = b ^ c))" := by
    decide +kernel
  have hnesting : Text.nesting f.printMinimal.toList ≤ maxNesting := by decide +kernel
  have hagain := parse_printMinimal hread
  rw [if_pos hnesting] at hagain
  exact ⟨f, hread, hprint, hagain⟩

end Formula

end TemporalRequirements

import TemporalRequirements.Proofs.Formula.Lowering
import TemporalRequirements.Proofs.Grammar.Printed

/-!
# Lowered formulas are read back

What the model checkers are given of a formula is read as a formula of the same meaning: the formula
itself, but for the operators that the model checker lacks.
-/

namespace TemporalRequirements

/-! ## Notations of the model checkers -/

namespace Dialect

theorem isReadable_divine (ops : List BinaryOp) : divine.IsReadable ops where
  truth := truth_canonical
  letters := rfl
  spelled op _ := by cases op <;> constructor

/-- Only the exclusive or of the SMV notation is not read. -/
theorem isReadable_smv {ops : List BinaryOp} (h : .xor ∉ ops) : smv.IsReadable ops where
  truth b := by cases b <;> decide
  letters := rfl
  spelled op hop := by
    cases op with
    | xor => exact absurd hop h
    | _ => constructor

end Dialect

/-! ## Reading back -/

/-- The dialect writes a formula so that it is read as `low`, which means the same, unless the
parentheses of the text nest too deep. -/
def Dialect.Conveys (d : Dialect) (f low : Formula) : Prop :=
  (∀ trace i, low.Holds trace i ↔ f.Holds trace i) ∧
    ∃ printed, f.render d Atom.text = .ok printed ∧
      Formula.parse printed =
        if Text.nesting printed.toList ≤ maxNesting then .ok low
        else .error (.tooDeep (Text.nesting printed.toList))

namespace Formula

/-- Rewriting weak untils brings no exclusive or. -/
theorem xor_notMem_binaryOps_withoutWeakUntil {f : Formula} (h : .xor ∉ f.binaryOps) :
    .xor ∉ f.withoutWeakUntil.binaryOps := by
  induction f with
  | const b | atom a => exact h
  | unary op f ih | bounded op n f ih => exact ih h
  | binary op l r ihl ihr =>
    simp only [binaryOps, List.mem_cons, List.mem_append, not_or] at h
    obtain ⟨hop, hl, hr⟩ := h
    have hl' := ihl hl
    have hr' := ihr hr
    rw [withoutWeakUntil] at hl' hr' ⊢
    rw [rewriteBinary]
    cases op with
    | xor => exact absurd rfl hop
    | _ => simp [expandWeakUntil, binaryOps, hl', hr']

/-- A formula without exclusive or loses only its weak untils in the SMV notation. -/
theorem lower_smv {f : Formula} (h : .xor ∉ f.binaryOps) :
    Dialect.smv.lower f = f.withoutWeakUntil := by
  induction f with
  | const b | atom a => rfl
  | unary op f ih => exact congrArg (unary op) (ih h)
  | bounded op n f ih => exact congrArg (bounded op n) (ih h)
  | binary op l r ihl ihr =>
    simp only [binaryOps, List.mem_cons, List.mem_append, not_or] at h
    obtain ⟨hop, hl, hr⟩ := h
    rw [Dialect.lower, ihl hl, ihr hr]
    cases op with
    | xor => exact absurd rfl hop
    | _ => rfl

/-- What a readable dialect writes of a formula is read as the lowered formula. -/
theorem conveys_lower {d : Dialect} {f : Formula} (hatoms : ∀ a ∈ f.atoms, a.WellRead)
    (hbound : f.firstBound? = none) (hd : d.IsReadable (d.lower f).binaryOps)
    (hmeaning : ∀ trace i, (d.lower f).Holds trace i ↔ f.Holds trace i) :
    d.Conveys f (d.lower f) :=
  ⟨hmeaning, _, render_eq_ok hbound d Atom.text,
    parse_printWith hd fun a ha ↦ hatoms a (Dialect.mem_atoms_lower ha)⟩

/-- A formula that was read, without bounded operators, is conveyed by the notation of each model
checker with the less common operators written with others. -/
theorem conveys_of_parse {text : String} {f : Formula} (h : parse text = .ok f)
    (hbound : f.firstBound? = none) :
    Dialect.divine.Conveys f f.withoutXor.withoutWeakUntil ∧
      (.xor ∉ f.binaryOps → Dialect.smv.Conveys f f.withoutWeakUntil) := by
  have hatoms := Grammar.wellRead_of_parse h
  constructor
  · rw [← Dialect.lower_divine]
    refine conveys_lower hatoms hbound (Dialect.isReadable_divine _) fun trace i ↦ ?_
    rw [Dialect.lower_divine, holds_withoutWeakUntil, holds_withoutXor]
  · intro hxor
    have hreadable := Dialect.isReadable_smv (xor_notMem_binaryOps_withoutWeakUntil hxor)
    rw [← lower_smv hxor] at hreadable ⊢
    refine conveys_lower hatoms hbound hreadable fun trace i ↦ ?_
    rw [lower_smv hxor, holds_withoutWeakUntil]

/-- An exclusive or over a weak until, and a weak until over another and a release. -/
theorem conveys_of_parse_nested :
    (∃ f, parse "a W b ^ x > 2" = .ok f ∧ f.firstBound? = none ∧
      f.render .divine Atom.text = .ok "!(((a U b) || G(a)) <-> (x > 2))" ∧
      Dialect.divine.Conveys f f.withoutXor.withoutWeakUntil) ∧
    ∃ g, parse "(a W b) W !(a V true)" = .ok g ∧ g.firstBound? = none ∧ .xor ∉ g.binaryOps ∧
      g.render .smv Atom.text =
        .ok "(((a U b) | G(a)) U !(a V TRUE)) | G((a U b) | G(a))" ∧
      Dialect.smv.Conveys g g.withoutWeakUntil := by
  let a : Formula := atom ⟨"a", .holds (.var "a")⟩
  let weak : Formula := binary .weakUntil a (atom ⟨"b", .holds (.var "b")⟩)
  let f : Formula := binary .xor weak (atom ⟨"x > 2", .compare (.var "x") .gt (.number "2")⟩)
  let g : Formula := binary .weakUntil weak (unary .not (binary .release a (const true)))
  have hf : parse "a W b ^ x > 2" = .ok f := eq_ok_of_toOption (by decide +kernel)
  have hg : parse "(a W b) W !(a V true)" = .ok g := eq_ok_of_toOption (by decide +kernel)
  exact ⟨⟨f, hf, rfl, eq_ok_of_toOption (by decide +kernel), (conveys_of_parse hf rfl).1⟩,
    g, hg, rfl, by decide, eq_ok_of_toOption (by decide +kernel),
    (conveys_of_parse hg rfl).2 (by decide)⟩

end Formula

end TemporalRequirements

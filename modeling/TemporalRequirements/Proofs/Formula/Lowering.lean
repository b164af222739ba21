import TemporalRequirements.Formula.Dialect
import TemporalRequirements.Proofs.Formula.Semantics

/-!
# Lowering keeps the meaning

A dialect without exclusive or writes it as a negated equivalence, and one without weak until as an
until or an always.  Either is a rewriting of the formula at every depth that changes no position at
which the formula holds.
-/

namespace TemporalRequirements

namespace Formula

/-- The formula with every binary formula rewritten by a rule, at every depth. -/
def rewriteBinary (rule : BinaryOp → Formula → Formula → Formula) : Formula → Formula
  | const b => const b
  | atom a => atom a
  | unary op f => unary op (rewriteBinary rule f)
  | bounded op n f => bounded op n (rewriteBinary rule f)
  | binary op l r => rule op (rewriteBinary rule l) (rewriteBinary rule r)

variable {rule : BinaryOp → Formula → Formula → Formula}

/-- A rule that keeps the meaning of every binary formula keeps the meaning of all formulas. -/
theorem holds_rewriteBinary {trace : Trace}
    (hrule : ∀ op l r i, (rule op l r).Holds trace i ↔ (binary op l r).Holds trace i)
    (f : Formula) (i : Nat) : (f.rewriteBinary rule).Holds trace i ↔ f.Holds trace i := by
  induction f generalizing i with
  | const b | atom a => exact Iff.rfl
  | unary op f ih | bounded op n f ih =>
    have heq : (f.rewriteBinary rule).Holds trace = f.Holds trace := funext fun k ↦ propext (ih k)
    simp only [rewriteBinary, holds_unary, holds_bounded, heq]
  | binary op l r ihl ihr =>
    have heql : (l.rewriteBinary rule).Holds trace = l.Holds trace :=
      funext fun k ↦ propext (ihl k)
    have heqr : (r.rewriteBinary rule).Holds trace = r.Holds trace :=
      funext fun k ↦ propext (ihr k)
    rw [rewriteBinary, hrule, holds_binary, heql, heqr, holds_binary]

/-- A rule that makes no bounds leaves a formula without bounds. -/
theorem firstBound?_rewriteBinary {f : Formula}
    (hrule : ∀ op l r, l.firstBound? = none → r.firstBound? = none →
      (rule op l r).firstBound? = none)
    (h : f.firstBound? = none) : (f.rewriteBinary rule).firstBound? = none := by
  induction f with
  | const b | atom a => rfl
  | unary op f ih => exact ih h
  | bounded op n f ih => cases h
  | binary op l r ihl ihr =>
    obtain ⟨hl, hr⟩ := Option.or_eq_none_iff.mp h
    exact hrule _ _ _ (ihl hl) (ihr hr)

/-- A rule that makes no atoms leaves a formula with atoms it had. -/
theorem mem_atoms_rewriteBinary {a : Atom} {f : Formula}
    (hrule : ∀ op l r, a ∈ (rule op l r).atoms → a ∈ (binary op l r).atoms)
    (h : a ∈ (f.rewriteBinary rule).atoms) : a ∈ f.atoms := by
  induction f with
  | const b | atom b => exact h
  | unary op f ih | bounded op n f ih => exact ih h
  | binary op l r ihl ihr =>
    rcases List.mem_append.mp (hrule _ _ _ h) with h | h
    · exact List.mem_append_left _ (ihl h)
    · exact List.mem_append_right _ (ihr h)

/-! ## Less common operators -/

/-- An exclusive or as a negated equivalence; another binary formula as it is. -/
def expandXor : BinaryOp → Formula → Formula → Formula
  | .xor, l, r => unary .not (binary .iff l r)
  | op, l, r => binary op l r

/-- A weak until as an until or an always; another binary formula as it is. -/
def expandWeakUntil : BinaryOp → Formula → Formula → Formula
  | .weakUntil, l, r => binary .or (binary .strongUntil l r) (unary .always l)
  | op, l, r => binary op l r

/-- The formula with every `a ^ b` as `!(a <-> b)`. -/
def withoutXor : Formula → Formula := rewriteBinary expandXor

/-- The formula with every `a W b` as `(a U b) || G a`. -/
def withoutWeakUntil : Formula → Formula := rewriteBinary expandWeakUntil

theorem holds_withoutXor (trace : Trace) (f : Formula) (i : Nat) :
    f.withoutXor.Holds trace i ↔ f.Holds trace i := by
  refine holds_rewriteBinary (fun op l r i ↦ ?_) f i
  cases op <;> exact Iff.rfl

theorem holds_withoutWeakUntil (trace : Trace) (f : Formula) (i : Nat) :
    f.withoutWeakUntil.Holds trace i ↔ f.Holds trace i := by
  refine holds_rewriteBinary (fun op l r i ↦ ?_) f i
  cases op <;> exact Iff.rfl

end Formula

/-! ## Lowering -/

namespace Dialect

theorem lower_eq_rewriteBinary (d : Dialect) (f : Formula) :
    d.lower f = f.rewriteBinary d.lowerBinary := by
  induction f with
  | const b | atom a => rfl
  | unary op f ih | bounded op n f ih => rw [lower, ih, Formula.rewriteBinary]
  | binary op l r ihl ihr => rw [lower, ihl, ihr, Formula.rewriteBinary]

/-- The dialect without the less common operators has neither. -/
theorem lower_divine (f : Formula) : divine.lower f = f.withoutXor.withoutWeakUntil := by
  induction f with
  | const b | atom a => rfl
  | unary op f ih => exact congrArg (Formula.unary op) ih
  | bounded op n f ih => exact congrArg (Formula.bounded op n) ih
  | binary op l r ihl ihr =>
    rw [lower, ihl, ihr]
    cases op <;> rfl

/-- A binary formula stays, or is one of the two that a dialect can lack. -/
theorem lowerBinary_cases (d : Dialect) (op : BinaryOp) (l r : Formula) :
    d.lowerBinary op l r = .binary op l r ∨
      (op = .xor ∧ d.lowerBinary op l r = .unary .not (.binary .iff l r)) ∨
      (op = .weakUntil ∧
        d.lowerBinary op l r = .binary .or (.binary .strongUntil l r) (.unary .always l)) := by
  cases op with
  | xor =>
    rw [lowerBinary]
    split
    · exact Or.inl rfl
    · exact Or.inr (Or.inl ⟨rfl, rfl⟩)
  | weakUntil =>
    rw [lowerBinary]
    split
    · exact Or.inl rfl
    · exact Or.inr (Or.inr ⟨rfl, rfl⟩)
  | _ => exact Or.inl rfl

/-- Lowering makes no bounded operator. -/
theorem firstBound?_lower (d : Dialect) {f : Formula} (h : f.firstBound? = none) :
    (d.lower f).firstBound? = none := by
  rw [lower_eq_rewriteBinary]
  refine Formula.firstBound?_rewriteBinary (fun op l r hl hr ↦ ?_) h
  rcases d.lowerBinary_cases op l r with heq | ⟨-, heq⟩ | ⟨-, heq⟩ <;>
    simp [heq, Formula.firstBound?, hl, hr]

/-- Lowering makes no new atoms. -/
theorem mem_atoms_lower {d : Dialect} {f : Formula} {a : Atom} (h : a ∈ (d.lower f).atoms) :
    a ∈ f.atoms := by
  rw [lower_eq_rewriteBinary] at h
  refine Formula.mem_atoms_rewriteBinary (fun op l r ha ↦ ?_) h
  simp only [Formula.atoms, List.mem_append]
  rcases d.lowerBinary_cases op l r with heq | ⟨-, heq⟩ | ⟨-, heq⟩ <;> rw [heq] at ha
  · exact List.mem_append.mp ha
  · exact List.mem_append.mp ha
  · -- the left operand of a weak until is written twice
    rcases List.mem_append.mp ha with ha | ha
    · exact List.mem_append.mp ha
    · exact Or.inl ha

end Dialect

/-- A formula without bounded operators is written in every dialect. -/
theorem Formula.render_eq_ok {f : Formula} (h : f.firstBound? = none) (d : Dialect)
    (atomText : Atom → String) :
    f.render d atomText = .ok ((d.lower f).printWith d atomText false) := by
  rw [render, d.firstBound?_lower h, ite_self]

end TemporalRequirements

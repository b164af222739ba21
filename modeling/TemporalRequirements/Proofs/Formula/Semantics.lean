import TemporalRequirements.Formula

/-!
# Meaning of temporal formulas

A trace tells which atoms are true at each step of an infinite run.  A formula holds at the
positions of a trace that linear temporal logic gives it.  Operators act on sets of positions, so
operands that hold at the same positions may be exchanged under every operator.
-/

namespace TemporalRequirements

/-- The atoms that are true at each step of an infinite run. -/
abbrev Trace := Nat → Atom → Prop

/-! ## Operators on sets of positions -/

/-- Where an operator with one operand holds. -/
def UnaryOp.Holds (op : UnaryOp) (p : Nat → Prop) (i : Nat) : Prop :=
  match op with
  | .not => ¬ p i
  | .next => p (i + 1)
  | .eventually => ∃ k, i ≤ k ∧ p k
  | .always => ∀ k, i ≤ k → p k

def BoundedOp.Holds (op : BoundedOp) (n : Nat) (p : Nat → Prop) (i : Nat) : Prop :=
  match op with
  | .exactly => p (i + n)
  | .eventuallyWithin => ∃ k, i ≤ k ∧ k ≤ i + n ∧ p k
  | .alwaysWithin => ∀ k, i ≤ k → k ≤ i + n → p k

/-- Where `p` holds up to a position at which `q` does. -/
def HoldsUntil (p q : Nat → Prop) (i : Nat) : Prop :=
  ∃ k, i ≤ k ∧ q k ∧ ∀ j, i ≤ j → j < k → p j

def BinaryOp.Holds (op : BinaryOp) (p q : Nat → Prop) (i : Nat) : Prop :=
  match op with
  | .and => p i ∧ q i
  | .or => p i ∨ q i
  | .xor => ¬ (p i ↔ q i)
  | .implies => p i → q i
  | .iff => p i ↔ q i
  | .strongUntil => HoldsUntil p q i
  | .release => ∀ k, i ≤ k → q k ∨ ∃ j, i ≤ j ∧ j < k ∧ p j
  | .weakUntil => HoldsUntil p q i ∨ ∀ k, i ≤ k → p k

/-! ## Formulas -/

def Formula.Holds (trace : Trace) : Formula → Nat → Prop
  | .const b, _ => b = true
  | .atom a, i => trace i a
  | .unary op f, i => op.Holds (f.Holds trace) i
  | .bounded op n f, i => op.Holds n.toNat (f.Holds trace) i
  | .binary op l r, i => op.Holds (l.Holds trace) (r.Holds trace) i

namespace Formula

variable (trace : Trace) (i : Nat)

@[simp] theorem holds_const (b : Bool) : (const b).Holds trace i ↔ b = true := Iff.rfl

@[simp] theorem holds_atom (a : Atom) : (atom a).Holds trace i ↔ trace i a := Iff.rfl

@[simp] theorem holds_unary (op : UnaryOp) (f : Formula) :
    (unary op f).Holds trace i ↔ op.Holds (f.Holds trace) i := Iff.rfl

@[simp] theorem holds_bounded (op : BoundedOp) (n : UInt32) (f : Formula) :
    (bounded op n f).Holds trace i ↔ op.Holds n.toNat (f.Holds trace) i := Iff.rfl

@[simp] theorem holds_binary (op : BinaryOp) (l r : Formula) :
    (binary op l r).Holds trace i ↔ op.Holds (l.Holds trace) (r.Holds trace) i := Iff.rfl

end Formula

end TemporalRequirements

import TemporalRequirements.Term

/-!
# Temporal formulas

Linear temporal logic over atoms, with the operators that bound their reach to a number of steps.
Operators are data of their own, so that a statement about all formulas has five cases.
-/

namespace TemporalRequirements

/-- The operators with one operand and no bound. -/
inductive UnaryOp where
  | not
  | next
  | eventually
  | always
  deriving DecidableEq, Repr

/-- The operators that look a bounded number of steps ahead. -/
inductive BoundedOp where
  /-- The operand holds exactly that many steps from now. -/
  | exactly
  /-- The operand holds at some step from now up to that many steps ahead. -/
  | eventuallyWithin
  /-- The operand holds at every step from now up to that many steps ahead. -/
  | alwaysWithin
  deriving DecidableEq, Repr

inductive BinaryOp where
  | and
  | or
  | xor
  | implies
  | iff
  | strongUntil
  | release
  | weakUntil
  deriving DecidableEq, Repr

inductive Formula where
  | const (value : Bool)
  | atom (a : Atom)
  | unary (op : UnaryOp) (f : Formula)
  | bounded (op : BoundedOp) (bound : UInt32) (f : Formula)
  | binary (op : BinaryOp) (l r : Formula)
  deriving DecidableEq, Repr, Inhabited

namespace UnaryOp

/-- Whether the operator looks at other steps than the present one. -/
def isTemporal : UnaryOp → Bool
  | .not => false
  | .next | .eventually | .always => true

end UnaryOp

namespace BinaryOp

/-- Whether the operator looks at other steps than the present one. -/
def isTemporal : BinaryOp → Bool
  | .and | .or | .xor | .implies | .iff => false
  | .strongUntil | .release | .weakUntil => true

end BinaryOp

/-- The letters and comparison with which a bounded operator is written before its bound. -/
def BoundedOp.symbol : BoundedOp → String
  | .exactly => "F="
  | .eventuallyWithin => "F<="
  | .alwaysWithin => "G<="

def BoundedOp.spell (op : BoundedOp) (bound : UInt32) : String := op.symbol ++ toString bound.toNat

namespace Formula

/-! ## Size -/

/-- The direct subformulas from left to right. -/
def children : Formula → List Formula
  | .const _ | .atom _ => []
  | .unary _ f | .bounded _ _ f => [f]
  | .binary _ l r => [l, r]

/-- The number of nodes, added to those already counted. -/
def sizeFrom (counted : Nat) : Formula → Nat
  | .const _ | .atom _ => counted + 1
  | .unary _ f | .bounded _ _ f => sizeFrom (counted + 1) f
  | .binary _ l r => sizeFrom (sizeFrom (counted + 1) l) r

def size (f : Formula) : Nat := sizeFrom 0 f

/-- Counting goes on from what was counted before. -/
theorem sizeFrom_eq (counted : Nat) (f : Formula) : sizeFrom counted f = counted + size f := by
  have key : ∀ (f : Formula) (n : Nat), sizeFrom n f = n + sizeFrom 0 f := by
    intro f
    induction f with
    | const | atom => intro n; simp [sizeFrom]
    | unary _ f ih | bounded _ _ f ih =>
      intro n
      rw [sizeFrom, ih, sizeFrom, ih (0 + 1)]
      omega
    | binary _ l r ihl ihr =>
      intro n
      rw [sizeFrom, ihr, ihl, sizeFrom, ihr (sizeFrom (0 + 1) l), ihl (0 + 1)]
      omega
  exact key f counted

@[simp] theorem size_const (b : Bool) : (const b).size = 1 := rfl

@[simp] theorem size_atom (a : Atom) : (atom a).size = 1 := rfl

@[simp] theorem size_unary (op : UnaryOp) (f : Formula) : (unary op f).size = 1 + f.size :=
  sizeFrom_eq 1 f

@[simp] theorem size_bounded (op : BoundedOp) (n : UInt32) (f : Formula) :
    (bounded op n f).size = 1 + f.size :=
  sizeFrom_eq 1 f

@[simp] theorem size_binary (op : BinaryOp) (l r : Formula) :
    (binary op l r).size = 1 + l.size + r.size := by
  rw [size, sizeFrom, sizeFrom_eq, sizeFrom_eq]

/-! ## Atoms and shape -/

/-- The atoms from left to right, repeated ones included. -/
def atoms : Formula → List Atom
  | .const _ => []
  | .atom a => [a]
  | .unary _ f | .bounded _ _ f => atoms f
  | .binary _ l r => atoms l ++ atoms r

/-- Whether a temporal operator occurs, bounded or not. -/
def isTemporal : Formula → Bool
  | .const _ | .atom _ => false
  | .unary op f => op.isTemporal || isTemporal f
  | .bounded _ _ _ => true
  | .binary op l r => op.isTemporal || isTemporal l || isTemporal r

/-- The deepest nesting of next steps, an exact bound counting as that many, in 32-bit words. -/
def nextDepth : Formula → UInt32
  | .const _ | .atom _ => 0
  | .unary .next f => nextDepth f + 1
  | .unary _ f => nextDepth f
  | .bounded .exactly n f => nextDepth f + n
  | .bounded _ _ f => nextDepth f
  | .binary _ l r => max (nextDepth l) (nextDepth r)

/-- The operand of a formula that starts with "always". -/
def alwaysBody? : Formula → Option Formula
  | .unary .always f => some f
  | _ => none

/-- Whether two formulas agree but for the texts of their atoms. -/
def alike : Formula → Formula → Bool
  | .const b, .const c => b = c
  | .atom a, .atom b => a.predicate = b.predicate
  | .unary o f, .unary p g => o = p && alike f g
  | .bounded o m f, .bounded p n g => o = p && m = n && alike f g
  | .binary o f g, .binary p h k => o = p && alike f h && alike g k
  | _, _ => false

end Formula

end TemporalRequirements

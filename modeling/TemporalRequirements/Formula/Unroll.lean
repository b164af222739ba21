import TemporalRequirements.Formula

/-!
# Unrolling bounded operators

`Formula.unroll` writes every bounded operator as nested next steps over its unrolled operand.  It
refuses a bound above the caller's limit, and a window whose tree would pass `maxUnrolledNodes`.
The bound of an operator is checked before its operand is visited, the size of a window after.
-/

namespace TemporalRequirements

def maxUnrolledNodes : Nat := 1048576

/-- The largest number of nodes that is counted; what is more counts as this. -/
def maxCount : Nat := 18446744073709551615

/-- The limit on bounds where none is chosen. -/
def defaultUnrollLimit : UInt32 := 256

inductive UnrollError where
  | boundTooLarge (op : BoundedOp) (bound limit : UInt32)
  | tooManyNodes (op : BoundedOp) (bound : UInt32) (nodes : Nat)
  deriving DecidableEq, Repr

def UnrollError.message : UnrollError → String
  | .boundTooLarge op bound limit =>
    "unresolvable bounded operator " ++ op.spell bound ++ ": bound exceeds " ++
      toString limit.toNat ++ " steps"
  | .tooManyNodes op bound nodes =>
    "unresolvable bounded operator " ++ op.spell bound ++ ": expansion needs " ++
      toString nodes ++ " nodes (limit " ++ toString maxUnrolledNodes ++ ")"

namespace Formula

def nextSteps (n : Nat) (f : Formula) : Formula := Nat.repeat (unary .next) n f

/-- The formula joined with itself at each of the `n` steps that follow. -/
def window (join : BinaryOp) (n : Nat) (f : Formula) : Formula :=
  Nat.repeat (fun later ↦ binary join f (unary .next later)) n f

/-- The number of nodes of a window of `n` further steps over a formula of `size` nodes. -/
def windowSize (n size : Nat) : Nat := size * (n + 1) + 2 * n

theorem size_window (join : BinaryOp) (n : Nat) (f : Formula) :
    (window join n f).size = windowSize n f.size := by
  induction n with
  | zero => simp [window, Nat.repeat, windowSize]
  | succ n ih =>
    rw [window, Nat.repeat]
    simp only [size_binary, size_unary]
    rw [← window, ih, windowSize, windowSize, Nat.mul_succ f.size (n + 1)]
    omega

/-- The number of nodes of a window as it is counted beforehand, up to the largest 64-bit number. -/
def countedSize (n size : Nat) : Nat := min (windowSize n size) maxCount

/-- Unrolls a window, unless its tree would be too large. -/
def unrollWindow (op : BoundedOp) (join : BinaryOp) (bound : UInt32) (f : Formula) :
    Except UnrollError Formula :=
  let nodes := countedSize bound.toNat f.size
  if nodes > maxUnrolledNodes then .error (.tooManyNodes op bound nodes)
  else .ok (window join bound.toNat f)

/-- What a bounded operator means over an operand that is already unrolled. -/
def unrollStep (op : BoundedOp) (bound : UInt32) (f : Formula) : Except UnrollError Formula :=
  match op with
  | .exactly => .ok (nextSteps bound.toNat f)
  | .eventuallyWithin => unrollWindow op .or bound f
  | .alwaysWithin => unrollWindow op .and bound f

def unroll (limit : UInt32) : Formula → Except UnrollError Formula
  | const b => .ok (const b)
  | atom a => .ok (atom a)
  | unary op f => do
    let f ← unroll limit f
    return unary op f
  | bounded op bound f => do
    if bound > limit then throw (.boundTooLarge op bound limit)
    let f ← unroll limit f
    unrollStep op bound f
  | binary op l r => do
    let l ← unroll limit l
    let r ← unroll limit r
    return binary op l r

end Formula

end TemporalRequirements

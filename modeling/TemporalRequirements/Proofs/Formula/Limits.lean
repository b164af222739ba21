import TemporalRequirements.Proofs.Formula.Unroll

/-!
# The limits of unrolling

`Formula.expansion` writes every bounded operator out, however large the result.  Unrolling gives
the expansion unless a check fails.  The checks of a formula are listed in the order in which they
are made, the bound of an operator before the checks of its operand and the nodes of a window after
them, so the first one that fails is the error.

The expansion of a window has at most `maxUnrolledNodes` nodes, and so has that of every formula
inside a window.  The next steps of an exact bound are not counted: outside all windows an exact
bound can pass that number.
-/

namespace TemporalRequirements

namespace BoundedOp

def isWindow : BoundedOp → Bool
  | .exactly => false
  | .eventuallyWithin | .alwaysWithin => true

/-- The operator with a bound of `n` steps written out over an operand. -/
def expand (op : BoundedOp) (n : Nat) (f : Formula) : Formula :=
  match op with
  | .exactly => f.nextSteps n
  | .eventuallyWithin => f.window .or n
  | .alwaysWithin => f.window .and n

end BoundedOp

namespace Formula

/-- The formula with every bounded operator written out. -/
def expansion : Formula → Formula
  | const b => const b
  | atom a => atom a
  | unary op f => unary op (expansion f)
  | bounded op n f => op.expand n.toNat (expansion f)
  | binary op l r => binary op (expansion l) (expansion r)

/-- The formula and the formulas inside it, each before its operands. -/
def subformulas : Formula → List Formula
  | const b => [const b]
  | atom a => [atom a]
  | unary op f => unary op f :: subformulas f
  | bounded op n f => bounded op n f :: subformulas f
  | binary op l r => binary op l r :: (subformulas l ++ subformulas r)

theorem self_mem_subformulas (f : Formula) : f ∈ f.subformulas := by
  cases f <;> exact List.mem_cons_self

theorem size_nextSteps (n : Nat) (f : Formula) : (nextSteps n f).size = n + f.size := by
  induction n with
  | zero => exact (Nat.zero_add _).symm
  | succ n ih =>
    calc
      (nextSteps (n + 1) f).size = 1 + (nextSteps n f).size := size_unary .next (nextSteps n f)
      _ = n + 1 + f.size := by rw [ih]; omega

theorem size_le_windowSize (n size : Nat) : size ≤ windowSize n size := by
  rw [windowSize, Nat.mul_succ]
  omega

theorem size_expand (op : BoundedOp) (n : Nat) (f : Formula) :
    (op.expand n f).size = if op.isWindow then windowSize n f.size else n + f.size := by
  cases op with
  | exactly => exact size_nextSteps n f
  | eventuallyWithin => exact size_window .or n f
  | alwaysWithin => exact size_window .and n f

theorem size_le_size_expand (op : BoundedOp) (n : Nat) (f : Formula) :
    f.size ≤ (op.expand n f).size := by
  rw [size_expand]
  split
  · exact size_le_windowSize n f.size
  · exact Nat.le_add_left _ _

/-- What is inside a formula expands to no more nodes than the formula. -/
theorem size_expansion_le_of_mem {f g : Formula} (h : g ∈ f.subformulas) :
    g.expansion.size ≤ f.expansion.size := by
  induction f with
  | const b | atom a =>
    obtain rfl := List.mem_singleton.mp h
    exact Nat.le_refl _
  | unary op f ih =>
    rcases List.mem_cons.mp h with rfl | h
    · exact Nat.le_refl _
    · rw [expansion, size_unary]
      exact Nat.le_trans (ih h) (Nat.le_add_left _ _)
  | bounded op n f ih =>
    rcases List.mem_cons.mp h with rfl | h
    · exact Nat.le_refl _
    · exact Nat.le_trans (ih h) (size_le_size_expand op n.toNat f.expansion)
  | binary op l r ihl ihr =>
    rcases List.mem_cons.mp h with rfl | h
    · exact Nat.le_refl _
    · rw [expansion, size_binary]
      rcases List.mem_append.mp h with h | h
      · exact Nat.le_trans (ihl h) (by omega)
      · exact Nat.le_trans (ihr h) (by omega)

/-! ## Checks -/

end Formula

/-- What is checked of a bounded operator: its bound, or the number of nodes that it becomes. -/
inductive LimitCheck where
  | bound (op : BoundedOp) (bound : UInt32)
  | nodes (op : BoundedOp) (bound : UInt32) (size : Nat)

def LimitCheck.failure? (limit : UInt32) : LimitCheck → Option UnrollError
  | .bound op n => if n > limit then some (.boundTooLarge op n limit) else none
  | .nodes op n size =>
    if size > maxUnrolledNodes then some (.tooManyNodes op n (min size maxCount)) else none

namespace Formula

/-- The checks of the nodes of a bounded operator over an operand that is written out. -/
def nodeChecks (op : BoundedOp) (n : UInt32) (f : Formula) : List LimitCheck :=
  if op.isWindow then [.nodes op n (op.expand n.toNat f).size] else []

def checks : Formula → List LimitCheck
  | const _ | atom _ => []
  | unary _ f => checks f
  | bounded op n f => .bound op n :: (checks f ++ nodeChecks op n f.expansion)
  | binary _ l r => checks l ++ checks r

def firstFailure? (limit : UInt32) (f : Formula) : Option UnrollError :=
  f.checks.findSome? (LimitCheck.failure? limit)

variable {limit : UInt32}

theorem firstFailure?_binary (op : BinaryOp) (l r : Formula) :
    (binary op l r).firstFailure? limit =
      (l.firstFailure? limit).or (r.firstFailure? limit) :=
  List.findSome?_append

/-- A bounded operator is checked before its operand, and its window after it. -/
theorem firstFailure?_bounded (op : BoundedOp) (n : UInt32) (f : Formula) :
    (bounded op n f).firstFailure? limit =
      if n > limit then some (.boundTooLarge op n limit)
      else (f.firstFailure? limit).or
        ((nodeChecks op n f.expansion).findSome? (LimitCheck.failure? limit)) := by
  rw [firstFailure?, checks, List.findSome?_cons, List.findSome?_append]
  by_cases hn : n > limit
  · simp only [LimitCheck.failure?, hn, if_true]
  · simp only [LimitCheck.failure?, hn, if_false]
    rfl

/-- A window is counted as the tree that it becomes, up to the largest number. -/
theorem countedSize_eq (join : BinaryOp) (n : Nat) (f : Formula) :
    countedSize n f.size = min (window join n f).size maxCount := by
  rw [countedSize, size_window]

/-- The largest number that is counted is above the limit on nodes. -/
theorem lt_min_maxCount_iff {size : Nat} :
    maxUnrolledNodes < min size maxCount ↔ maxUnrolledNodes < size := by
  rw [Nat.lt_min]
  exact and_iff_left (by decide)

theorem unrollWindow_eq (op : BoundedOp) (join : BinaryOp) (n : UInt32) (f : Formula) :
    unrollWindow op join n f =
      if (window join n.toNat f).size > maxUnrolledNodes then
        .error (.tooManyNodes op n (min (window join n.toNat f).size maxCount))
      else .ok (window join n.toNat f) := by
  simp only [unrollWindow, gt_iff_lt, countedSize_eq join, lt_min_maxCount_iff]

/-- An operator over an operand without bounds is written out, unless its nodes are too many. -/
theorem unrollStep_eq (op : BoundedOp) (n : UInt32) (f : Formula) :
    unrollStep op n f =
      match (nodeChecks op n f).findSome? (LimitCheck.failure? limit) with
      | some e => .error e
      | none => .ok (op.expand n.toNat f) := by
  have hwindow (join : BinaryOp) : unrollWindow op join n f =
      match [LimitCheck.nodes op n (window join n.toNat f).size].findSome?
        (LimitCheck.failure? limit) with
      | some e => .error e
      | none => .ok (window join n.toNat f) := by
    rw [unrollWindow_eq, List.findSome?_singleton, LimitCheck.failure?]
    split <;> rfl
  cases op with
  | exactly => rfl
  | eventuallyWithin => exact hwindow .or
  | alwaysWithin => exact hwindow .and

/-- Unrolling gives the expansion, or the error of the first check that fails. -/
theorem unroll_eq (limit : UInt32) (f : Formula) :
    f.unroll limit =
      match f.firstFailure? limit with
      | some e => .error e
      | none => .ok f.expansion := by
  induction f with
  | const b | atom a => rfl
  | unary op f ih =>
    have hchecks : (unary op f).firstFailure? limit = f.firstFailure? limit := rfl
    rw [unroll, ih, hchecks]
    cases f.firstFailure? limit <;> rfl
  | bounded op n f ih =>
    rw [unroll, firstFailure?_bounded]
    by_cases hn : n > limit
    · rw [if_pos hn, if_pos hn]
      rfl
    · rw [if_neg hn, if_neg hn, ih]
      cases f.firstFailure? limit with
      | some e => rfl
      | none => exact unrollStep_eq op n f.expansion
  | binary op l r ihl ihr =>
    rw [unroll, ihl, ihr, firstFailure?_binary]
    cases l.firstFailure? limit with
    | some e => rfl
    | none => cases r.firstFailure? limit <;> rfl

/-! ## Outcomes -/

/-- The checks of a formula are those of the bounded operators in it. -/
theorem mem_checks {c : LimitCheck} {f : Formula} :
    c ∈ f.checks ↔ ∃ op n g, bounded op n g ∈ f.subformulas ∧
      (c = .bound op n ∨ c ∈ nodeChecks op n g.expansion) := by
  induction f with
  | const b | atom a => simp [checks, subformulas]
  | unary op f ih => simp [checks, subformulas, ih]
  | bounded op n f ih =>
    rw [checks, List.mem_cons, List.mem_append, ih]
    simp only [subformulas, List.mem_cons, bounded.injEq]
    constructor
    · rintro (rfl | ⟨op', n', g, hg, hc⟩ | hc)
      · exact ⟨op, n, f, Or.inl ⟨rfl, rfl, rfl⟩, Or.inl rfl⟩
      · exact ⟨op', n', g, Or.inr hg, hc⟩
      · exact ⟨op, n, f, Or.inl ⟨rfl, rfl, rfl⟩, Or.inr hc⟩
    · rintro ⟨op', n', g, ⟨rfl, rfl, rfl⟩ | hg, hc⟩
      · exact hc.imp_right Or.inr
      · exact Or.inr (Or.inl ⟨op', n', g, hg, hc⟩)
  | binary op l r ihl ihr =>
    rw [checks, List.mem_append, ihl, ihr]
    simp only [subformulas, List.mem_cons, List.mem_append, reduceCtorEq, false_or]
    constructor
    · rintro (⟨op', n, g, hg, hc⟩ | ⟨op', n, g, hg, hc⟩)
      · exact ⟨op', n, g, Or.inl hg, hc⟩
      · exact ⟨op', n, g, Or.inr hg, hc⟩
    · rintro ⟨op', n, g, hg | hg, hc⟩
      · exact Or.inl ⟨op', n, g, hg, hc⟩
      · exact Or.inr ⟨op', n, g, hg, hc⟩

/-- A formula within the limits: every bound is at most `limit`, and no window becomes larger than
`maxUnrolledNodes`. -/
structure WithinLimits (limit : UInt32) (f : Formula) : Prop where
  bound_le : ∀ op n g, bounded op n g ∈ f.subformulas → n ≤ limit
  size_le : ∀ op n g, bounded op n g ∈ f.subformulas → op.isWindow = true →
    (bounded op n g).expansion.size ≤ maxUnrolledNodes

theorem failure?_bound_eq_none_iff {op : BoundedOp} {n : UInt32} :
    (LimitCheck.bound op n).failure? limit = none ↔ n ≤ limit := by
  rw [LimitCheck.failure?, ite_eq_right_iff, ← UInt32.not_lt]
  exact imp_congr_right fun _ ↦ by simp

theorem failure?_nodes_eq_none_iff {op : BoundedOp} {n : UInt32} {size : Nat} :
    (LimitCheck.nodes op n size).failure? limit = none ↔ size ≤ maxUnrolledNodes := by
  rw [LimitCheck.failure?, ite_eq_right_iff, ← Nat.not_lt]
  exact imp_congr_right fun _ ↦ by simp

/-- No check fails exactly within the limits. -/
theorem firstFailure?_eq_none_iff {f : Formula} :
    f.firstFailure? limit = none ↔ f.WithinLimits limit := by
  rw [firstFailure?, List.findSome?_eq_none_iff]
  constructor
  · intro h
    refine ⟨fun op n g hg ↦ ?_, fun op n g hg hop ↦ ?_⟩
    · exact failure?_bound_eq_none_iff.mp (h _ (mem_checks.mpr ⟨op, n, g, hg, Or.inl rfl⟩))
    · have hcheck : LimitCheck.nodes op n (op.expand n.toNat g.expansion).size ∈ f.checks := by
        refine mem_checks.mpr ⟨op, n, g, hg, Or.inr ?_⟩
        rw [nodeChecks, if_pos hop]
        exact List.mem_singleton_self _
      exact failure?_nodes_eq_none_iff.mp (h _ hcheck)
  · intro h c hc
    obtain ⟨op, n, g, hg, rfl | hc⟩ := mem_checks.mp hc
    · exact failure?_bound_eq_none_iff.mpr (h.bound_le op n g hg)
    · rw [nodeChecks] at hc
      split at hc
      · rename_i hop
        obtain rfl := List.mem_singleton.mp hc
        exact failure?_nodes_eq_none_iff.mpr (h.size_le op n g hg hop)
      · cases hc

/-- Unrolling succeeds exactly within the limits, and what it gives is the expansion. -/
theorem unroll_eq_ok_iff {f g : Formula} :
    f.unroll limit = .ok g ↔ f.WithinLimits limit ∧ g = f.expansion := by
  rw [unroll_eq, ← firstFailure?_eq_none_iff]
  cases f.firstFailure? limit with
  | some e => simp
  | none => simp [eq_comm]

/-- A window that is unrolled was counted as exactly the tree that it becomes. -/
theorem countedSize_of_unrollWindow {op : BoundedOp} {join : BinaryOp} {n : UInt32} {f g : Formula}
    (h : unrollWindow op join n f = .ok g) : countedSize n.toNat f.size = g.size := by
  rw [unrollWindow_eq] at h
  split at h
  · cases h
  · rename_i hsize
    obtain rfl := Except.ok.inj h
    have hmax : maxUnrolledNodes ≤ maxCount := by decide
    rw [countedSize_eq join]
    exact Nat.min_eq_left (Nat.le_trans (Nat.not_lt.mp hsize) hmax)

/-- Unrolling succeeds exactly where every bound is at most the limit and no window becomes too
large.  A window is counted as the tree that it becomes.  Otherwise the error is that of the first
check that fails, a bound being checked before the operand, the nodes of a window after it, and a
left operand before a right one. -/
theorem unroll_within_limits (limit : UInt32) (f : Formula) :
    ((∃ g, f.unroll limit = .ok g) ↔ f.WithinLimits limit) ∧
      (∀ op join n step g, unrollWindow op join n step = .ok g →
        countedSize n.toNat step.size = g.size) ∧
      f.unroll limit =
        match f.checks.findSome? (LimitCheck.failure? limit) with
        | some e => .error e
        | none => .ok f.expansion := by
  refine ⟨?_, fun _ _ _ _ _ ↦ countedSize_of_unrollWindow, unroll_eq limit f⟩
  constructor
  · rintro ⟨g, h⟩
    exact (unroll_eq_ok_iff.mp h).1
  · intro h
    exact ⟨f.expansion, unroll_eq_ok_iff.mpr ⟨h, rfl⟩⟩

def InsideWindow (f g : Formula) : Prop :=
  ∃ op n a, op.isWindow = true ∧ bounded op n a ∈ f.subformulas ∧ g ∈ a.subformulas

/-- What is inside a window of a formula within the limits becomes no larger than the window may. -/
theorem WithinLimits.size_le_of_insideWindow {f g : Formula} (h : f.WithinLimits limit)
    (hinside : f.InsideWindow g) : g.expansion.size ≤ maxUnrolledNodes := by
  obtain ⟨op, n, a, hop, hwindow, hg⟩ := hinside
  calc
    g.expansion.size ≤ a.expansion.size := size_expansion_le_of_mem hg
    _ ≤ (bounded op n a).expansion.size := size_le_size_expand op n.toNat a.expansion
    _ ≤ maxUnrolledNodes := h.size_le op n a hwindow hop

/-- Of a formula that is unrolled, every window and every bounded operator inside a window becomes
at most `maxUnrolledNodes` nodes.  An exact bound becomes as many nodes as its operand and one for
each step. -/
theorem size_expansion_le_of_unroll {f g a : Formula} {op : BoundedOp} {n : UInt32}
    (h : f.unroll limit = .ok g) (hmem : bounded op n a ∈ f.subformulas) :
    (op.isWindow = true ∨ f.InsideWindow (bounded op n a) →
        (bounded op n a).expansion.size ≤ maxUnrolledNodes) ∧
      (op = .exactly →
        n ≤ limit ∧ (bounded op n a).expansion.size = n.toNat + a.expansion.size) := by
  obtain ⟨hlimits, -⟩ := unroll_eq_ok_iff.mp h
  refine ⟨?_, ?_⟩
  · rintro (hop | hinside)
    · exact hlimits.size_le op n a hmem hop
    · exact hlimits.size_le_of_insideWindow hinside
  · rintro rfl
    exact ⟨hlimits.bound_le _ n a hmem, size_nextSteps n.toNat a.expansion⟩

/-- The formula `F<=255 F<=255 F=13 a`. -/
def twoWindows : Formula :=
  bounded .eventuallyWithin 255
    (bounded .eventuallyWithin 255 (bounded .exactly 13 (atom (.var "a"))))

/-- The formula `F=3 F<=255 F<=255 F=13 a`. -/
def lateWindows : Formula := bounded .exactly 3 twoWindows

theorem size_expansion_twoWindows : twoWindows.expansion.size = 1048574 := by
  simp [twoWindows, expansion, size_expand, BoundedOp.isWindow, windowSize]

theorem withinLimits_lateWindows : lateWindows.WithinLimits defaultUnrollLimit := by
  rw [← firstFailure?_eq_none_iff]
  simp [firstFailure?, lateWindows, twoWindows, checks, nodeChecks, expansion, size_expand,
    BoundedOp.isWindow, windowSize, LimitCheck.failure?, defaultUnrollLimit, maxUnrolledNodes]

theorem unroll_lateWindows :
    lateWindows.unroll defaultUnrollLimit = .ok lateWindows.expansion :=
  unroll_eq_ok_iff.mpr ⟨withinLimits_lateWindows, rfl⟩

theorem size_expansion_le_of_unroll_lateWindows :
    lateWindows.unroll defaultUnrollLimit = .ok lateWindows.expansion ∧
      twoWindows ∈ lateWindows.subformulas ∧ twoWindows.expansion.size ≤ maxUnrolledNodes ∧
      lateWindows.expansion.size = 3 + twoWindows.expansion.size := by
  have hwindows : twoWindows ∈ lateWindows.subformulas :=
    List.mem_cons_of_mem _ twoWindows.self_mem_subformulas
  obtain ⟨hsize, -⟩ := size_expansion_le_of_unroll unroll_lateWindows hwindows
  obtain ⟨-, hexact⟩ :=
    size_expansion_le_of_unroll unroll_lateWindows lateWindows.self_mem_subformulas
  obtain ⟨-, hsteps⟩ := hexact rfl
  have hbound : (3 : UInt32).toNat = 3 := rfl
  rw [hbound] at hsteps
  exact ⟨unroll_lateWindows, hwindows, hsize (Or.inl rfl), hsteps⟩

/-- Three steps before two windows that just fit make more nodes than a window may have. -/
theorem maxUnrolledNodes_lt_lateWindows :
    lateWindows.unroll defaultUnrollLimit = .ok lateWindows.expansion ∧
      lateWindows = bounded .exactly 3 twoWindows ∧ lateWindows ∈ lateWindows.subformulas ∧
      maxUnrolledNodes < lateWindows.expansion.size := by
  have hsize : lateWindows.expansion.size = 3 + twoWindows.expansion.size :=
    size_nextSteps 3 twoWindows.expansion
  refine ⟨unroll_lateWindows, rfl, lateWindows.self_mem_subformulas, ?_⟩
  rw [hsize, size_expansion_twoWindows]
  decide

end Formula

end TemporalRequirements

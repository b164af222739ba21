import TemporalRequirements.Formula.Dialect
import TemporalRequirements.Formula.Unroll
import TemporalRequirements.Proofs.Formula.Semantics

/-!
# Unrolling keeps the meaning

The operands of next steps and windows are looked up at the positions that the bound names, one
more with every round of the recursion.  `Formula.unroll` therefore leaves no bounded operator and
changes no position at which the formula holds.
-/

namespace TemporalRequirements.Formula

variable {trace : Trace} {limit : UInt32}

theorem holds_nextSteps (n : Nat) (f : Formula) (i : Nat) :
    (nextSteps n f).Holds trace i ↔ f.Holds trace (i + n) := by
  induction n generalizing i with
  | zero => rfl
  | succ n ih =>
    have h : (nextSteps (n + 1) f).Holds trace i ↔ (nextSteps n f).Holds trace (i + 1) := Iff.rfl
    rw [h, ih, Nat.add_assoc, Nat.add_comm 1 n]

/-- A window holds now and, by its join, one step later with one round less. -/
theorem holds_window_succ (join : BinaryOp) (n : Nat) (f : Formula) (i : Nat) :
    (window join (n + 1) f).Holds trace i ↔
      join.Holds (f.Holds trace) (fun k ↦ (window join n f).Holds trace (k + 1)) i :=
  Iff.rfl

/-- The disjunction of a window is what `F<=n` says. -/
theorem holds_window_or (n : Nat) (f : Formula) (i : Nat) :
    (window .or n f).Holds trace i ↔ BoundedOp.Holds .eventuallyWithin n (f.Holds trace) i := by
  induction n generalizing i with
  | zero =>
    constructor
    · intro h
      exact ⟨i, Nat.le_refl _, Nat.le_refl _, h⟩
    · rintro ⟨k, hik, hki, h⟩
      obtain rfl : k = i := Nat.le_antisymm hki hik
      exact h
  | succ n ih =>
    rw [holds_window_succ]
    constructor
    · rintro (h | h)
      · exact ⟨i, Nat.le_refl _, by omega, h⟩
      · obtain ⟨k, hik, hkn, hk⟩ := (ih (i + 1)).mp h
        exact ⟨k, by omega, by omega, hk⟩
    · rintro ⟨k, hik, hkn, hk⟩
      rcases Nat.eq_or_lt_of_le hik with rfl | hlt
      · exact Or.inl hk
      · exact Or.inr ((ih (i + 1)).mpr ⟨k, hlt, by omega, hk⟩)

/-- The conjunction of a window is what `G<=n` says. -/
theorem holds_window_and (n : Nat) (f : Formula) (i : Nat) :
    (window .and n f).Holds trace i ↔ BoundedOp.Holds .alwaysWithin n (f.Holds trace) i := by
  induction n generalizing i with
  | zero =>
    constructor
    · intro h k hik hki
      obtain rfl : k = i := Nat.le_antisymm hki hik
      exact h
    · intro h
      exact h i (Nat.le_refl i) (Nat.le_refl i)
  | succ n ih =>
    rw [holds_window_succ]
    constructor
    · rintro ⟨hnow, hlater⟩ k hik hkn
      rcases Nat.eq_or_lt_of_le hik with rfl | hlt
      · exact hnow
      · exact (ih (i + 1)).mp hlater k hlt (by omega)
    · intro h
      refine ⟨h i (Nat.le_refl i) (by omega), (ih (i + 1)).mpr ?_⟩
      intro k hik hkn
      exact h k (by omega) (by omega)

/-! ## Bounded operators -/

theorem firstBound?_nextSteps (n : Nat) (f : Formula) :
    (nextSteps n f).firstBound? = f.firstBound? := by
  induction n with
  | zero => rfl
  | succ n ih => exact ih

theorem firstBound?_window (join : BinaryOp) (n : Nat) {f : Formula} (h : f.firstBound? = none) :
    (window join n f).firstBound? = none := by
  induction n with
  | zero => exact h
  | succ n ih =>
    have hsucc : (window join (n + 1) f).firstBound? =
        f.firstBound?.or (window join n f).firstBound? := rfl
    rw [hsucc, h, ih]
    rfl

theorem eq_window_of_unrollWindow {op : BoundedOp} {join : BinaryOp} {n : UInt32} {f g : Formula}
    (h : unrollWindow op join n f = .ok g) : g = window join n.toNat f := by
  by_cases hsize : countedSize n.toNat f.size > maxUnrolledNodes
  · simp [unrollWindow, hsize] at h
  · simpa [unrollWindow, hsize, eq_comm] using h

/-- What replaces a bounded operator over an operand has that operator's meaning. -/
theorem unrollStep_spec {op : BoundedOp} {n : UInt32} {f g : Formula}
    (h : unrollStep op n f = .ok g) (hf : f.firstBound? = none) :
    g.firstBound? = none ∧
      ∀ trace i, g.Holds trace i ↔ op.Holds n.toNat (f.Holds trace) i := by
  cases op with
  | exactly =>
    obtain rfl := Except.ok.inj h
    exact ⟨(firstBound?_nextSteps _ f).trans hf, fun trace i ↦ holds_nextSteps _ f i⟩
  | eventuallyWithin =>
    obtain rfl := eq_window_of_unrollWindow h
    exact ⟨firstBound?_window _ _ hf, fun trace i ↦ holds_window_or _ f i⟩
  | alwaysWithin =>
    obtain rfl := eq_window_of_unrollWindow h
    exact ⟨firstBound?_window _ _ hf, fun trace i ↦ holds_window_and _ f i⟩

theorem unroll_unary {op : UnaryOp} {f g : Formula} (h : (unary op f).unroll limit = .ok g) :
    ∃ f', f.unroll limit = .ok f' ∧ g = unary op f' := by
  rw [unroll] at h
  cases hf : f.unroll limit with
  | error e =>
    rw [hf] at h
    cases h
  | ok f' =>
    rw [hf] at h
    exact ⟨f', rfl, (Except.ok.inj h).symm⟩

/-- An unrolled bounded operator is within the limit, and its operand is unrolled first. -/
theorem unroll_bounded {op : BoundedOp} {n : UInt32} {f g : Formula}
    (h : (bounded op n f).unroll limit = .ok g) :
    n ≤ limit ∧ ∃ f', f.unroll limit = .ok f' ∧ unrollStep op n f' = .ok g := by
  rw [unroll] at h
  by_cases hn : n > limit
  · rw [if_pos hn] at h
    cases h
  · rw [if_neg hn] at h
    refine ⟨UInt32.not_lt.mp hn, ?_⟩
    cases hf : f.unroll limit with
    | error e =>
      rw [hf] at h
      cases h
    | ok f' =>
      rw [hf] at h
      exact ⟨f', rfl, h⟩

theorem unroll_binary {op : BinaryOp} {l r g : Formula}
    (h : (binary op l r).unroll limit = .ok g) :
    ∃ l' r', l.unroll limit = .ok l' ∧ r.unroll limit = .ok r' ∧ g = binary op l' r' := by
  rw [unroll] at h
  cases hl : l.unroll limit with
  | error e =>
    rw [hl] at h
    cases h
  | ok l' =>
    rw [hl] at h
    cases hr : r.unroll limit with
    | error e =>
      rw [hr] at h
      cases h
    | ok r' =>
      rw [hr] at h
      exact ⟨l', r', rfl, rfl, (Except.ok.inj h).symm⟩

/-! ## Atoms and whole formulas -/

theorem atoms_nextSteps (n : Nat) (f : Formula) : (nextSteps n f).atoms = f.atoms := by
  induction n with
  | zero => rfl
  | succ n ih => exact ih

/-- The atoms of a window are those of its formula. -/
theorem mem_atoms_window {join : BinaryOp} {n : Nat} {f : Formula} {a : Atom}
    (h : a ∈ (window join n f).atoms) : a ∈ f.atoms := by
  induction n with
  | zero => exact h
  | succ n ih =>
    have hsucc : (window join (n + 1) f).atoms = f.atoms ++ (window join n f).atoms := rfl
    rw [hsucc] at h
    rcases List.mem_append.mp h with h | h
    · exact h
    · exact ih h

theorem mem_atoms_unrollStep {op : BoundedOp} {n : UInt32} {f g : Formula} {a : Atom}
    (h : unrollStep op n f = .ok g) (ha : a ∈ g.atoms) : a ∈ f.atoms := by
  cases op with
  | exactly =>
    obtain rfl := Except.ok.inj h
    exact atoms_nextSteps _ f ▸ ha
  | eventuallyWithin | alwaysWithin =>
    obtain rfl := eq_window_of_unrollWindow h
    exact mem_atoms_window ha

/-- Unrolling makes no new atoms. -/
theorem mem_atoms_of_unroll {f g : Formula} {a : Atom} (h : f.unroll limit = .ok g)
    (ha : a ∈ g.atoms) : a ∈ f.atoms := by
  induction f generalizing g with
  | const b | atom b =>
    obtain rfl := Except.ok.inj h
    exact ha
  | unary op f ih =>
    obtain ⟨f', hf, rfl⟩ := unroll_unary h
    exact ih hf ha
  | bounded op n f ih =>
    obtain ⟨-, f', hf, hstep⟩ := unroll_bounded h
    exact ih hf (mem_atoms_unrollStep hstep ha)
  | binary op l r ihl ihr =>
    obtain ⟨l', r', hl, hr, rfl⟩ := unroll_binary h
    rcases List.mem_append.mp ha with ha | ha
    · exact List.mem_append_left _ (ihl hl ha)
    · exact List.mem_append_right _ (ihr hr ha)

/-- An unrolled formula has no bounded operator and holds where the formula holds. -/
theorem unroll_preserves_meaning {f g : Formula} (h : f.unroll limit = .ok g) :
    g.firstBound? = none ∧ ∀ trace i, g.Holds trace i ↔ f.Holds trace i := by
  induction f generalizing g with
  | const b | atom a =>
    obtain rfl := Except.ok.inj h
    exact ⟨rfl, fun trace i ↦ Iff.rfl⟩
  | unary op f ih =>
    obtain ⟨f', hf, rfl⟩ := unroll_unary h
    obtain ⟨hbound, hholds⟩ := ih hf
    refine ⟨hbound, fun trace i ↦ ?_⟩
    have heq : f'.Holds trace = f.Holds trace := funext fun k ↦ propext (hholds trace k)
    rw [holds_unary, heq, holds_unary]
  | bounded op n f ih =>
    obtain ⟨-, f', hf, hstep⟩ := unroll_bounded h
    obtain ⟨hbound, hholds⟩ := ih hf
    obtain ⟨hbound', hholds'⟩ := unrollStep_spec hstep hbound
    refine ⟨hbound', fun trace i ↦ ?_⟩
    have heq : f'.Holds trace = f.Holds trace := funext fun k ↦ propext (hholds trace k)
    rw [hholds', heq, holds_bounded]
  | binary op l r ihl ihr =>
    obtain ⟨l', r', hl, hr, rfl⟩ := unroll_binary h
    obtain ⟨hboundl, hholdsl⟩ := ihl hl
    obtain ⟨hboundr, hholdsr⟩ := ihr hr
    refine ⟨?_, fun trace i ↦ ?_⟩
    · simp only [firstBound?, hboundl, hboundr, Option.or_none]
    · have heql : l'.Holds trace = l.Holds trace := funext fun k ↦ propext (hholdsl trace k)
      have heqr : r'.Holds trace = r.Holds trace := funext fun k ↦ propext (hholdsr trace k)
      rw [holds_binary, heql, heqr, holds_binary]

/-- Bounds nested under an until: `G<=1 a U F<=1 b` with a limit of one step. -/
theorem unroll_preserves_meaning_under_until :
    let a := atom (.var "a")
    let b := atom (.var "b")
    let f := binary .strongUntil (bounded .alwaysWithin 1 a) (bounded .eventuallyWithin 1 b)
    let g := binary .strongUntil (binary .and a (unary .next a)) (binary .or b (unary .next b))
    f.unroll 1 = .ok g ∧ g.firstBound? = none ∧
      ∀ trace i, g.Holds trace i ↔ f.Holds trace i := by
  intro a b f g
  have h : f.unroll 1 = .ok g := rfl
  exact ⟨h, unroll_preserves_meaning h⟩

end TemporalRequirements.Formula

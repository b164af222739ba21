import TemporalRequirements.Monitor.Synthesis
import TemporalRequirements.Proofs.Formula.Semantics
import TemporalRequirements.Proofs.Monitor.Execution

/-!
# What the parts of a monitor mean

A run gives every atom the truth of its C expression, and so makes a trace.  Over that trace the
conditions, guards and windows into which a property is taken apart mean what the parts of its
formula do: a condition its formula, a guard the steps of its scope, a peeled conclusion the
conclusion.
-/

namespace TemporalRequirements

def Atom.expression (i : Interface) (a : Atom) : String := a.predicate.print (.program i)

/-- An operator that looks at the present only depends on what its operands are now. -/
theorem BinaryOp.holds_iff_of_not_temporal {op : BinaryOp} (h : op.isTemporal = false)
    {p p' q q' : Nat → Prop} {i i' : Nat} (hp : p i ↔ p' i') (hq : q i ↔ q' i') :
    op.Holds p q i ↔ op.Holds p' q' i' := by
  cases op <;> simp_all [BinaryOp.Holds, BinaryOp.isTemporal]

namespace Monitor

/-- The trace of a run: an atom is true where its C expression is. -/
def traceOf (i : Interface) (run : Observations) : Trace :=
  fun k a ↦ run k (a.expression i) = true

section Conditions

variable {leaf : Bool → Atom → String} {mayLook ahead : Bool}

theorem conditionOf_not {f : Formula} {c : Condition}
    (h : conditionOf leaf mayLook ahead (.unary .not f) = .ok c) :
    ∃ d, conditionOf leaf mayLook ahead f = .ok d ∧ c = .not d := by
  rw [conditionOf] at h
  cases hf : conditionOf leaf mayLook ahead f with
  | error e =>
    rw [hf] at h
    cases h
  | ok d =>
    rw [hf] at h
    exact ⟨d, rfl, (Except.ok.inj h).symm⟩

theorem conditionOf_next {f : Formula} {c : Condition}
    (h : conditionOf leaf mayLook ahead (.unary .next f) = .ok c) :
    mayLook = true ∧ ahead = false ∧ conditionOf leaf mayLook true f = .ok c := by
  rw [conditionOf] at h
  cases mayLook <;> cases ahead <;> simp_all

def Condition.leaves : Condition → List String
  | .truth _ => []
  | .leaf text => [text]
  | .not c => leaves c
  | .binary _ l r => leaves l ++ leaves r

/-- The condition of a binary formula joins those of its operands as the operator does. -/
theorem conditionOf_binary {op : BinaryOp} {l r : Formula} {c : Condition}
    (h : conditionOf leaf mayLook ahead (.binary op l r) = .ok c) :
    ∃ cl cr, conditionOf leaf mayLook ahead l = .ok cl ∧
      conditionOf leaf mayLook ahead r = .ok cr ∧ op.isTemporal = false ∧
      c.leaves = cl.leaves ++ cr.leaves ∧ ∀ read, c.eval read = true ↔
        op.Holds (fun _ ↦ cl.eval read = true) (fun _ ↦ cr.eval read = true) 0 := by
  unfold conditionOf at h
  cases hl : conditionOf leaf mayLook ahead l with
  | error e =>
    rw [hl] at h
    cases op <;> cases h
  | ok cl =>
    cases hr : conditionOf leaf mayLook ahead r with
    | error e =>
      rw [hl, hr] at h
      cases op <;> cases h
    | ok cr =>
      rw [hl, hr] at h
      refine ⟨cl, cr, rfl, rfl, ?_⟩
      cases op <;> cases h <;> refine ⟨rfl, rfl, fun read ↦ ?_⟩ <;>
        cases hcl : cl.eval read <;> cases hcr : cr.eval read <;>
        simp [Condition.eval, ConditionOp.eval, BinaryOp.Holds, hcl, hcr]

/-- The condition of a formula is true where the formula holds, if the spelling of every atom reads
as the atom: those under `X` at the step after. -/
theorem eval_conditionOf {f : Formula} {c : Condition} {read : String → Bool} {trace : Trace}
    {k : Nat} (h : conditionOf leaf mayLook ahead f = .ok c)
    (hnow : ahead = false → ∀ a ∈ presentAtoms f, read (leaf false a) = true ↔ trace k a)
    (hlater : mayLook = true ∨ ahead = true →
      ∀ a ∈ f.atoms, read (leaf true a) = true ↔ trace (k + 1) a) :
    c.eval read = true ↔ f.Holds trace (if ahead then k + 1 else k) := by
  induction f generalizing c ahead with
  | const b =>
    obtain rfl := Except.ok.inj h
    exact Iff.rfl
  | atom a =>
    obtain rfl := Except.ok.inj h
    cases ahead with
    | false => exact hnow rfl a (List.mem_singleton_self a)
    | true => exact hlater (Or.inr rfl) a (List.mem_singleton_self a)
  | unary op f ih =>
    cases op with
    | not =>
      obtain ⟨d, hd, rfl⟩ := conditionOf_not h
      have hf := ih hd hnow hlater
      rw [Formula.holds_unary, UnaryOp.Holds, ← hf]
      simp [Condition.eval]
    | next =>
      obtain ⟨rfl, rfl, hf⟩ := conditionOf_next h
      exact ih hf (fun hahead ↦ by cases hahead) (fun _ ↦ hlater (Or.inl rfl))
    | eventually | always => cases h
  | bounded op n f ih => cases h
  | binary op l r ihl ihr =>
    obtain ⟨cl, cr, hcl, hcr, hop, -, heval⟩ := conditionOf_binary h
    have hl := ihl hcl (fun hahead a ha ↦ hnow hahead a (List.mem_append_left _ ha))
      (fun hlook a ha ↦ hlater hlook a (List.mem_append_left _ ha))
    have hr := ihr hcr (fun hahead a ha ↦ hnow hahead a (List.mem_append_right _ ha))
      (fun hlook a ha ↦ hlater hlook a (List.mem_append_right _ ha))
    rw [heval read, Formula.holds_binary]
    exact BinaryOp.holds_iff_of_not_temporal hop hl hr

/-- The expressions of a condition are the spellings of its atoms, each read as it stands. -/
theorem mem_leaves_conditionOf {f : Formula} {c : Condition} {e : String}
    (h : conditionOf leaf mayLook ahead f = .ok c) (he : e ∈ c.leaves) :
    ∃ a ∈ f.atoms, e = leaf true a ∨ (ahead = false ∧ a ∈ presentAtoms f ∧ e = leaf false a) := by
  induction f generalizing c ahead with
  | const b =>
    obtain rfl := Except.ok.inj h
    cases he
  | atom a =>
    obtain rfl := Except.ok.inj h
    obtain rfl := List.mem_singleton.mp he
    refine ⟨a, List.mem_cons_self, ?_⟩
    cases ahead with
    | false => exact Or.inr ⟨rfl, List.mem_cons_self, rfl⟩
    | true => exact Or.inl rfl
  | unary op f ih =>
    cases op with
    | not =>
      obtain ⟨d, hd, rfl⟩ := conditionOf_not h
      exact ih hd he
    | next =>
      obtain ⟨-, rfl, hf⟩ := conditionOf_next h
      obtain ⟨a, ha, heq | ⟨hahead, -⟩⟩ := ih hf he
      · exact ⟨a, ha, Or.inl heq⟩
      · cases hahead
    | eventually | always => cases h
  | bounded op n f ih => cases h
  | binary op l r ihl ihr =>
    obtain ⟨cl, cr, hcl, hcr, -, hleaves, -⟩ := conditionOf_binary h
    rw [hleaves] at he
    rcases List.mem_append.mp he with he | he
    · obtain ⟨a, ha, heq⟩ := ihl hcl he
      exact ⟨a, List.mem_append_left _ ha, heq.imp_right fun ⟨hahead, hmem, heq⟩ ↦
        ⟨hahead, List.mem_append_left _ hmem, heq⟩⟩
    · obtain ⟨a, ha, heq⟩ := ihr hcr he
      exact ⟨a, List.mem_append_right _ ha, heq.imp_right fun ⟨hahead, hmem, heq⟩ ↦
        ⟨hahead, List.mem_append_right _ hmem, heq⟩⟩

/-- The atoms that are read at once are atoms of the formula. -/
theorem presentAtoms_subset {f : Formula} {a : Atom} (h : a ∈ presentAtoms f) : a ∈ f.atoms := by
  induction f with
  | const b => cases h
  | atom b => exact h
  | unary op f ih =>
    cases op with
    | next => cases h
    | not | eventually | always => exact ih h
  | bounded op n f ih => exact ih h
  | binary op l r ihl ihr =>
    rcases List.mem_append.mp h with h | h
    · exact List.mem_append_left _ (ihl h)
    · exact List.mem_append_right _ (ihr h)

end Conditions

/-- A condition read now is true where its formula holds, if no atom of it is spelled like a
flag. -/
theorem eval_presentCondition {i : Interface} {f : Formula} {c : Condition} {m : Memory}
    {run : Observations} {k : Nat} (h : presentCondition i f = .ok c)
    (hflags : ∀ a ∈ f.atoms, m.flags (a.expression i) = none) :
    c.eval (m.read (run k)) = true ↔ f.Holds (traceOf i run) k := by
  apply eval_conditionOf (k := k) h
  · intro _ a ha
    have hread : m.read (run k) (a.expression i) = run k (a.expression i) := by
      rw [Memory.read, hflags a (presentAtoms_subset ha), Option.getD_none]
    rw [← Atom.expression, hread, traceOf]
  · intro hlook
    simp at hlook

/-! ## Conclusions -/

/-- Where a window of positions holds that starts at a given one. -/
def Window.Holds (w : Window) (p : Nat → Prop) (k : Nat) : Prop :=
  match w with
  | .instant => p k
  | .within n => BoundedOp.Holds .eventuallyWithin n.toNat p k
  | .throughout n => BoundedOp.Holds .alwaysWithin n.toNat p k

/-- The number of positions of a window after its first. -/
def Window.steps : Window → Nat
  | .instant => 0
  | .within n | .throughout n => n.toNat

/-- A window over what holds `n` steps later is the window `n` steps later. -/
theorem Window.holds_shift (w : Window) (p : Nat → Prop) (k n : Nat) :
    w.Holds (fun j ↦ p (j + n)) k ↔ w.Holds p (k + n) := by
  cases w with
  | instant => exact Iff.rfl
  | within steps =>
    constructor
    · rintro ⟨j, hkj, hjk, hj⟩
      exact ⟨j + n, by omega, by omega, hj⟩
    · rintro ⟨j, hkj, hjk, hj⟩
      refine ⟨j - n, by omega, by omega, ?_⟩
      change p (j - n + n)
      rwa [Nat.sub_add_cancel (by omega)]
  | throughout steps =>
    constructor
    · intro h j hkj hjk
      have hj : p (j - n + n) := h (j - n) (by omega) (by omega)
      rwa [Nat.sub_add_cancel (by omega)] at hj
    · intro h j hkj hjk
      exact h (j + n) (by omega) (by omega)

def Timed.Holds (trace : Trace) (t : Timed) (k : Nat) : Prop :=
  t.window.Holds (t.core.Holds trace) (k + t.delay.toNat)

/-- The number of steps that the timing in front of a formula looks ahead: the sum of its next
steps and of its bounds. -/
def reach : Formula → Nat
  | .unary .next f => reach f + 1
  | .bounded _ n f => reach f + n.toNat
  | _ => 0

theorem toNat_addCapped_of_lt {a b : UInt32} (h : a.toNat + b.toNat < UInt32.size) :
    (addCapped a b).toNat = a.toNat + b.toNat := by
  rw [toNat_addCapped]
  omega

/-- What peeling has to keep: the number of steps looked ahead, the atoms and the meaning. -/
structure PeeledFrom (t : Timed) (delay : UInt32) (window : Window) (f : Formula) : Prop where
  steps : t.delay.toNat + t.window.steps = delay.toNat + window.steps + reach f
  atoms : t.core.atoms = f.atoms
  holds : ∀ trace k, t.Holds trace k ↔ window.Holds (f.Holds trace) (k + delay.toNat)

/-- A formula without timing in front is the core itself. -/
theorem peeledFrom_leaf {delay : UInt32} {window : Window} {f : Formula} {t : Timed}
    (h : (if f.isTemporal then .error f else .ok ⟨delay, window, f⟩ : Except Formula Timed) =
      .ok t) (hreach : reach f = 0) : PeeledFrom t delay window f := by
  cases hf : f.isTemporal with
  | true =>
    rw [hf, if_pos rfl] at h
    cases h
  | false =>
    rw [hf, if_neg (by simp)] at h
    obtain rfl := Except.ok.inj h
    exact ⟨by rw [hreach, Nat.add_zero], rfl, fun trace k ↦ Iff.rfl⟩

/-- Peeling `n` next steps off moves them into the delay. -/
theorem PeeledFrom.of_delay {delay n : UInt32} {window : Window} {f g : Formula} {t : Timed}
    (h : PeeledFrom t (addCapped delay n) window g)
    (hfits : delay.toNat + n.toNat < UInt32.size) (hreach : reach f = reach g + n.toNat)
    (hatoms : f.atoms = g.atoms)
    (hholds : ∀ trace k, f.Holds trace k ↔ g.Holds trace (k + n.toNat)) :
    PeeledFrom t delay window f where
  steps := by
    rw [h.steps, toNat_addCapped_of_lt hfits, hreach]
    omega
  atoms := h.atoms.trans hatoms.symm
  holds trace k := by
    have heq : f.Holds trace = fun j ↦ g.Holds trace (j + n.toNat) :=
      funext fun j ↦ propext (hholds trace j)
    rw [h.holds, heq, window.holds_shift, toNat_addCapped_of_lt hfits, Nat.add_assoc]

/-- Peeling keeps the meaning, as long as the counts fit into words. -/
theorem peel_spec {delay : UInt32} {window : Window} {f : Formula} {t : Timed}
    (h : peel delay window f = .ok t)
    (hreach : delay.toNat + window.steps + reach f < UInt32.size) :
    PeeledFrom t delay window f := by
  induction f generalizing delay window with
  | const b | atom a | binary op l r ihl ihr => exact peeledFrom_leaf h rfl
  | unary op f ih =>
    cases op with
    | not | eventually | always => exact peeledFrom_leaf h rfl
    | next =>
      rw [reach] at hreach
      have hfits : delay.toNat + (1 : UInt32).toNat < UInt32.size := by
        rw [UInt32.toNat_one]
        omega
      have hrest : PeeledFrom t (addCapped delay 1) window f := ih h (by
        rw [toNat_addCapped_of_lt hfits, UInt32.toNat_one]
        omega)
      exact hrest.of_delay hfits rfl rfl fun trace k ↦ Iff.rfl
  | bounded op n f ih =>
    rw [reach] at hreach
    cases op with
    | exactly =>
      have hfits : delay.toNat + n.toNat < UInt32.size := by omega
      have hrest : PeeledFrom t (addCapped delay n) window f := ih h (by
        rw [toNat_addCapped_of_lt hfits]
        omega)
      exact hrest.of_delay hfits rfl rfl fun trace k ↦ Iff.rfl
    | eventuallyWithin | alwaysWithin =>
      rw [peel] at h
      cases window with
      | within m | throughout m => cases h
      | instant =>
        rw [if_pos rfl] at h
        obtain ⟨hsteps, hatoms, hholds⟩ := ih h (by simp only [Window.steps] at hreach ⊢; omega)
        refine ⟨?_, hatoms, hholds⟩
        rw [hsteps]
        simp only [Window.steps, reach]
        omega

/-! ## Scopes and implications -/

def Scope.Covers (s : Scope) (k : Nat) : Prop :=
  match s with
  | .everyStep => True
  | .initial => k = 0
  | .afterInitial => 0 < k

/-- A guard for a trigger that is known `lag` steps late passes the steps that follow a step of the
scope by as many. -/
theorem eval_guard (s : Scope) (step : String) (lag : UInt32) (n : Nat) :
    (s.guard step lag).all (Guard.eval n) = true ↔ ∃ k, k + lag.toNat = n ∧ s.Covers k := by
  cases s with
  | everyStep =>
    rw [Scope.guard]
    by_cases hlag : lag = 0
    · subst hlag
      simp [Scope.Covers]
    · rw [if_neg hlag]
      simp only [Option.all_some, Guard.eval, compare, decide_eq_true_eq, Scope.Covers]
      constructor
      · intro h
        exact ⟨n - lag.toNat, by omega, trivial⟩
      · rintro ⟨k, hk, -⟩
        omega
  | initial =>
    simp only [Scope.guard, Option.all_some, Guard.eval, compare, beq_iff_eq, Scope.Covers]
    constructor
    · intro h
      exact ⟨0, by omega, rfl⟩
    · rintro ⟨k, hk, rfl⟩
      omega
  | afterInitial =>
    simp only [Scope.guard, Option.all_some, Guard.eval, compare, decide_eq_true_eq, Scope.Covers]
    constructor
    · intro h
      exact ⟨n - lag.toNat, by omega, by omega⟩
    · rintro ⟨k, hk, hpos⟩
      omega

theorem eq_always_of_alwaysBody? {f body : Formula} (h : f.alwaysBody? = some body) :
    f = .unary .always body := by
  unfold Formula.alwaysBody? at h
  split at h
  · rw [Option.some.inj h]
  · cases h

/-- A property holds if its body holds at every step of its scope. -/
theorem scoped_holds_iff (c : Chunk) (trace : Trace) :
    c.scoped.Holds trace 0 ↔ ∀ k, (scopeOf c).1.Covers k → (scopeOf c).2.Holds trace k := by
  obtain ⟨tag, f⟩ := c
  cases hf : f.alwaysBody? with
  | none =>
    have hafter : (∀ k, 0 + 1 ≤ k → f.Holds trace k) ↔ ∀ k, 0 < k → f.Holds trace k := Iff.rfl
    rcases tag with _ | _ | _ <;>
      simp only [Chunk.scoped, scopeOf, hf, Scope.Covers, Formula.holds_unary, UnaryOp.Holds,
        forall_eq, hafter]
  | some body =>
    obtain rfl := eq_always_of_alwaysBody? hf
    rcases tag with _ | _ | _ <;>
      simp only [Chunk.scoped, scopeOf, hf, Scope.Covers, Formula.holds_unary, UnaryOp.Holds,
        forall_const, Nat.zero_le]
    constructor
    · intro h k hk
      exact h k hk k (Nat.le_refl k)
    · intro h k hk j hkj
      exact h j (by omega)

/-- A formula holds if its conclusion does wherever its premise does. -/
theorem holds_splitImplication (f : Formula) (trace : Trace) (k : Nat) :
    f.Holds trace k ↔
      ((∀ p ∈ (splitImplication f).1, p.Holds trace k) →
        (splitImplication f).2.Holds trace k) := by
  unfold splitImplication
  split
  · simp [BinaryOp.Holds]
  · simp

end Monitor

end TemporalRequirements

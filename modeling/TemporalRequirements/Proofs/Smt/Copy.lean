import TemporalRequirements.Smt.Encoding

/-!
# Copies of variables

Under `k` next steps a formula speaks of the copies of its variables `k` steps later.  The name of
a copy is the identifier of its variable with one letter in front for every step.
-/

namespace TemporalRequirements.Smt

/-- A variable and the number of steps later at which it is read. -/
structure Copy where
  variableName : String
  shift : Nat
  deriving DecidableEq, Repr

namespace Scope

/-- The scope in which the properties over an interface are encoded. -/
abbrev of (i : Interface) : Scope := ⟨i, literalNames i⟩

variable (s : Scope)

def nameOf (c : Copy) : String := s.constantName c.variableName c.shift

/-- The copies of those names that do not stand for literals. -/
def copiesOf (shift : Nat) (names : List String) : List Copy :=
  (names.filter fun v ↦ !s.interface.readsAsLiteral v).map fun v ↦ ⟨v, shift⟩

/-- The copies of variables in a formula that is read `shift` steps later, in order. -/
def copies (shift : Nat) : Formula → List Copy
  | .const _ => []
  | .atom a => s.copiesOf shift a.predicate.variables
  | .unary .next f => copies (shift + 1) f
  | .unary _ f | .bounded _ _ f => copies shift f
  | .binary _ l r => copies shift l ++ copies shift r

variable {s}

theorem copiesOf_append (shift : Nat) (names names' : List String) :
    s.copiesOf shift (names ++ names') = s.copiesOf shift names ++ s.copiesOf shift names' := by
  rw [copiesOf, List.filter_append, List.map_append]
  rfl

/-- The copies of names are those of variables among them. -/
theorem mem_copiesOf {shift : Nat} {names : List String} {c : Copy} :
    c ∈ s.copiesOf shift names ↔
      c.variableName ∈ names ∧ s.interface.readsAsLiteral c.variableName = false ∧
        c.shift = shift := by
  obtain ⟨v, k⟩ := c
  simp only [copiesOf, List.mem_map, List.mem_filter, Bool.not_eq_true', Copy.mk.injEq]
  constructor
  · rintro ⟨v, ⟨hmem, hread⟩, rfl, rfl⟩
    exact ⟨hmem, hread, rfl⟩
  · rintro ⟨hmem, hread, rfl⟩
    exact ⟨v, ⟨hmem, hread⟩, rfl, rfl⟩

/-! ## Names of copies -/

theorem toList_repeat_shiftedOnce (k : Nat) (name : String) :
    (Nat.repeat shiftedOnce k name).toList = List.replicate k 'x' ++ name.toList := by
  induction k with
  | zero => rfl
  | succ k ih =>
    rw [Nat.repeat, toList_shiftedOnce, ih, List.replicate_succ, List.cons_append]

/-- Two copies have one name if the identifier of the one that is read earlier starts with the
letters that the other has more. -/
theorem nameOf_eq_iff {c c' : Copy} (h : c.shift ≤ c'.shift) :
    s.nameOf c = s.nameOf c' ↔
      s.interface.identifier c.variableName =
        Nat.repeat shiftedOnce (c'.shift - c.shift) (s.interface.identifier c'.variableName) := by
  have hsplit : List.replicate c'.shift 'x' =
      List.replicate c.shift 'x' ++ List.replicate (c'.shift - c.shift) 'x' := by
    rw [List.replicate_append_replicate, Nat.add_sub_cancel' h]
  rw [← String.toList_inj, ← String.toList_inj, nameOf, nameOf, constantName, constantName,
    toList_repeat_shiftedOnce, toList_repeat_shiftedOnce, toList_repeat_shiftedOnce, hsplit,
    List.append_assoc, List.append_cancel_left_eq]

end Scope

end TemporalRequirements.Smt

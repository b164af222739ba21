import TemporalRequirements.Proofs.Engine.History
import TemporalRequirements.Proofs.Smt.Script

/-!
# Copies that share a name

Variables with identifiers of their own may still have copies of one name: the letters in front of
a copy may be the first letters of another variable.  Declared signals are no exception, although
the table of types never takes them for copies.
-/

namespace TemporalRequirements.Smt

def Outcome.copies (s : Scope) : Outcome → List Copy
  | .asserted body _ => s.copies 0 body
  | .notUnrolled _ | .notEncoded _ => []

def assertedCopies (s : Store) (i : Interface) (limit : UInt32) : List Copy :=
  s.formalChunks.flatMap fun ref ↦
    ((outcome? s i limit ref).map (Outcome.copies (Scope.of i))).getD []

/-- Whether the variable of `c` is spelled like the variable of `c'` after one letter for each step
that `c'` is later. -/
def Copy.IsSpelledLike (i : Interface) (c c' : Copy) : Prop :=
  c.shift < c'.shift ∧ i.identifier c.variableName =
    Nat.repeat shiftedOnce (c'.shift - c.shift) (i.identifier c'.variableName)

instance (i : Interface) (c c' : Copy) : Decidable (c.IsSpelledLike i c') :=
  inferInstanceAs (Decidable (_ ∧ _))

/-- Copies of different steps have one name only if one is spelled like the other. -/
theorem Scope.nameOf_eq_iff_of_lt {s : Scope} {c c' : Copy} (h : c.shift < c'.shift) :
    s.nameOf c = s.nameOf c' ↔
      c.IsSpelledLike s.interface c' ∨ c'.IsSpelledLike s.interface c := by
  rw [nameOf_eq_iff (Nat.le_of_lt h)]
  constructor
  · intro heq
    exact Or.inl ⟨h, heq⟩
  · rintro (⟨-, heq⟩ | ⟨hlt, -⟩)
    · exact heq
    · exact absurd hlt (Nat.lt_asymm h)

/-- Where different variables have different identifiers, different copies share a name exactly if
the variable of the earlier one is spelled like the later copy of the other. -/
theorem nameOf_eq_iff_isSpelledLike {s : Store} {i : Interface} {limit : UInt32}
    (h : ∀ c ∈ assertedCopies s i limit, ∀ c' ∈ assertedCopies s i limit,
      i.identifier c.variableName = i.identifier c'.variableName →
        c.variableName = c'.variableName)
    {c c' : Copy} (hc : c ∈ assertedCopies s i limit) (hc' : c' ∈ assertedCopies s i limit)
    (hne : c ≠ c') :
    (Scope.of i).nameOf c = (Scope.of i).nameOf c' ↔
      c.IsSpelledLike i c' ∨ c'.IsSpelledLike i c := by
  rcases Nat.lt_trichotomy c.shift c'.shift with hlt | hshift | hlt
  · exact Scope.nameOf_eq_iff_of_lt hlt
  · have hdistinct : ¬ i.identifier c.variableName = i.identifier c'.variableName := by
      intro heq
      apply hne
      obtain ⟨v, k⟩ := c
      obtain ⟨v', k'⟩ := c'
      exact congrArg₂ Copy.mk (h _ hc _ hc' heq) hshift
    rw [Scope.nameOf_eq_iff (Nat.le_of_eq hshift), hshift, Nat.sub_self]
    constructor
    · intro heq
      exact absurd heq hdistinct
    · rintro (⟨hlt, -⟩ | ⟨hlt, -⟩)
      · exact absurd hlt (hshift ▸ Nat.lt_irrefl _)
      · exact absurd hlt (hshift ▸ Nat.lt_irrefl _)
  · rw [eq_comm, Or.comm]
    exact Scope.nameOf_eq_iff_of_lt hlt

/-- Two signals, of which one is spelled like the other one step later. -/
def speeds : Interface :=
  (Interface.empty.declare ⟨"speed", .input, "boolean"⟩).declare ⟨"xspeed", .input, "boolean"⟩

/-- The engine over the two signals with one property. -/
def speedsEngine (text : String) : Engine :=
  (Engine.start speeds .standard).run [.add "R" text .property, .formalizeAll]

/-- Two steps later `speed` is `xxspeed`, which is not how `xspeed` is spelled now. -/
theorem nameOf_eq_iff_isSpelledLike_twoSteps :
    let e := speedsEngine "G(X(X(speed)) && !xspeed)"
    let copies := assertedCopies e.store e.interface e.config.unrollLimit
    copies = [⟨"speed", 2⟩, ⟨"xspeed", 0⟩] ∧
      (∀ c ∈ copies, ∀ c' ∈ copies,
        e.interface.identifier c.variableName = e.interface.identifier c'.variableName →
          c.variableName = c'.variableName) ∧
      ((Scope.of e.interface).nameOf ⟨"speed", 2⟩ = (Scope.of e.interface).nameOf ⟨"xspeed", 0⟩ ↔
        Copy.IsSpelledLike e.interface ⟨"speed", 2⟩ ⟨"xspeed", 0⟩ ∨
          Copy.IsSpelledLike e.interface ⟨"xspeed", 0⟩ ⟨"speed", 2⟩) ∧
      (Scope.of e.interface).nameOf ⟨"speed", 2⟩ ≠ (Scope.of e.interface).nameOf ⟨"xspeed", 0⟩ := by
  intro e copies
  have hcopies : copies = [⟨"speed", 2⟩, ⟨"xspeed", 0⟩] := by decide +kernel
  have hdistinct : ∀ c ∈ copies, ∀ c' ∈ copies,
      e.interface.identifier c.variableName = e.interface.identifier c'.variableName →
        c.variableName = c'.variableName := by
    rw [hcopies]
    decide +kernel
  have hlater : ⟨"speed", 2⟩ ∈ copies := by
    rw [hcopies]
    exact List.mem_cons_self
  have hnow : ⟨"xspeed", 0⟩ ∈ copies := by
    rw [hcopies]
    exact List.mem_cons_of_mem _ List.mem_cons_self
  exact ⟨hcopies, hdistinct, nameOf_eq_iff_isSpelledLike hdistinct hlater hnow (by decide),
    by decide +kernel⟩

/-- One step later `speed` is `xspeed`, and so is the other signal now: one constant is declared
for both, and the only group of the script cannot be satisfied. -/
theorem nameOf_speed_eq_nameOf_xspeed :
    let e := speedsEngine "G(X(speed) && !xspeed)"
    let copies := assertedCopies e.store e.interface e.config.unrollLimit
    copies = [⟨"speed", 1⟩, ⟨"xspeed", 0⟩] ∧
      (∀ c ∈ copies, ∀ c' ∈ copies,
        e.interface.identifier c.variableName = e.interface.identifier c'.variableName →
          c.variableName = c'.variableName) ∧
      ¬ (∀ c ∈ copies, ∀ c' ∈ copies, c ≠ c' →
        (Scope.of e.interface).nameOf c ≠ (Scope.of e.interface).nameOf c') ∧
      (build e.store e.interface e.config.unrollLimit e.groups).1.lines =
        ["(set-logic ALL)", "(declare-const xspeed Bool)", "(push 1)",
          "(assert (! (and xspeed (not xspeed)) :named R_0))", "(check-sat)", "(pop 1)"] := by
  decide +kernel

end TemporalRequirements.Smt

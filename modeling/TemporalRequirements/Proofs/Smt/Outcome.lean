import TemporalRequirements.Proofs.Smt.Encoding
import TemporalRequirements.Proofs.Store.Places
import TemporalRequirements.Smt.Script

/-!
# What becomes of a property

A property is asserted, or it is reported because it cannot be unrolled or because it has no
encoding.  The message about a property names the requirement and the number of the property, and
no other property has a message that names both.
-/

namespace TemporalRequirements

/-- What a property says at one step: its unrolled formula without a leading "always". -/
def Chunk.body (limit : UInt32) (c : Chunk) : Except UnrollError Formula :=
  (c.formula.unroll limit).map fun f ↦ f.alwaysBody?.getD f

namespace Smt

inductive Outcome where
  | notUnrolled (error : UnrollError)
  | notEncoded (part : String)
  /-- The term `e` says at one step what `body` says. -/
  | asserted (body : Formula) (e : Expr)

def Scope.outcome (s : Scope) (limit : UInt32) (c : Chunk) : Outcome :=
  match c.body limit with
  | .error e => .notUnrolled e
  | .ok body =>
    match s.formula 0 body with
    | .error part => .notEncoded part
    | .ok e => .asserted body e

def assertionLine (i : Interface) (ref : ChunkRef) (e : Expr) : String :=
  "(assert (! " ++ e.print ++ " :named " ++
    (i.identifier ref.requirement ++ "_" ++ toString ref.index) ++ "))"

/-- A property is asserted if it has a body and the body an encoding. -/
theorem Scope.outcome_eq_asserted_iff {s : Scope} {limit : UInt32} {c : Chunk} {body : Formula}
    {e : Expr} : s.outcome limit c = .asserted body e ↔
      c.body limit = .ok body ∧ s.formula 0 body = .ok e := by
  constructor
  · intro h
    rw [outcome] at h
    cases hbody : c.body limit with
    | error error =>
      rw [hbody] at h
      cases h
    | ok f =>
      rw [hbody] at h
      cases hf : s.formula 0 f with
      | error part =>
        simp only [hf] at h
        cases h
      | ok t =>
        simp only [hf, Outcome.asserted.injEq] at h
        obtain ⟨rfl, rfl⟩ := h
        exact ⟨rfl, hf⟩
  · rintro ⟨hbody, he⟩
    simp only [outcome, hbody, he]

namespace Outcome

/-- The messages about a property: an error if it cannot be unrolled, a warning if it has no
encoding. -/
def report (ref : ChunkRef) : Outcome → List Diagnostic
  | .notUnrolled e => [.failure (some ref.requirement) (ref.label ++ e.marker)]
  | .notEncoded part =>
    [.warn (some ref.requirement)
      (ref.label ++ ("`" ++ part ++ "` has no SMT-LIB translation, chunk skipped"))]
  | .asserted _ _ => []

def line? (i : Interface) (ref : ChunkRef) : Outcome → Option String
  | .asserted _ e => some (assertionLine i ref e)
  | .notUnrolled _ | .notEncoded _ => none

def notes (s : Scope) : Outcome → List Note
  | .asserted body _ => s.notes 0 body
  | .notUnrolled _ | .notEncoded _ => []

def assertion? (s : Scope) (ref : ChunkRef) : Outcome → Option Assertion
  | .asserted body e => some ⟨ref, assertionLine s.interface ref e, s.notes 0 body⟩
  | .notUnrolled _ | .notEncoded _ => none

theorem map_text_assertion? (s : Scope) (ref : ChunkRef) (o : Outcome) :
    (o.assertion? s ref).map Assertion.text = o.line? s.interface ref := by
  cases o <;> rfl

theorem flatMap_notes_assertion? (s : Scope) (ref : ChunkRef) (o : Outcome) :
    (o.assertion? s ref).toList.flatMap Assertion.notes = o.notes s := by
  cases o with
  | asserted body e => exact List.append_nil _
  | _ => rfl

/-- A message about the outcome of a property is about this property. -/
theorem isAbout_of_mem_report {ref : ChunkRef} {o : Outcome} {d : Diagnostic}
    (h : d ∈ o.report ref) : d.isAbout ref = true := by
  cases o with
  | notUnrolled e =>
    obtain rfl := List.mem_singleton.mp h
    exact Diagnostic.isAbout_label _ _ _
  | notEncoded part =>
    obtain rfl := List.mem_singleton.mp h
    exact Diagnostic.isAbout_label _ _ _
  | asserted body e => cases h

end Outcome

/-- An assertion and a message are made from what becomes of the property. -/
theorem assertion_cases (s : Scope) (limit : UInt32) (ref : ChunkRef) (c : Chunk) :
    (∃ a, assertion s limit ref.requirement ref.index c = .ok a ∧
        (s.outcome limit c).assertion? s ref = some a ∧ (s.outcome limit c).report ref = []) ∨
      ∃ d, assertion s limit ref.requirement ref.index c = .error d ∧
        (s.outcome limit c).assertion? s ref = none ∧ (s.outcome limit c).report ref = [d] := by
  rw [assertion, Scope.outcome, Chunk.body]
  cases c.formula.unroll limit with
  | error e => exact Or.inr ⟨_, rfl, rfl, rfl⟩
  | ok f =>
    simp only [Except.map]
    cases hf : s.formula 0 (f.alwaysBody?.getD f) with
    | error part =>
      refine Or.inr ⟨_, rfl, rfl, ?_⟩
      simp only [Outcome.report, ChunkRef.label, String.append_assoc]
      rfl
    | ok e => exact Or.inl ⟨_, rfl, rfl, rfl⟩

end Smt

end TemporalRequirements

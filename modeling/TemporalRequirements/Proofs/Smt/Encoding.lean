import TemporalRequirements.Proofs.Smt.Copy

/-!
# What has an encoding

A formula is encoded if it holds no call and, of the operators that look at other steps, only the
next step.  What is reported otherwise is the text of the first part from the left that has no
encoding.  The constants of an encoding are the names of the copies in the formula, and these are
also the names that the formula tells types of.
-/

namespace TemporalRequirements

def Term.calls : Term → List Term
  | .var _ | .number _ | .truth _ => []
  | .neg t => calls t
  | .arith _ l r => calls l ++ calls r
  | .call f args => [.call f args]

def Predicate.calls : Predicate → List Term
  | .holds t => t.calls
  | .compare l _ r => l.calls ++ r.calls

/-- The texts of the outermost parts without an encoding, from left to right. -/
def Formula.obstacles : Formula → List String
  | .const _ => []
  | .atom a => a.predicate.calls.map (Term.print .source)
  | .unary op f =>
    match op with
    | .not | .next => obstacles f
    | .eventually | .always => [(Formula.unary op f).print]
  | .bounded op n f => [(Formula.bounded op n f).print]
  | .binary op l r =>
    if op.isTemporal then [(Formula.binary op l r).print] else obstacles l ++ obstacles r

/-- Whether a formula holds no call, no bounded operator and no temporal one but the next step. -/
def Formula.isEncodable : Formula → Bool
  | .const _ => true
  | .atom a => a.predicate.calls.isEmpty
  | .unary op f => (op = .not || op = .next) && isEncodable f
  | .bounded _ _ _ => false
  | .binary op l r => !op.isTemporal && isEncodable l && isEncodable r

theorem Formula.obstacles_eq_nil_iff {f : Formula} : f.obstacles = [] ↔ f.isEncodable = true := by
  induction f with
  | const b => simp [obstacles, isEncodable]
  | atom a => simp [obstacles, isEncodable]
  | unary op f ih => cases op <;> simp [obstacles, isEncodable, ih]
  | bounded op n f => simp [obstacles, isEncodable]
  | binary op l r ihl ihr =>
    cases op <;> simp [obstacles, isEncodable, BinaryOp.isTemporal, ihl, ihr]

namespace Smt

def Expr.constants : Expr → List String
  | .constant name => [name]
  | .truth _ | .number _ | .literal _ => []
  | .unary _ e => constants e
  | .binary _ l r => constants l ++ constants r

section

variable {ε α β γ : Type} {x : Except ε α} {f : α → Except ε β} {y : Except ε β}
  {g : α → β → γ}

/-- Steps succeed one after the other. -/
theorem bind_eq_ok_iff {b : β} : x >>= f = .ok b ↔ ∃ a, x = .ok a ∧ f a = .ok b := by
  cases x with
  | error e =>
    constructor
    · intro h
      cases h
    · rintro ⟨a, h, -⟩
      cases h
  | ok a =>
    constructor
    · intro h
      exact ⟨a, rfl, h⟩
    · rintro ⟨a', h, hf⟩
      rw [Except.ok.inj h]
      exact hf

/-- The first step that fails gives the error. -/
theorem bind_eq_error_iff {e : ε} :
    x >>= f = .error e ↔ x = .error e ∨ ∃ a, x = .ok a ∧ f a = .error e := by
  cases x with
  | error e' =>
    constructor
    · intro h
      exact Or.inl (congrArg Except.error (Except.error.inj h))
    · rintro (h | ⟨a, h, -⟩)
      · exact congrArg Except.error (Except.error.inj h)
      · cases h
  | ok a =>
    constructor
    · intro h
      exact Or.inr ⟨a, rfl, h⟩
    · rintro (h | ⟨a', h, hf⟩)
      · cases h
      · rw [Except.ok.inj h]
        exact hf

theorem of_both_eq_ok {c : γ} (h : (do return g (← x) (← y)) = .ok c) :
    ∃ a b, x = .ok a ∧ y = .ok b ∧ g a b = c := by
  obtain ⟨a, hx, hrest⟩ := bind_eq_ok_iff.mp h
  obtain ⟨b, hy, hreturn⟩ := bind_eq_ok_iff.mp hrest
  exact ⟨a, b, hx, hy, Except.ok.inj hreturn⟩

/-- Of two steps the first that fails is reported, if each reports the first of its obstacles. -/
theorem head?_append_of_both_eq_error {e : ε} {before after : List ε}
    (h : (do return g (← x) (← y)) = .error e) (hx : x = .error e → before.head? = some e)
    (hok : ∀ a, x = .ok a → before = []) (hy : y = .error e → after.head? = some e) :
    (before ++ after).head? = some e := by
  rw [List.head?_append]
  rcases bind_eq_error_iff.mp h with hfirst | ⟨a, hfirst, hrest⟩
  · rw [hx hfirst]
    rfl
  · rw [hok a hfirst]
    rcases bind_eq_error_iff.mp hrest with hsecond | ⟨b, -, hreturn⟩
    · exact hy hsecond
    · cases hreturn

end

/-! ## Terms, predicates and formulas -/

namespace Scope

variable {s : Scope} {shift : Nat}

/-- An encoded term calls nothing, and its constants are the copies of its variables. -/
theorem term_ok {hint : Option String} {real : Bool} {t : Term} {e : Expr}
    (h : s.term shift hint real t = .ok e) :
    t.calls = [] ∧ e.constants = (s.copiesOf shift t.variables).map s.nameOf := by
  induction t using Term.calls.induct generalizing real e with
  | case1 v =>
    refine ⟨rfl, ?_⟩
    rw [term] at h
    split at h
    · rename_i hliteral
      obtain rfl := Except.ok.inj h
      simp [Expr.constants, Term.variables, copiesOf, hliteral]
    · rename_i hvariable
      obtain rfl := Except.ok.inj h
      simp [Expr.constants, Term.variables, copiesOf, hvariable, nameOf]
  | case2 text =>
    obtain rfl := Except.ok.inj h
    exact ⟨rfl, rfl⟩
  | case3 b =>
    obtain rfl := Except.ok.inj h
    exact ⟨rfl, rfl⟩
  | case4 t ih =>
    obtain ⟨e', he, hreturn⟩ := bind_eq_ok_iff.mp h
    obtain rfl := Except.ok.inj hreturn
    obtain ⟨hcalls, hnames⟩ := ih he
    exact ⟨hcalls, hnames⟩
  | case5 op l r ihl ihr =>
    obtain ⟨left, right, hleft, hright, rfl⟩ := of_both_eq_ok h
    obtain ⟨hcallsl, hnamesl⟩ := ihl hleft
    obtain ⟨hcallsr, hnamesr⟩ := ihr hright
    refine ⟨by rw [Term.calls, hcallsl, hcallsr, List.nil_append], ?_⟩
    rw [Expr.constants, Term.variables, copiesOf_append, List.map_append, hnamesl, hnamesr]
  | case6 f args => cases h

/-- What has no encoding in a term is its first call. -/
theorem term_error {hint : Option String} {real : Bool} {t : Term} {part : String}
    (h : s.term shift hint real t = .error part) :
    (t.calls.map (Term.print .source)).head? = some part := by
  induction t using Term.calls.induct generalizing real with
  | case1 v =>
    rw [term] at h
    split at h <;> cases h
  | case2 text => cases h
  | case3 b => cases h
  | case4 t ih =>
    rcases bind_eq_error_iff.mp h with he | ⟨e', -, hreturn⟩
    · exact ih he
    · cases hreturn
  | case5 op l r ihl ihr =>
    rw [Term.calls, List.map_append]
    exact head?_append_of_both_eq_error h ihl
      (fun left hleft ↦ by rw [(term_ok hleft).1, List.map_nil]) ihr
  | case6 f args =>
    rw [← Except.error.inj h]
    rfl

theorem constants_comparison (op : RelOp) (l r : Expr) :
    (comparison op l r).constants = l.constants ++ r.constants := by
  cases op <;> rfl

/-- An encoded predicate calls nothing, and its constants are the copies of its variables. -/
theorem predicate_ok {p : Predicate} {e : Expr} (h : s.predicate shift p = .ok e) :
    p.calls = [] ∧ e.constants = (s.copiesOf shift p.variables).map s.nameOf := by
  cases p with
  | holds t => exact term_ok h
  | compare l op r =>
    obtain ⟨left, right, hleft, hright, rfl⟩ := of_both_eq_ok h
    obtain ⟨hcallsl, hnamesl⟩ := term_ok hleft
    obtain ⟨hcallsr, hnamesr⟩ := term_ok hright
    refine ⟨by rw [Predicate.calls, hcallsl, hcallsr, List.nil_append], ?_⟩
    rw [constants_comparison, Predicate.variables, copiesOf_append, List.map_append, hnamesl,
      hnamesr]

theorem predicate_error {p : Predicate} {part : String} (h : s.predicate shift p = .error part) :
    (p.calls.map (Term.print .source)).head? = some part := by
  cases p with
  | holds t => exact term_error h
  | compare l op r =>
    rw [Predicate.calls, List.map_append]
    exact head?_append_of_both_eq_error h term_error
      (fun left hleft ↦ by rw [(term_ok hleft).1, List.map_nil]) term_error

theorem isTemporal_eq_isNone (op : BinaryOp) : op.isTemporal = (binaryOp? op).isNone := by
  cases op <;> rfl

/-- An encoded formula has no part without an encoding, and its constants are its copies. -/
theorem formula_ok {f : Formula} {e : Expr} (h : s.formula shift f = .ok e) :
    f.obstacles = [] ∧ e.constants = (s.copies shift f).map s.nameOf := by
  induction f generalizing shift e with
  | const b =>
    obtain rfl := Except.ok.inj h
    exact ⟨rfl, rfl⟩
  | atom a =>
    obtain ⟨hcalls, hnames⟩ := predicate_ok h
    exact ⟨by rw [Formula.obstacles, hcalls, List.map_nil], hnames⟩
  | unary op f ih =>
    cases op with
    | not =>
      obtain ⟨e', he, hreturn⟩ := bind_eq_ok_iff.mp h
      obtain rfl := Except.ok.inj hreturn
      obtain ⟨hobstacles, hnames⟩ := ih he
      exact ⟨hobstacles, hnames⟩
    | next =>
      have hnext : s.formula (shift + 1) f = .ok e := h
      exact ih hnext
    | eventually => cases h
    | always => cases h
  | bounded op n f => cases h
  | binary op l r ihl ihr =>
    rw [formula] at h
    rw [Formula.obstacles, isTemporal_eq_isNone]
    cases hop : binaryOp? op with
    | none =>
      rw [hop] at h
      cases h
    | some o =>
      rw [hop] at h
      obtain ⟨left, right, hleft, hright, rfl⟩ := of_both_eq_ok h
      obtain ⟨hobstaclesl, hnamesl⟩ := ihl hleft
      obtain ⟨hobstaclesr, hnamesr⟩ := ihr hright
      refine ⟨by rw [hobstaclesl, hobstaclesr]; rfl, ?_⟩
      rw [Expr.constants, copies, List.map_append, hnamesl, hnamesr]

/-- What is reported is the first part from the left that has no encoding. -/
theorem formula_error {f : Formula} {part : String} (h : s.formula shift f = .error part) :
    f.obstacles.head? = some part := by
  induction f generalizing shift with
  | const b => cases h
  | atom a => exact predicate_error h
  | unary op f ih =>
    cases op with
    | not =>
      rcases bind_eq_error_iff.mp h with he | ⟨e', -, hreturn⟩
      · exact ih he
      · cases hreturn
    | next =>
      have hnext : s.formula (shift + 1) f = .error part := h
      exact ih hnext
    | eventually | always =>
      rw [← Except.error.inj h]
      rfl
  | bounded op n f =>
    rw [← Except.error.inj h]
    rfl
  | binary op l r ihl ihr =>
    rw [formula] at h
    rw [Formula.obstacles, isTemporal_eq_isNone]
    cases hop : binaryOp? op with
    | none =>
      rw [hop] at h
      rw [← Except.error.inj h]
      rfl
    | some o =>
      rw [hop] at h
      rw [if_neg (by simp)]
      exact head?_append_of_both_eq_error h ihl (fun left hleft ↦ (formula_ok hleft).1) ihr

/-- A formula has an encoding exactly if it is encodable. -/
theorem exists_formula_ok_iff {f : Formula} :
    (∃ e, s.formula shift f = .ok e) ↔ f.isEncodable = true := by
  rw [← Formula.obstacles_eq_nil_iff]
  constructor
  · rintro ⟨e, h⟩
    exact (formula_ok h).1
  · intro hnone
    cases h : s.formula shift f with
    | ok e => exact ⟨e, rfl⟩
    | error part =>
      have hhead := formula_error h
      rw [hnone] at hhead
      cases hhead

/-! ## Names that types are told of -/

theorem mem_note {v name : String} {suggested : SmtType} :
    name ∈ (s.note shift v suggested).map Prod.fst ↔
      name ∈ (s.copiesOf shift [v]).map s.nameOf := by
  rw [note]
  split
  · rename_i hliteral
    simp [copiesOf, hliteral]
  · rename_i hvariable
    split <;> simp [copiesOf, hvariable, nameOf]

/-- Types are told of the copies of a term's variables. -/
theorem mem_termNotes {t : Term} {name : String} (hcalls : t.calls = []) :
    name ∈ (s.termNotes shift t).map Prod.fst ↔
      name ∈ (s.copiesOf shift t.variables).map s.nameOf := by
  induction t using Term.calls.induct with
  | case1 v => exact mem_note
  | case2 text => rfl
  | case3 b => rfl
  | case4 t ih => exact ih hcalls
  | case5 op l r ihl ihr =>
    obtain ⟨hl, hr⟩ := List.append_eq_nil_iff.mp hcalls
    rw [termNotes, Term.variables, copiesOf_append, List.map_append, List.map_append,
      List.mem_append, List.mem_append, ihl hl, ihr hr]
  | case6 f args => cases hcalls

/-- What a variable tells beyond its occurrence is of the same name. -/
theorem mem_of_mem_noteVariable {t : Term} {name : String} {suggested : SmtType}
    (h : name ∈ (s.noteVariable shift suggested t).map Prod.fst) :
    name ∈ (s.copiesOf shift t.variables).map s.nameOf := by
  cases t with
  | var v => exact mem_note.mp h
  | _ => cases h

/-- Types are told of the copies of a predicate's variables. -/
theorem mem_predicateNotes {p : Predicate} {name : String} (hcalls : p.calls = []) :
    name ∈ (s.predicateNotes shift p).map Prod.fst ↔
      name ∈ (s.copiesOf shift p.variables).map s.nameOf := by
  cases p with
  | holds t =>
    have hterm : name ∈ (s.termNotes shift t).map Prod.fst ↔ _ := mem_termNotes hcalls
    rw [predicateNotes, List.map_append, List.mem_append, hterm, Predicate.variables]
    exact or_iff_right_of_imp mem_of_mem_noteVariable
  | compare l op r =>
    obtain ⟨hl, hr⟩ := List.append_eq_nil_iff.mp hcalls
    have hterml : name ∈ (s.termNotes shift l).map Prod.fst ↔ _ := mem_termNotes hl
    have htermr : name ∈ (s.termNotes shift r).map Prod.fst ↔ _ := mem_termNotes hr
    simp only [predicateNotes, List.map_append, List.mem_append, hterml, htermr,
      Predicate.variables, copiesOf_append]
    constructor
    · rintro (((h | h) | h) | h)
      · exact Or.inl (mem_of_mem_noteVariable h)
      · exact Or.inr (mem_of_mem_noteVariable h)
      · exact Or.inl h
      · exact Or.inr h
    · rintro (h | h)
      · exact Or.inl (Or.inr h)
      · exact Or.inr h

/-- An encodable formula tells types of its copies, and of nothing else. -/
theorem mem_notes {f : Formula} {name : String} (h : f.isEncodable = true) :
    name ∈ (s.notes shift f).map Prod.fst ↔ name ∈ (s.copies shift f).map s.nameOf := by
  induction f generalizing shift with
  | const b => rfl
  | atom a => exact mem_predicateNotes (List.isEmpty_iff.mp h)
  | unary op f ih =>
    rw [Formula.isEncodable, Bool.and_eq_true] at h
    cases op <;> exact ih h.2
  | bounded op n f => cases h
  | binary op l r ihl ihr =>
    rw [Formula.isEncodable, Bool.and_eq_true, Bool.and_eq_true] at h
    rw [notes, copies, List.map_append, List.map_append, List.mem_append, List.mem_append,
      ihl h.1.2, ihr h.2]

end Scope

end Smt

end TemporalRequirements

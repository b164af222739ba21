import TemporalRequirements.Proofs.Formula.Unroll
import TemporalRequirements.Proofs.Grammar.FormulaSound
import TemporalRequirements.Proofs.Grammar.Printed
import TemporalRequirements.Proofs.Smt.Meaning
import TemporalRequirements.Proofs.Smt.Outcome

/-!
# Faithful encodings

A formula is encoded exactly if it is encodable.  Where names are kept apart and the names of
literals are symbols, the text of the encoding is true exactly when the formula holds.  The name of
a literal that several enumerations have contains the name of an enumeration as it was declared; if
that name holds a blank, the text is no comparison of two terms any more.
-/

namespace TemporalRequirements

/-- The formula that is asserted of a property has atoms of the property. -/
theorem Chunk.mem_atoms_of_body {limit : UInt32} {c : Chunk} {f : Formula} {a : Atom}
    (h : c.body limit = .ok f) (ha : a ∈ f.atoms) : a ∈ c.formula.atoms := by
  rw [body] at h
  cases hg : c.formula.unroll limit with
  | error e =>
    rw [hg] at h
    cases h
  | ok g =>
    rw [hg] at h
    obtain rfl := Except.ok.inj h
    apply Formula.mem_atoms_of_unroll hg
    cases g with
    | unary op g => cases op <;> exact ha
    | _ => exact ha

/-- What is asserted of a property that was read has only atoms that were read. -/
theorem Chunk.wellRead_of_body {text : String} {limit : UInt32} {c : Chunk} {f : Formula}
    (hc : Formula.parse text = .ok c.formula) (h : c.body limit = .ok f) :
    ∀ a ∈ f.atoms, a.WellRead :=
  fun a ha ↦ Grammar.wellRead_of_parse hc a (mem_atoms_of_body h ha)

namespace Smt

namespace Scope

variable (s : Scope) (f : Formula)

/-- Names that stand for one copy each, and for no printed literal. -/
structure NamesApart : Prop where
  copies : ∀ c ∈ s.copies 0 f, ∀ c' ∈ s.copies 0 f, s.nameOf c = s.nameOf c' → c = c'
  literals : ∀ c ∈ s.copies 0 f, ∀ l ∈ s.literalsOf f, s.nameOf c ≠ s.literalNameOf l

/-- Whether the printed names of literals consist of what symbols consist of. -/
def LiteralsLegible : Prop :=
  ∀ l ∈ s.literalsOf f, ∀ c ∈ (s.literalNameOf l).toList, isSymbolPart c = true

/-- The values of names at a step: the constant of a copy has the value of the variable at the step
of the copy, and other names have the values of literals. -/
def assign {D : Type} (values : Nat → String → D) (literals : String → D) (j : Nat)
    (name : String) : D :=
  match (s.copies 0 f).find? fun c ↦ s.nameOf c = name with
  | some c => values (j + c.shift) c.variableName
  | none => literals name

/-- Whether the text of a term spells a tree that is true exactly where the formula holds, when
each printed literal is the literal of the enumeration to which it belongs. -/
def IsFaithful (e : Expr) : Prop :=
  ∃ tree, Sexp.read? e.print = some tree ∧
    ∀ (D : Type) (R : Reading D) (values : Nat → String → D) (literals : String → D) (j : Nat),
      s.AreTruthful R values f →
      (∀ l ∈ s.literalsOf f, literals (s.literalNameOf l) = R.literal l.1 l.2) →
        ∃ b, tree.value R (s.assign f values literals j) = some (R.truth b) ∧
          (b = true ↔ f.Holds (s.trace R values) j)

variable {s f}

/-- If names are apart, that of a copy has the value of its variable at its step. -/
theorem NamesApart.assign_copy (h : s.NamesApart f) {D : Type} (values : Nat → String → D)
    (literals : String → D) (j : Nat) {c : Copy} (hc : c ∈ s.copies 0 f) :
    s.assign f values literals j (s.nameOf c) = values (j + c.shift) c.variableName := by
  rw [assign]
  cases hfind : (s.copies 0 f).find? fun c' ↦ s.nameOf c' = s.nameOf c with
  | none => exact absurd (decide_eq_true rfl) (List.find?_eq_none.mp hfind c hc)
  | some c' =>
    have hfound := List.find?_some hfind
    have hname : s.nameOf c' = s.nameOf c := of_decide_eq_true hfound
    rw [h.copies c' (List.mem_of_find?_eq_some hfind) c hc hname]

/-- If names are apart, that of a literal has the value of the literal. -/
theorem NamesApart.assign_literal (h : s.NamesApart f) {D : Type} (values : Nat → String → D)
    (literals : String → D) (j : Nat) {l : String × String} (hl : l ∈ s.literalsOf f) :
    s.assign f values literals j (s.literalNameOf l) = literals (s.literalNameOf l) := by
  rw [assign]
  cases hfind : (s.copies 0 f).find? fun c ↦ s.nameOf c = s.literalNameOf l with
  | none => rfl
  | some c =>
    have hfound := List.find?_some hfind
    have hname : s.nameOf c = s.literalNameOf l := of_decide_eq_true hfound
    exact absurd hname (h.literals c (List.mem_of_find?_eq_some hfind) l hl)

end Scope

/-- Truth values alone: numbers and literals are all true. -/
def truthReading : Reading Bool where
  truth := id
  isTrue := id
  number _ := true
  literal _ _ := true
  call _ _ := true
  negate := id
  operate _ a _ := a
  compare op a b := if op = .ne then a != b else a == b
  isTrue_truth _ := rfl
  number_point _ _ := rfl
  compare_ne _ _ := rfl
  compare_truth _ _ := rfl

variable {i : Interface} {f : Formula}

/-- The encoding of a formula that was read is true at the steps at which the formula holds. -/
theorem isFaithful_of_formula (hi : i.identifier = safeName) (hf : ∀ a ∈ f.atoms, a.WellRead)
    (happart : (Scope.of i).NamesApart f) (hlegible : (Scope.of i).LiteralsLegible f) {e : Expr}
    (he : (Scope.of i).formula 0 f = .ok e) : (Scope.of i).IsFaithful f e := by
  have hspelled : ∀ a ∈ f.atoms, a.predicate.IsSpelled :=
    fun a ha ↦ (hf a ha).spelled.isSpelled
  -- Whether a term is legible does not depend on the reading, so any one shows it.
  obtain ⟨_, htree, -⟩ := formula_means truthReading (fun _ ↦ true) hi (fun _ _ ↦ true) 0 he
    hspelled (fun _ _ ↦ rfl) (fun l hl ↦ ⟨hlegible l hl, rfl⟩) fun _ _ _ _ _ ↦ ⟨_, rfl⟩
  refine ⟨e.sexp, read?_print htree.legible, ?_⟩
  intro D R values literals j htruthful hliterals
  obtain ⟨b, hmeans, hb⟩ := formula_means R ((Scope.of i).assign f values literals j) hi values j he
    hspelled (fun c hc ↦ happart.assign_copy values literals j hc)
    (fun l hl ↦ ⟨hlegible l hl, (happart.assign_literal values literals j hl).trans
      (hliterals l hl)⟩) htruthful
  exact ⟨b, hmeans.value, hb⟩

/-- A formula has an encoding exactly if it is encodable; otherwise its first part without one is
reported.  The encoding is faithful, if names are kept apart and those of literals are symbols. -/
theorem formula_faithful (hi : i.identifier = safeName) (hf : ∀ a ∈ f.atoms, a.WellRead) :
    ((∃ part, (Scope.of i).formula 0 f = .error part) ↔ f.isEncodable = false) ∧
      (∀ part, (Scope.of i).formula 0 f = .error part → f.obstacles.head? = some part) ∧
      (f.isEncodable = true → (Scope.of i).NamesApart f → (Scope.of i).LiteralsLegible f →
        ∃ e, (Scope.of i).formula 0 f = .ok e ∧ (Scope.of i).IsFaithful f e) := by
  have hok : (∃ e, (Scope.of i).formula 0 f = .ok e) ↔ f.isEncodable = true :=
    Scope.exists_formula_ok_iff
  refine ⟨?_, fun part ↦ Scope.formula_error, ?_⟩
  · rw [← Bool.not_eq_true, ← hok]
    cases (Scope.of i).formula 0 f <;> simp
  · intro hencodable happart hlegible
    obtain ⟨e, he⟩ := hok.mpr hencodable
    exact ⟨e, he, isFaithful_of_formula hi hf happart hlegible he⟩

/-- Two enumerations that share a literal, and a signal of the one with the later name. -/
def gears : Interface :=
  (((((Interface.empty.declareEnum ⟨"Mode", ["Idle", "Run"]⟩).declareEnum
    ⟨"Gear", ["Idle", "Park"]⟩).declare ⟨"gear", .output, "Gear"⟩).declare
    ⟨"speed", .input, "int16_T"⟩).declare ⟨"on", .input, "boolean"⟩)

/-- A run that speeds up and leaves the idle gear after the first step. -/
def gearValues (j : Nat) : String → Value
  | "speed" => .number j
  | "on" => .truth true
  | _ => .literal "Gear" (if j = 0 then "Idle" else "Park")

theorem formula_faithful_gears :
    let s := Scope.of gears
    let c : Chunk := ⟨none, .unary .always (.binary .implies
      (.binary .and (.unary .next (.atom ⟨"speed > 2", .compare (.var "speed") .gt (.number "2")⟩))
        (.atom (.var "on"))) (.atom ⟨"gear == Idle", .compare (.var "gear") .eq (.var "Idle")⟩))⟩
    Formula.parse "G(X(speed > 2) && on -> gear == Idle)" = .ok c.formula ∧
      ∃ f e tree, c.body defaultUnrollLimit = .ok f ∧ f.isEncodable = true ∧ s.NamesApart f ∧
        s.LiteralsLegible f ∧ s.formula 0 f = .ok e ∧
        e.print = "(=> (and (> xspeed 2) on) (= gear Idle_Gear))" ∧
        Sexp.read? e.print = some tree ∧
        ∀ j, ∃ b, tree.value Value.reading
          (s.assign f gearValues (fun _ ↦ .literal "Gear" "Idle") j) = some (.truth b) ∧
            (b = true ↔ f.Holds (s.trace Value.reading gearValues) j) := by
  intro s c
  have hparse : Formula.parse "G(X(speed > 2) && on -> gear == Idle)" = .ok c.formula :=
    eq_ok_of_toOption (by decide +kernel)
  let f : Formula := .binary .implies
    (.binary .and (.unary .next (.atom ⟨"speed > 2", .compare (.var "speed") .gt (.number "2")⟩))
      (.atom (.var "on"))) (.atom ⟨"gear == Idle", .compare (.var "gear") .eq (.var "Idle")⟩)
  have hbody : c.body defaultUnrollLimit = .ok f := rfl
  have happart : s.NamesApart f := ⟨by decide +kernel, by decide +kernel⟩
  have hliterals : s.literalsOf f = [("Gear", "Idle")] := by decide +kernel
  have hlegible : s.LiteralsLegible f := by
    intro l hl
    rw [hliterals] at hl
    obtain rfl := List.mem_singleton.mp hl
    have hname : s.literalNameOf ("Gear", "Idle") = "Idle_Gear" := by decide +kernel
    rw [hname]
    exact List.all_eq_true.mp rfl
  obtain ⟨e, he, tree, hread, hvalue⟩ :=
    (formula_faithful rfl (Chunk.wellRead_of_body hparse hbody)).2.2 rfl happart hlegible
  have hprint : e.print = "(=> (and (> xspeed 2) on) (= gear Idle_Gear))" := by
    have htext : ((s.formula 0 f).toOption.map Expr.print) =
        some "(=> (and (> xspeed 2) on) (= gear Idle_Gear))" := by decide +kernel
    rw [he] at htext
    exact Option.some.inj htext
  refine ⟨hparse, f, e, tree, hbody, rfl, happart, hlegible, he, hprint, hread, fun j ↦ ?_⟩
  apply hvalue Value Value.reading gearValues (fun _ ↦ .literal "Gear" "Idle") j
  · intro a ha t ht k
    have hatoms : a ∈ [(⟨"speed > 2", .compare (.var "speed") .gt (.number "2")⟩ : Atom),
      .var "on", ⟨"gear == Idle", .compare (.var "gear") .eq (.var "Idle")⟩] := ha
    simp only [List.mem_cons, List.not_mem_nil, or_false] at hatoms
    rcases hatoms with rfl | rfl | rfl
    · cases ht
    · obtain rfl := Predicate.holds.inj ht
      exact ⟨true, rfl⟩
    · cases ht
  · intro l hl
    rw [hliterals] at hl
    obtain rfl := List.mem_singleton.mp hl
    rfl

/-- Two enumerations with blanks in their names that share a literal. -/
def blankModes : Interface :=
  ((Interface.empty.declareEnum ⟨"My Mode", ["Idle"]⟩).declareEnum
    ⟨"Other Mode", ["Idle"]⟩).declare ⟨"g", .input, "My Mode"⟩

/-- The name of an enumeration is no identifier as it was declared: `Idle_My Mode` is two symbols,
and the text of the encoding has no value under any reading. -/
theorem formula_unfaithful_blankModes :
    let s := Scope.of blankModes
    let f : Formula := .atom ⟨"g == Idle", .compare (.var "g") .eq (.var "Idle")⟩
    Formula.parse "G(g == Idle)" = .ok (.unary .always f) ∧
      Chunk.body defaultUnrollLimit ⟨none, .unary .always f⟩ = .ok f ∧
      blankModes.identifier = safeName ∧ f.isEncodable = true ∧ s.NamesApart f ∧
      ∃ e tree, s.formula 0 f = .ok e ∧ e.print = "(= g Idle_My Mode)" ∧
        Sexp.read? e.print = some tree ∧
        (∀ (D : Type) (R : Reading D) (names : String → D), tree.value R names = none) ∧
        ¬ s.IsFaithful f e := by
  intro s f
  let e : Expr := .binary .equal (.constant "g") (.literal "Idle_My Mode")
  let tree : Sexp := .cons (.symbol "=") (.cons (.symbol "g")
    (.cons (.symbol "Idle_My") (.cons (.symbol "Mode") .nil)))
  have he : s.formula 0 f = .ok e := eq_ok_of_toOption (by decide +kernel)
  have hread : Sexp.read? e.print = some tree := by decide +kernel
  have hvalue (D : Type) (R : Reading D) (names : String → D) : tree.value R names = none := by
    have hequal : Op.ofSymbol? "=" = some .equal := Op.ofSymbol?_symbol .equal
    simp only [tree, Sexp.value, Sexp.values, hequal, Option.bind_some, Option.map_some]
    rfl
  have htruthful : s.AreTruthful Value.reading (fun _ _ ↦ .literal "My Mode" "Idle") f := by
    intro a ha t ht
    obtain rfl := List.mem_singleton.mp ha
    cases ht
  have hliterals : ∀ l ∈ s.literalsOf f, Value.literal "My Mode" "Idle" = .literal l.1 l.2 := by
    have honly : s.literalsOf f = [("My Mode", "Idle")] := by decide +kernel
    intro l hl
    rw [honly] at hl
    obtain rfl := List.mem_singleton.mp hl
    rfl
  refine ⟨eq_ok_of_toOption (by decide +kernel), rfl, rfl, rfl,
    ⟨by decide +kernel, by decide +kernel⟩, e, tree, he, by decide +kernel, hread, hvalue, ?_⟩
  rintro ⟨tree', hread', hfaithful⟩
  obtain rfl := Option.some.inj (hread.symm.trans hread')
  obtain ⟨b, hb, -⟩ := hfaithful Value Value.reading _ (fun _ ↦ .literal "My Mode" "Idle") 0
    htruthful hliterals
  rw [hvalue] at hb
  cases hb

end Smt

end TemporalRequirements

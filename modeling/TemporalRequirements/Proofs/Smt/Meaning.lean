import TemporalRequirements.Proofs.Grammar.AtomReading
import TemporalRequirements.Proofs.Smt.Encoding
import TemporalRequirements.Proofs.Smt.Naming

/-!
# Encoding keeps the meaning

The S-expression that is printed for a formula is true exactly if the formula holds, when every
constant has the value of its variable at the step of the copy and every printed literal is the
literal of the enumeration to which it belongs.  Each part of a formula is read back as a part of
the tree that has the value of that part.
-/

namespace TemporalRequirements

/-- Whether variables and numbers outside calls are spelled as names and numbers are. -/
def Term.IsSpelled : Term → Prop
  | .var v => Grammar.NameText v.toList
  | .number text => Grammar.NumberText text.toList
  | .truth _ | .call _ _ => True
  | .neg t => IsSpelled t
  | .arith _ l r => IsSpelled l ∧ IsSpelled r

def Predicate.IsSpelled : Predicate → Prop
  | .holds t => t.IsSpelled
  | .compare l _ r => l.IsSpelled ∧ r.IsSpelled

/-- What a phrase says about the leaves of its terms. -/
def Grammar.Phrase.IsSpelled : Phrase → Prop
  | .operand t | .signed t | .level _ t => t.IsSpelled
  | .tail _ l t => l.IsSpelled → t.IsSpelled
  | .arguments _ | .items _ => True

/-- The leaves of terms that were read are spelled as names and numbers. -/
theorem Grammar.TermText.isSpelled {p : Phrase} {s : List Char} (h : TermText p s) :
    p.IsSpelled := by
  induction h with
  | gap _ _ ih => exact ih
  | number hs =>
    change NumberText (String.ofList _).toList
    rwa [String.toList_ofList]
  | truth _ => trivial
  | var hw =>
    change NameText (String.ofList _).toList
    rwa [String.toList_ofList]
  | call _ _ _ => trivial
  | paren _ _ ih => exact ih
  | noArguments _ _ | arguments _ _ _ _ | lastItem _ _ | item _ _ _ _ _ => trivial
  | unsigned _ ih => exact ih
  | negative _ _ ih => exact ih
  | factor _ ih => exact ih
  | chain _ _ ih ihtail => exact ihtail ih
  | stop => exact id
  | link _ _ _ ih ihtail => exact fun hl ↦ ihtail ⟨hl, ih⟩

theorem Grammar.PredicateText.isSpelled {p : Predicate} {s : List Char} (h : PredicateText p s) :
    p.IsSpelled := by
  cases h with
  | holds hs => exact hs.isSpelled
  | compare hl _ hr => exact ⟨hl.isSpelled, hr.isSpelled⟩

namespace Smt

/-! ## Types and steps -/

/-- Types that differ at most in the constant whose type they are. -/
def SmtType.Similar (a b : SmtType) : Prop := a = b ∨ ∃ n m, a = .sameAs n ∧ b = .sameAs m

/-- Merging respects what types have in common. -/
theorem SmtType.Similar.merge {a b c d : SmtType} (h : a.Similar b) (h' : c.Similar d) :
    (a.merge c).Similar (b.merge d) := by
  have hkeep (a : SmtType) (n : String) : a.merge (.sameAs n) = a := by
    simp [SmtType.merge, isConcrete]
  rcases h with rfl | ⟨n, m, rfl, rfl⟩
  · rcases h' with rfl | ⟨n, m, rfl, rfl⟩
    · exact Or.inl rfl
    · rw [hkeep, hkeep]
      exact Or.inl rfl
  · rcases h' with rfl | ⟨n', m', rfl, rfl⟩
    · cases hc : c.isConcrete with
      | true =>
        have hwins (n : String) : (sameAs n).merge c = c := by
          rw [SmtType.merge, hc]
          rfl
        rw [hwins, hwins]
        exact Or.inl rfl
      | false => exact Or.inr ⟨n, m, by simp [SmtType.merge, hc]⟩
    · rw [hkeep, hkeep]
      exact Or.inr ⟨n, m, rfl, rfl⟩

/-- The type of a term at another step names other constants and is the same otherwise. -/
theorem Scope.similar_typeOf (s : Scope) (shift shift' : Nat) (t : Term) :
    (s.typeOf shift t).Similar (s.typeOf shift' t) := by
  induction t using Term.calls.induct with
  | case1 v =>
    rw [typeOf, typeOf]
    split
    · exact Or.inl rfl
    · split
      · exact Or.inl rfl
      · exact Or.inr ⟨_, _, rfl, rfl⟩
  | case4 t ih => exact ih
  | case5 op l r ihl ihr => exact ihl.merge ihr
  | _ => exact Or.inl rfl

theorem Scope.enumName?_typeOf (s : Scope) (shift : Nat) (t : Term) :
    (s.typeOf shift t).enumName? = s.enumOf t := by
  rcases s.similar_typeOf shift 0 t with h | ⟨n, m, h, h'⟩
  · rw [h]
    rfl
  · rw [enumOf, h, h']
    rfl

section

variable {D : Type} (R : Reading D) (names : String → D)

/-- Whether the text of a term is read back as a tree of a value. -/
structure Expr.Means (e : Expr) (d : D) : Prop where
  legible : e.IsLegible
  value : e.sexp.value R names = some d

variable {R names}

namespace Expr.Means

variable {e l r : Expr} {d d' dl dr : D} {op : Op}

theorem read (h : e.Means R names d) :
    ∃ tree, Sexp.read? e.print = some tree ∧ tree.value R names = some d :=
  ⟨e.sexp, read?_print h.legible, h.value⟩

theorem truth (b : Bool) : (Expr.truth b).Means R names (R.truth b) where
  legible := trivial
  value := congrArg some (symbol_truthText b)

theorem unary (h : e.Means R names d) (happly : R.apply op [d] = some d') :
    (Expr.unary op e).Means R names d' where
  legible := h.legible
  value := by
    simp only [Expr.sexp, Sexp.value, Sexp.values, Op.ofSymbol?_symbol, h.value, Option.bind_some,
      Option.map_some, happly]

theorem binary (hl : l.Means R names dl) (hr : r.Means R names dr)
    (happly : R.apply op [dl, dr] = some d) : (Expr.binary op l r).Means R names d where
  legible := ⟨hl.legible, hr.legible⟩
  value := by
    simp only [Expr.sexp, Sexp.value, Sexp.values, Op.ofSymbol?_symbol, hl.value, hr.value,
      Option.bind_some, Option.map_some, happly]

theorem comparison (hl : l.Means R names dl) (hr : r.Means R names dr) (op : RelOp) :
    (Scope.comparison op l r).Means R names (R.truth (R.compare op dl dr)) := by
  cases op with
  | ne =>
    have hequal : (Expr.binary .equal l r).Means R names (R.truth (R.compare .eq dl dr)) :=
      hl.binary hr rfl
    apply hequal.unary
    rw [Reading.apply, R.isTrue_truth, R.compare_ne]
  | _ => exact hl.binary hr rfl

end Expr.Means

/-! ## Parts of a formula -/

/-- Whether the name of a literal is a symbol whose value is that literal. -/
structure Scope.ReadsLiteral (s : Scope) (R : Reading D) (names : String → D)
    (l : String × String) : Prop where
  parts : ∀ c ∈ (s.literalNameOf l).toList, isSymbolPart c = true
  value : names (s.literalNameOf l) = R.literal l.1 l.2

variable {i : Interface} (hi : i.identifier = safeName)

include hi in
/-- The encoding of a term has the value of the term. -/
theorem term_means {values : String → D} {shift : Nat} {hint : Option String} {real : Bool}
    {t : Term} {e : Expr} (h : (Scope.of i).term shift hint real t = .ok e) (ht : t.IsSpelled)
    (hcopies : ∀ c ∈ (Scope.of i).copiesOf shift t.variables,
      names ((Scope.of i).nameOf c) = values c.variableName)
    (hliterals : ∀ l ∈ (Scope.of i).termLiterals hint t, (Scope.of i).ReadsLiteral R names l) :
    e.Means R names ((Scope.of i).termValue R values hint t) := by
  induction t using Term.calls.induct generalizing real e with
  | case1 v =>
    rw [Scope.term] at h
    rw [Scope.termValue]
    split at h
    · rename_i hread
      obtain rfl := Except.ok.inj h
      have hliteral : i.isLiteral v = true := (Bool.and_eq_true_iff.mp hread).1
      have hmem : (literalEnum i v hint, v) ∈ (Scope.of i).termLiterals hint (.var v) :=
        List.mem_map_of_mem (List.mem_filter.mpr ⟨List.mem_cons_self, hread⟩)
      have hname := isName_literalName ht (hliterals _ hmem).parts
      rw [if_pos hread, hintedName_eq hliteral]
      exact ⟨hname.toIsSymbol,
        congrArg some ((symbol_of_isName hname).trans (hliterals _ hmem).value)⟩
    · rename_i hread
      obtain rfl := Except.ok.inj h
      have hmem : ⟨v, shift⟩ ∈ (Scope.of i).copiesOf shift [v] :=
        Scope.mem_copiesOf.mpr ⟨List.mem_cons_self, Bool.eq_false_iff.mpr hread, rfl⟩
      have hname : IsName ((Scope.of i).constantName v shift) :=
        isName_constantName hi (ne_truthText_of_nameText ht) shift
      rw [if_neg hread]
      exact ⟨hname.toIsSymbol, congrArg some ((symbol_of_isName hname).trans (hcopies _ hmem))⟩
  | case2 text =>
    obtain rfl := Except.ok.inj h
    obtain ⟨hsymbol, hvalue⟩ := symbol_number R names ht real
    exact ⟨hsymbol, congrArg some hvalue⟩
  | case3 b =>
    obtain rfl := Except.ok.inj h
    exact Expr.Means.truth b
  | case4 t ih =>
    obtain ⟨e', he, hreturn⟩ := bind_eq_ok_iff.mp h
    obtain rfl := Except.ok.inj hreturn
    exact (ih he ht hcopies hliterals).unary rfl
  | case5 op l r ihl ihr =>
    obtain ⟨left, right, hleft, hright, rfl⟩ := of_both_eq_ok h
    rw [Term.variables, Scope.copiesOf_append] at hcopies
    rw [Scope.termLiterals, Term.variables, List.filter_append, List.map_append] at hliterals
    have hl := ihl hleft ht.1 (fun c hc ↦ hcopies c (List.mem_append_left _ hc))
      fun l hl ↦ hliterals l (List.mem_append_left _ hl)
    have hr := ihr hright ht.2 (fun c hc ↦ hcopies c (List.mem_append_right _ hc))
      fun l hl ↦ hliterals l (List.mem_append_right _ hl)
    apply hl.binary hr
    generalize (real || _) = real
    cases op <;> cases real <;> rfl
  | case6 f args => cases h

include hi in
/-- The encoding of a predicate is true where the predicate is. -/
theorem predicate_means {values : String → D} {shift : Nat} {p : Predicate} {e : Expr}
    (h : (Scope.of i).predicate shift p = .ok e) (hp : p.IsSpelled)
    (hcopies : ∀ c ∈ (Scope.of i).copiesOf shift p.variables,
      names ((Scope.of i).nameOf c) = values c.variableName)
    (hliterals : ∀ l ∈ (Scope.of i).predicateLiterals p, (Scope.of i).ReadsLiteral R names l)
    (htruthful : ∀ t, p = .holds t → ∃ b, (Scope.of i).termValue R values none t = R.truth b) :
    e.Means R names (R.truth ((Scope.of i).predicateHolds R values p)) := by
  cases p with
  | holds t =>
    obtain ⟨b, hb⟩ := htruthful t rfl
    have hmeans := term_means hi h hp hcopies hliterals
    rw [Scope.predicateHolds, hb, R.isTrue_truth]
    rwa [hb] at hmeans
  | compare l op r =>
    obtain ⟨left, right, hleft, hright, rfl⟩ := of_both_eq_ok h
    rw [Scope.enumName?_typeOf] at hleft hright
    rw [Predicate.variables, Scope.copiesOf_append] at hcopies
    have hl := term_means hi hleft hp.1 (fun c hc ↦ hcopies c (List.mem_append_left _ hc))
      fun l hl ↦ hliterals l (List.mem_append_left _ hl)
    have hr := term_means hi hright hp.2 (fun c hc ↦ hcopies c (List.mem_append_right _ hc))
      fun l hl ↦ hliterals l (List.mem_append_right _ hl)
    exact hl.comparison hr op

/-- The function of an operator is true where the operator holds. -/
theorem apply_binaryOp {op : BinaryOp} {o : Op} (h : Scope.binaryOp? op = some o)
    {p q : Nat → Prop} {k : Nat} {a b : Bool} (ha : a = true ↔ p k) (hb : b = true ↔ q k) :
    ∃ c, R.apply o [R.truth a, R.truth b] = some (R.truth c) ∧ (c = true ↔ op.Holds p q k) := by
  cases op with
  | and =>
    obtain rfl := Option.some.inj h
    exact ⟨a && b, by simp [Reading.apply, R.isTrue_truth], by simp [BinaryOp.Holds, ← ha, ← hb]⟩
  | or =>
    obtain rfl := Option.some.inj h
    exact ⟨a || b, by simp [Reading.apply, R.isTrue_truth], by simp [BinaryOp.Holds, ← ha, ← hb]⟩
  | xor =>
    obtain rfl := Option.some.inj h
    refine ⟨a != b, by simp [Reading.apply, R.isTrue_truth], ?_⟩
    cases a <;> cases b <;> simp [BinaryOp.Holds, ← ha, ← hb]
  | implies =>
    obtain rfl := Option.some.inj h
    refine ⟨!a || b, by simp [Reading.apply, R.isTrue_truth], ?_⟩
    cases a <;> cases b <;> simp [BinaryOp.Holds, ← ha, ← hb]
  | iff =>
    obtain rfl := Option.some.inj h
    refine ⟨a == b, by simp [Reading.apply, R.compare_truth], ?_⟩
    cases a <;> cases b <;> simp [BinaryOp.Holds, ← ha, ← hb]
  | strongUntil | release | weakUntil => cases h

variable (R names) in
include hi in
/-- What is read back for a formula is true exactly where the formula holds. -/
theorem formula_means (values : Nat → String → D) (j : Nat) {shift : Nat} {f : Formula} {e : Expr}
    (h : (Scope.of i).formula shift f = .ok e) (hf : ∀ a ∈ f.atoms, a.predicate.IsSpelled)
    (hcopies : ∀ c ∈ (Scope.of i).copies shift f,
      names ((Scope.of i).nameOf c) = values (j + c.shift) c.variableName)
    (hliterals : ∀ l ∈ (Scope.of i).literalsOf f, (Scope.of i).ReadsLiteral R names l)
    (htruthful : (Scope.of i).AreTruthful R values f) :
    ∃ b, e.Means R names (R.truth b) ∧
      (b = true ↔ f.Holds ((Scope.of i).trace R values) (j + shift)) := by
  induction f generalizing shift e with
  | const b =>
    obtain rfl := Except.ok.inj h
    exact ⟨b, Expr.Means.truth b, Iff.rfl⟩
  | atom a =>
    refine ⟨(Scope.of i).predicateHolds R (values (j + shift)) a.predicate,
      predicate_means hi h (hf a List.mem_cons_self) ?_ ?_ ?_, Iff.rfl⟩
    · intro c hc
      rw [hcopies c hc, (Scope.mem_copiesOf.mp hc).2.2]
    · exact fun l hl ↦ hliterals l (List.mem_flatMap.mpr ⟨a, List.mem_cons_self, hl⟩)
    · exact fun t ht ↦ htruthful a List.mem_cons_self t ht (j + shift)
  | unary op f ih =>
    cases op with
    | not =>
      obtain ⟨e', he, hreturn⟩ := bind_eq_ok_iff.mp h
      obtain rfl := Except.ok.inj hreturn
      obtain ⟨b, hmeans, hb⟩ := ih he hf hcopies hliterals htruthful
      refine ⟨!b, hmeans.unary (by rw [Reading.apply, R.isTrue_truth]), ?_⟩
      rw [Bool.not_eq_true', ← Bool.not_eq_true, hb]
      exact Iff.rfl
    | next =>
      -- A next step changes no text: the copies below it carry the step.
      have hnext : (Scope.of i).formula (shift + 1) f = .ok e := h
      exact ih hnext hf hcopies hliterals htruthful
    | eventually => cases h
    | always => cases h
  | bounded op n f => cases h
  | binary op l r ihl ihr =>
    rw [Scope.formula] at h
    cases ho : Scope.binaryOp? op with
    | none =>
      rw [ho] at h
      cases h
    | some o =>
      rw [ho] at h
      obtain ⟨left, right, hleft, hright, rfl⟩ := of_both_eq_ok h
      rw [Scope.literalsOf, Formula.atoms, List.flatMap_append] at hliterals
      obtain ⟨a, hl, ha⟩ := ihl hleft (fun a ha ↦ hf a (List.mem_append_left _ ha))
        (fun c hc ↦ hcopies c (List.mem_append_left _ hc))
        (fun l hl ↦ hliterals l (List.mem_append_left _ hl))
        fun a ha ↦ htruthful a (List.mem_append_left _ ha)
      obtain ⟨b, hr, hb⟩ := ihr hright (fun a ha ↦ hf a (List.mem_append_right _ ha))
        (fun c hc ↦ hcopies c (List.mem_append_right _ hc))
        (fun l hl ↦ hliterals l (List.mem_append_right _ hl))
        fun a ha ↦ htruthful a (List.mem_append_right _ ha)
      obtain ⟨c, happly, hc⟩ := apply_binaryOp (R := R) ho ha hb
      exact ⟨c, hl.binary hr happly, hc⟩

end

end Smt

end TemporalRequirements

import TemporalRequirements.Proofs.Grammar.Arithmetic

/-!
# Printed predicates

The printer leaves out the parentheses that the grouping of chains makes needless, and writes a
blank on both sides of every sign.  A minus sign with a blank after it is read as the remainder, so
a printed text need not be read as what was printed.  Without its blanks it spells the predicate
that was printed and no other, so that no two predicates that are read are printed alike.
-/

namespace TemporalRequirements

/-- The level of the chains to which an operation belongs. -/
def ArithOp.level : ArithOp → Nat
  | .mul | .div | .mod => 0
  | .add | .sub => 1

theorem ArithOp.level_add_precedence (op : ArithOp) : op.level + op.precedence = 2 := by
  cases op <;> rfl

/-- The least level on which a term is spelled without parentheses around it. -/
def Term.rank : Term → Nat
  | .arith op _ _ => op.level + 1
  | _ => 0

theorem Term.rank_le_two (t : Term) : t.rank ≤ 2 := by
  cases t with
  | arith op l r =>
    have hlevel := op.level_add_precedence
    have hpositive : 1 ≤ op.precedence := by cases op <;> decide
    change op.level + 1 ≤ 2
    omega
  | _ => exact Nat.zero_le 2

/-- An operand that is printed without parentheses is spelled on any level above the operations
that may stand so. -/
theorem Term.rank_le_of_any_eq_false {t : Term} {enclosed : Nat → Bool} {k : Nat}
    (hk : ∀ op : ArithOp, enclosed op.precedence = false → op.level < k)
    (h : t.precedence?.any enclosed = false) : t.rank ≤ k := by
  cases t with
  | arith op l r => exact hk op h
  | _ => exact Nat.zero_le k

/-- A negated term that is printed without parentheses is no operation. -/
theorem Term.rank_le_of_negated {t : Term} (h : t.precedence?.isSome = false) : t.rank ≤ 0 := by
  cases t with
  | arith op l r => cases h
  | _ => exact Nat.le_refl 0

namespace Grammar

/-- A text without its gaps. -/
def compact (s : List Char) : List Char := s.filter fun c ↦ !isGap c

@[simp] theorem compact_append (s t : List Char) : compact (s ++ t) = compact s ++ compact t :=
  List.filter_append s t

theorem compact_of_isPathPart {s : List Char} (h : ∀ c ∈ s, Text.isPathPart c = true) :
    compact s = s :=
  List.filter_eq_self.mpr fun c hc ↦ by rw [isGap_of_isPathPart (h c hc), Bool.not_false]

theorem isGap_head?_compact (s : List Char) : (compact s).head?.any isGap = false := by
  cases hs : compact s with
  | nil => rfl
  | cons c rest =>
    have hc : c ∈ compact s := hs ▸ List.mem_cons_self
    simpa using (List.mem_filter.mp hc).2

namespace TermText

variable {k : Nat} {op : ArithOp} {l r t : Term} {s s' s'' : List Char}

theorem level_of_le {j : Nat} (h : TermText (.level j t) s) (hjk : j ≤ k) :
    TermText (.level k t) s := by
  induction hjk with
  | refl => exact h
  | step _ ih =>
    rw [← List.append_nil s]
    exact .chain ih .stop

/-- The rest of a chain goes on with one more operation. -/
theorem tail_link (h : TermText (.tail k l t) s) (hop : OperationText k op s' s'')
    (hr : TermText (.level k r) s'') : TermText (.tail k l (.arith op t r)) (s ++ (s' ++ s'')) := by
  generalize hp : Phrase.tail k l t = p at h
  induction h generalizing l with
  | stop =>
    cases hp
    simpa using TermText.link hop hr .stop
  | link hop' hs _ _ ih =>
    cases hp
    simpa using TermText.link hop' hs (ih rfl)
  | _ => cases hp

/-- A chain goes on with one more operation. -/
theorem level_link (h : TermText (.level (k + 1) l) s) (hop : OperationText k op s' s'')
    (hr : TermText (.level k r) s'') :
    TermText (.level (k + 1) (.arith op l r)) (s ++ (s' ++ s'')) := by
  cases h with
  | chain hfirst htail =>
    rw [List.append_assoc]
    exact .chain hfirst (htail.tail_link hop hr)

theorem operand_level (h : TermText (.operand t) s) : TermText (.level k t) s :=
  level_of_le (.factor (.unsigned h)) (Nat.zero_le k)

end TermText

theorem operationText_symbol (op : ArithOp) {s : List Char} (h : s.head?.any isGap = false) :
    OperationText op.level op op.symbol.toList s := by
  cases op with
  | add => exact .add (TokenText.self ['+'])
  | sub => exact .sub (TokenText.self ['-']) h
  | mul => exact .mul (TokenText.self ['*'])
  | div => exact .div (TokenText.self ['/'])
  | mod => exact .mod (TokenText.self ['%'])

end Grammar

open Grammar

/-! ## Printed terms -/

/-- Whether the printed text of a term spells it once the blanks are gone. -/
def Term.PrintsBack (t : Term) : Prop :=
  TermText (.level t.rank t) (compact (t.print .source).toList)

namespace Term.PrintsBack

variable {t l r : Term}

/-- A term is spelled on every level for which it is put in parentheses if need be. -/
theorem spelled (h : t.PrintsBack) {wanted : Bool} {k : Nat}
    (hrank : wanted = false → t.rank ≤ k) :
    TermText (.level k t) (compact (parenthesizedIf wanted (t.print .source)).toList) := by
  cases wanted with
  | false => exact TermText.level_of_le h (hrank rfl)
  | true =>
    have hgroup : compact (parenthesizedIf true (t.print .source)).toList =
        '(' :: (compact (t.print .source).toList ++ [')']) := by
      simp only [parenthesizedIf, if_true, String.toList_append, compact_append]
      rfl
    rw [hgroup]
    have hinner : TermText (.level 2 t) (compact (t.print .source).toList) :=
      TermText.level_of_le h t.rank_le_two
    exact .operand_level (.paren hinner (TokenText.self [')']))

theorem sum (h : t.PrintsBack) : TermText (.level 2 t) (compact (t.print .source).toList) :=
  TermText.level_of_le h t.rank_le_two

theorem neg (h : t.PrintsBack) : (Term.neg t).PrintsBack := by
  have htext : compact ((Term.neg t).print .source).toList =
      ['-'] ++ compact (parenthesizedIf t.precedence?.isSome (t.print .source)).toList := by
    simp only [Term.print, String.toList_append, compact_append]
    rfl
  have hoperand := h.spelled (k := 0) rank_le_of_negated
  rw [PrintsBack, htext]
  cases hoperand with
  | factor hsigned => exact .factor (.negative (TokenText.self ['-']) hsigned)

/-- Operations print back where their operands do. -/
theorem arith {op : ArithOp} (hl : l.PrintsBack) (hr : r.PrintsBack) :
    (Term.arith op l r).PrintsBack := by
  have hsymbol : compact (" " ++ op.symbol ++ " ").toList = op.symbol.toList := by
    cases op <;> decide
  have htext : compact ((Term.arith op l r).print .source).toList =
      compact (parenthesizedIf (l.precedence?.any (· < op.precedence)) (l.print .source)).toList ++
        (op.symbol.toList ++
          compact (parenthesizedIf (r.precedence?.any (· ≤ op.precedence))
            (r.print .source)).toList) := by
    rw [← hsymbol]
    simp only [Term.print, String.toList_append, compact_append, List.append_assoc]
  rw [PrintsBack, htext]
  have hlevel := op.level_add_precedence
  -- A left operand without parentheses can begin the chain, a right one belongs to the level below.
  have hbegins : l.precedence?.any (· < op.precedence) = false → l.rank ≤ op.level + 1 :=
    rank_le_of_any_eq_false fun op' hop' ↦ by
      have hlevel' := op'.level_add_precedence
      have hprecedence : ¬ op'.precedence < op.precedence := of_decide_eq_false hop'
      omega
  have hbelow : r.precedence?.any (· ≤ op.precedence) = false → r.rank ≤ op.level :=
    rank_le_of_any_eq_false fun op' hop' ↦ by
      have hlevel' := op'.level_add_precedence
      have hprecedence : ¬ op'.precedence ≤ op.precedence := of_decide_eq_false hop'
      omega
  have hleft := hl.spelled hbegins
  have hright := hr.spelled hbelow
  exact hleft.level_link (operationText_symbol op (isGap_head?_compact _)) hright

/-- The printed arguments of a call spell its list of arguments. -/
theorem items {ts : List Term} (h : ∀ u ∈ t :: ts, u.PrintsBack) :
    TermText (.items (t :: ts))
      (compact (", ".intercalate (Term.printList .source (t :: ts))).toList) := by
  obtain ⟨ht, hts⟩ := List.forall_mem_cons.mp h
  induction ts generalizing t with
  | nil => exact .lastItem ht.sum
  | cons u us ih =>
    have htext : compact (", ".intercalate (Term.printList .source (t :: u :: us))).toList =
        compact (t.print .source).toList ++ ([','] ++
          compact (", ".intercalate (Term.printList .source (u :: us))).toList) := by
      simp only [Term.printList, String.intercalate_cons_cons, String.toList_append,
        compact_append, List.append_assoc]
      rfl
    rw [htext]
    obtain ⟨hu, hus⟩ := List.forall_mem_cons.mp hts
    exact .item ht.sum (TokenText.self [',']) (ih hts hu hus)

/-- Calls print back where their arguments do. -/
theorem call {w : List Char} {ts : List Term} (hw : NameText w) (h : ∀ t ∈ ts, t.PrintsBack) :
    (Term.call (String.ofList w) ts).PrintsBack := by
  have htext : compact ((Term.call (String.ofList w) ts).print .source).toList =
      w ++ (['('] ++
        (compact (", ".intercalate (Term.printList .source ts)).toList ++ [')'])) := by
    simp only [Term.print, String.toList_append, String.toList_ofList, compact_append,
      compact_of_isPathPart hw.parts, List.append_assoc]
    rfl
  rw [PrintsBack, htext]
  refine .operand_level (.call hw ?_)
  cases ts with
  | nil => exact .noArguments (TokenText.self ['(']) (TokenText.self [')'])
  | cons t ts => exact .arguments (TokenText.self ['(']) (items h) (TokenText.self [')'])

end Term.PrintsBack

def Grammar.Phrase.PrintsBack : Phrase → Prop
  | .operand t | .signed t | .level _ t => t.PrintsBack
  | .tail _ l t => l.PrintsBack → t.PrintsBack
  | .arguments ts | .items ts => ∀ t ∈ ts, t.PrintsBack

/-- What a phrase spells prints back. -/
theorem Grammar.TermText.printsBack {p : Phrase} {s : List Char} (h : TermText p s) :
    p.PrintsBack := by
  induction h with
  | gap _ _ ih | paren _ _ ih | unsigned _ ih | factor _ ih => exact ih
  | @number s hs =>
    change TermText _ (compact (String.ofList s).toList)
    rw [String.toList_ofList, compact_of_isPathPart hs.parts]
    exact .operand_level (.number hs)
  | @truth w b _ =>
    change TermText _ (compact (truthText b).toList)
    have htext : compact (truthText b).toList = (truthText b).toList := by cases b <;> decide
    have hword : (truthText b, b) ∈ truthWords := by cases b <;> decide
    rw [htext]
    exact .operand_level (.truth hword)
  | @var w hw =>
    change TermText _ (compact (String.ofList w).toList)
    rw [String.toList_ofList, compact_of_isPathPart hw.parts]
    exact .operand_level (.var hw)
  | call hw _ ih => exact Term.PrintsBack.call hw ih
  | noArguments _ _ => exact fun t ht ↦ by cases ht
  | arguments _ _ _ ih => exact ih
  | lastItem _ ih => exact List.forall_mem_singleton.mpr ih
  | item _ _ _ ih ih' => exact List.forall_mem_cons.mpr ⟨ih, ih'⟩
  | negative _ _ ih => exact Term.PrintsBack.neg ih
  | chain _ _ ih ih' => exact ih' ih
  | stop => exact id
  | link _ _ _ ih ih' => exact fun hl ↦ ih' (hl.arith ih)

/-! ## Printed predicates -/

/-- A predicate that some text spells is spelled by its printed text without the blanks. -/
theorem Grammar.PredicateText.printsBack {p : Predicate} {s : List Char}
    (h : PredicateText p s) : PredicateText p (compact (p.print .source).toList) := by
  cases h with
  | holds hs => exact .holds (Term.PrintsBack.sum hs.printsBack)
  | @compare l r op _ _ _ hl _ hr =>
    have hsymbol : compact (" " ++ op.symbol ++ " ").toList = op.symbol.toList := by
      cases op <;> decide
    have htext : compact ((Predicate.compare l op r).print .source).toList =
        compact (l.print .source).toList ++
          (op.symbol.toList ++ compact (r.print .source).toList) := by
      rw [← hsymbol]
      simp only [Predicate.print, String.toList_append, compact_append, List.append_assoc]
      rfl
    have hop : ComparisonText op op.symbol.toList :=
      ⟨op.symbol, by cases op <;> decide, TokenText.self _⟩
    rw [htext]
    exact .compare (Term.PrintsBack.sum hl.printsBack) hop (Term.PrintsBack.sum hr.printsBack)

namespace Grammar

/-- The printed predicate of an atom that is read spells the predicate, and no other, once the
blanks are gone. -/
theorem predicateText_compact_print {text : String} {f : Formula}
    (h : Formula.parse text = .ok f) {a : Atom} (ha : a ∈ f.atoms) (p : Predicate) :
    PredicateText p (compact (a.predicate.print .source).toList) ↔ p = a.predicate := by
  have hspelled := (wellRead_of_parse h a ha).spelled.printsBack
  refine ⟨fun hp ↦ hp.unique hspelled, ?_⟩
  rintro rfl
  exact hspelled

/-- Predicates of formulas that are read are the same if they are printed alike. -/
theorem predicate_eq_of_print_eq {text text' : String} {f f' : Formula}
    (h : Formula.parse text = .ok f) (h' : Formula.parse text' = .ok f') {a a' : Atom}
    (ha : a ∈ f.atoms) (ha' : a' ∈ f'.atoms)
    (hprint : a.predicate.print .source = a'.predicate.print .source) :
    a.predicate = a'.predicate := by
  have hspelled := (predicateText_compact_print h ha a.predicate).mpr rfl
  rw [hprint] at hspelled
  exact (predicateText_compact_print h' ha' a.predicate).mp hspelled

theorem predicate_eq_of_print_eq_grouped :
    let difference : Term := .arith .sub (.var "a") (.var "b")
    let product : Term := .arith .mul (.arith .add (.var "c") (.var "d")) (.number "2")
    let p : Predicate := .compare (.arith .sub difference product) .gt (.neg (.var "x"))
    let a : Atom := ⟨"a -b -(c +d)*2 > -x", p⟩
    let a' : Atom := ⟨"((a -b) -((c +d)*2)) > -(x)", p⟩
    Formula.parse "G(a -b -(c +d)*2 > -x)" = .ok (.unary .always (.atom a)) ∧
      Formula.parse "((a -b) -((c +d)*2)) > -(x)" = .ok (.atom a') ∧
      a.predicate.print .source = "a - b - (c + d) * 2 > -x" ∧
      a'.predicate.print .source = "a - b - (c + d) * 2 > -x" ∧ a.predicate = a'.predicate := by
  intro difference product p a a'
  have hread : Formula.parse "G(a -b -(c +d)*2 > -x)" = .ok (.unary .always (.atom a)) :=
    eq_ok_of_toOption (by decide +kernel)
  have hread' : Formula.parse "((a -b) -((c +d)*2)) > -(x)" = .ok (.atom a') :=
    eq_ok_of_toOption (by decide +kernel)
  have hprint : p.print .source = "a - b - (c + d) * 2 > -x" := by decide +kernel
  exact ⟨hread, hread', hprint, hprint,
    predicate_eq_of_print_eq hread hread' (List.mem_singleton_self a)
      (List.mem_singleton_self a') rfl⟩

end Grammar

end TemporalRequirements

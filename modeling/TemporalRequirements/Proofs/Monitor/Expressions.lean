import TemporalRequirements.Proofs.Grammar.AtomReading
import TemporalRequirements.Proofs.Interface.Name
import TemporalRequirements.Proofs.Monitor.Host

/-!
# What the expressions of a monitor name

The C expressions of a monitor are joined from those of atoms and from variables of the monitor.
They name what these name, and hold no brace and no semicolon, which only whole lines do.
-/

namespace TemporalRequirements

namespace Text

/-- Whether a text holds no brace and no semicolon. -/
def Plain (text : String) : Prop := ∀ c ∈ text.toList, c ≠ '\x7b' ∧ c ≠ ';'

instance (text : String) : Decidable (Plain text) := List.decidableBAll _ text.toList

theorem plain_append {s t : String} (hs : Plain s) (ht : Plain t) : Plain (s ++ t) := by
  intro c hc
  rw [String.toList_append] at hc
  exact (List.mem_append.mp hc).elim (hs c) (ht c)

theorem plain_of_isPathPart {text : String} (h : ∀ c ∈ text.toList, isPathPart c = true) :
    Plain text := by
  intro c hc
  constructor <;> rintro rfl <;> cases h _ hc

theorem plain_of_isNamePart {text : String} (h : ∀ c ∈ text.toList, isNamePart c = true) :
    Plain text := by
  intro c hc
  constructor <;> rintro rfl <;> cases h _ hc

theorem IsIdentifier.plain {text : String} (h : IsIdentifier text) : Plain text :=
  plain_of_isNamePart fun _ hc ↦ h.isNamePart hc

theorem plain_parenthesizedIf {text : String} (h : Plain text) (wanted : Bool) :
    Plain (parenthesizedIf wanted text) := by
  cases wanted with
  | false => exact h
  | true => exact plain_append (plain_append (by decide) h) (by decide)

theorem plain_intercalate {texts : List String} (h : ∀ text ∈ texts, Plain text)
    {separator : String} (hseparator : Plain separator) : Plain (separator.intercalate texts) := by
  intro c hc
  rw [String.toList_intercalate] at hc
  rcases exists_mem_of_mem_intercalate hc with hc | ⟨piece, hpiece, hc⟩
  · exact hseparator c hc
  · obtain ⟨text, htext, rfl⟩ := List.mem_map.mp hpiece
    exact h text htext c hc

end Text

open Text

section

variable {i : Interface} (hi : i.identifier = safeName)

/-- Whether the terms of a phrase are printed without braces and semicolons. -/
def Grammar.Phrase.IsPlain (i : Interface) : Phrase → Prop
  | .operand t | .signed t | .level _ t => Plain (t.print (.program i))
  | .tail _ l t => Plain (l.print (.program i)) → Plain (t.print (.program i))
  | .arguments ts | .items ts => ∀ text ∈ Term.printList (.program i) ts, Plain text

include hi in
/-- Terms that were read are printed without braces and semicolons. -/
theorem Grammar.TermText.isPlain {p : Phrase} {s : List Char} (h : TermText p s) :
    p.IsPlain i := by
  induction h with
  | gap _ _ ih => exact ih
  | number hs =>
    apply plain_of_isPathPart
    change ∀ c ∈ (String.ofList _).toList, _
    rw [String.toList_ofList]
    exact hs.parts
  | @truth w b hw =>
    change Plain (truthText b)
    cases b <;> decide
  | @var w hw =>
    change Plain (if i.readsAsLiteral (String.ofList w) then String.ofList w
      else i.identifier (String.ofList w))
    split
    · apply plain_of_isPathPart
      rw [String.toList_ofList]
      exact hw.parts
    · rw [hi]
      exact plain_of_isNamePart fun c hc ↦ isNamePart_of_mem_safeName hc
  | @call w s ts hw _ ih =>
    have hname : Plain (String.ofList w) := plain_of_isPathPart (by
      rw [String.toList_ofList]
      exact hw.parts)
    change Plain (_ ++ _ ++ _ ++ _)
    exact plain_append (plain_append (plain_append hname (by decide))
      (plain_intercalate ih (by decide))) (by decide)
  | paren _ _ ih => exact ih
  | noArguments _ _ => exact fun text htext ↦ by cases htext
  | arguments _ _ _ ih => exact ih
  | lastItem _ ih => exact List.forall_mem_singleton.mpr ih
  | item _ _ _ ih ihrest => exact List.forall_mem_cons.mpr ⟨ih, ihrest⟩
  | unsigned _ ih => exact ih
  | negative _ _ ih => exact plain_append (by decide) (plain_parenthesizedIf ih _)
  | factor _ ih => exact ih
  | chain _ _ ih ihtail => exact ihtail ih
  | stop => exact id
  | @link k op l r t s s' s'' _ _ _ ih ihtail =>
    refine fun hl ↦ ihtail ?_
    have hsymbol : Plain op.symbol := by cases op <;> decide
    exact plain_append (plain_append (plain_append (plain_append (plain_parenthesizedIf hl _)
      (by decide)) hsymbol) (by decide)) (plain_parenthesizedIf ih _)

include hi in
theorem Grammar.PredicateText.isPlain {p : Predicate} {s : List Char} (h : PredicateText p s) :
    Plain (p.print (.program i)) := by
  cases h with
  | holds hs => exact hs.isPlain hi
  | @compare l r op _ _ _ hl _ hr =>
    have hsymbol : Plain op.symbol := by cases op <;> decide
    exact plain_append (plain_append (plain_append (plain_append (hl.isPlain hi) (by decide))
      hsymbol) (by decide)) (hr.isPlain hi)

include hi in
/-- The expression of an atom that was read holds no brace and no semicolon. -/
theorem Atom.plain_expression {a : Atom} (h : a.WellRead) :
    Plain (a.expression i) :=
  h.spelled.isPlain hi

end

namespace Monitor

/-! ## Conditions and triggers -/

/-- Whether an expression names nothing but the step counter and the names of `V`, and is no bare
name but one of these. -/
structure IsOver (step : String) (V : String → Prop) (e : String) : Prop where
  plain : Plain e
  identifiers : ∀ x ∈ identifiersOf e, x = step ∨ V x
  name : IsIdentifier e → V e

variable {step : String} {V : String → Prop}

theorem isOver_of_identifiers {e : String} (hplain : Plain e) (h : ∀ x ∈ identifiersOf e, V x) :
    IsOver step V e where
  plain := hplain
  identifiers x hx := Or.inr (h x hx)
  name he := h e (he.identifiersOf ▸ List.mem_cons_self)

/-- Whether the expressions that a condition joins name nothing but the names of `V`. -/
def Condition.IsOver (V : String → Prop) (c : Condition) : Prop :=
  ∀ e ∈ c.leaves, Plain e ∧ ∀ x ∈ identifiersOf e, V x

theorem identifiersOf_wrapped (text : String) :
    identifiersOf ("(" ++ text ++ ")") = identifiersOf text := by
  rw [identifiersOf_append_mark (by decide), identifiersOf_mark_append (by decide)]
  exact List.append_nil _

theorem identifiersOf_parenthesizedIf (wanted : Bool) (text : String) :
    identifiersOf (parenthesizedIf wanted text) = identifiersOf text := by
  cases wanted with
  | false => rfl
  | true => exact identifiersOf_wrapped text

theorem identifiersOf_conditionOp (op : ConditionOp) :
    identifiersOf op.symbol = [] ∧ Plain op.symbol := by
  cases op <;> decide

theorem Condition.print_truth (operand b : Bool) :
    (Condition.truth b).print operand = truthText b := by
  cases b <;> rfl

/-- A condition names what its expressions name. -/
theorem Condition.identifiersOf_print (htruth : ∀ b, V (truthText b)) {c : Condition}
    (h : c.IsOver V) (operand : Bool) : ∀ x ∈ identifiersOf (c.print operand), V x := by
  induction c generalizing operand with
  | truth b =>
    have hb : identifiersOf (truthText b) = [truthText b] := by cases b <;> decide
    rw [print_truth, hb]
    exact List.forall_mem_singleton.mpr (htruth b)
  | leaf text =>
    have htext := (h text List.mem_cons_self).2
    rw [print]
    split
    · rwa [identifiersOf_wrapped]
    · exact htext
  | not c ih =>
    rw [print, identifiersOf_mark_append (by decide)]
    exact ih h true
  | binary op l r ihl ihr =>
    obtain ⟨hnone, -⟩ := identifiersOf_conditionOp op
    have hparts : ∀ x ∈ identifiersOf (l.print true ++ " " ++ op.symbol ++ " " ++ r.print true),
        V x := by
      have hblank : identifiersOf " " = [] := by decide
      rw [identifiersOf_between (by decide), identifiersOf_between (by decide), hnone, hblank,
        List.append_nil, List.append_nil, List.append_nil]
      exact List.forall_mem_append.mpr
        ⟨ihl (fun e he ↦ h e (List.mem_append_left _ he)) true,
          ihr (fun e he ↦ h e (List.mem_append_right _ he)) true⟩
    rw [print]
    split
    · rwa [identifiersOf_wrapped]
    · exact hparts

/-- A condition is printed without braces and semicolons if its expressions are. -/
theorem Condition.plain_print {c : Condition} (h : c.IsOver V) (operand : Bool) :
    Plain (c.print operand) := by
  induction c generalizing operand with
  | truth b =>
    rw [print_truth]
    cases b <;> decide
  | leaf text =>
    have htext := (h text List.mem_cons_self).1
    rw [print]
    split
    · exact plain_parenthesizedIf htext true
    · exact htext
  | not c ih => exact plain_append (by decide) (ih h true)
  | binary op l r ihl ihr =>
    obtain ⟨-, hsymbol⟩ := identifiersOf_conditionOp op
    have hl := ihl (fun e he ↦ h e (List.mem_append_left _ he)) true
    have hr := ihr (fun e he ↦ h e (List.mem_append_right _ he)) true
    exact plain_parenthesizedIf (plain_append (plain_append (plain_append
      (plain_append hl (by decide)) hsymbol) (by decide)) hr) operand

/-- The text of a condition names what its expressions name. -/
theorem Condition.isOver_text (htruth : ∀ b, V (truthText b)) {c : Condition} (h : c.IsOver V) :
    Monitor.IsOver step V c.text :=
  isOver_of_identifiers (c.plain_print h false) (c.identifiersOf_print htruth h false)

/-- A conjunction names what one of its parts names. -/
theorem mem_identifiersOf_conjunction {parts : List String} {x : String} :
    x ∈ identifiersOf (" && ".intercalate parts) ↔ ∃ part ∈ parts, x ∈ identifiersOf part := by
  induction parts with
  | nil => exact iff_of_false List.not_mem_nil fun ⟨_, hpart, _⟩ ↦ by cases hpart
  | cons part parts ih =>
    cases parts with
    | nil =>
      rw [String.intercalate_singleton]
      simp
    | cons next parts =>
      have hmark : identifiersOf " && " = [] := by decide
      rw [String.intercalate_cons_cons, identifiersOf_between (by decide), hmark, List.append_nil,
        List.mem_append, ih]
      simp

theorem mem_identifiersOf_parts {t : Trigger} {leading : List String} {x : String} :
    x ∈ identifiersOf (" && ".intercalate (t.parts leading)) ↔
      (∃ part ∈ leading, x ∈ identifiersOf part) ∨ (∃ g ∈ t.guard, x ∈ identifiersOf g.text) ∨
        ∃ c ∈ t.premise, x ∈ identifiersOf c.text := by
  rw [mem_identifiersOf_conjunction, Trigger.parts]
  cases t.guard <;> cases t.premise <;>
    simp [identifiersOf_parenthesizedIf, or_and_right, exists_or]

theorem text?_eq_some_iff {t : Trigger} {e : String} :
    t.text? = some e ↔ t.parts [] ≠ [] ∧ e = " && ".intercalate (t.parts []) := by
  rw [Trigger.text?]
  split
  · rename_i hparts
    exact iff_of_false nofun fun h ↦ h.1 hparts
  · rename_i hne
    rw [Option.some_inj, and_iff_right hne, eq_comm]

theorem identifiersOf_guard {g : Guard} (h : IsIdentifier g.step) :
    identifiersOf g.text = [g.step] := by
  have hblank : identifiersOf " " = [] := by decide
  have hsymbol : identifiersOf g.relation.symbol = [] := by cases g.relation <;> decide
  rw [Guard.text, identifiersOf_between (by decide), identifiersOf_between (by decide), hblank,
    hsymbol, identifiersOf_toString, h.identifiersOf]
  rfl

theorem plain_toString (n : Nat) : Plain (toString n) := by
  apply plain_of_isPathPart
  intro c hc
  rw [Nat.toString_eq_ofList_toDigits, String.toList_ofList] at hc
  exact Grammar.isPathPart_of_isDigit (isDigit_of_mem_toDigits n c hc)

theorem plain_guard {g : Guard} (h : IsIdentifier g.step) : Plain g.text := by
  have hsymbol : Plain g.relation.symbol := by cases g.relation <;> decide
  exact plain_append (plain_append (plain_append (plain_append h.plain (by decide)) hsymbol)
    (by decide)) (plain_toString _)

/-- The conjuncts of a trigger are its guard and its premise. -/
theorem mem_parts {t : Trigger} {part : String} (h : part ∈ t.parts []) :
    (∃ g ∈ t.guard, part = g.text) ∨
      ∃ c ∈ t.premise, ∃ wanted, part = parenthesizedIf wanted c.text := by
  have hguard {part : String} (h : part ∈ (t.guard.map Guard.text).toList) :
      ∃ g ∈ t.guard, part = g.text := by
    obtain ⟨g, hg, rfl⟩ := Option.map_eq_some_iff.mp (Option.mem_toList.mp h)
    exact ⟨g, hg, rfl⟩
  rw [Trigger.parts, List.nil_append] at h
  split at h
  · exact Or.inl (hguard h)
  · rename_i c hc
    rcases List.mem_append.mp h with h | h
    · exact Or.inl (hguard h)
    · exact Or.inr ⟨c, hc, _, List.mem_singleton.mp h⟩

/-- A trigger without a guard is its premise. -/
theorem text?_of_guard_eq_none {t : Trigger} (h : t.guard = none) :
    t.text? = t.premise.map Condition.text := by
  obtain ⟨guard, premise⟩ := t
  obtain rfl : guard = none := h
  cases premise with
  | none => rfl
  | some c => exact congrArg some String.intercalate_singleton

theorem mem_parts_guard {t : Trigger} {g : Guard} (h : t.guard = some g) : g.text ∈ t.parts [] := by
  rw [Trigger.parts, h]
  split <;> simp

/-- Whether a trigger compares the step counter and has a premise over certain names, as far as it
has these parts. -/
structure Trigger.IsOver (step : String) (V : String → Prop) (t : Trigger) : Prop where
  guard : ∀ g ∈ t.guard, g.step = step
  premise : ∀ c ∈ t.premise, c.IsOver V

/-- A trigger names the step counter and what its premise names. -/
theorem Trigger.isOver_text (hstep : IsIdentifier step) (htruth : ∀ b, V (truthText b))
    {t : Trigger} (h : t.IsOver step V) {e : String} (he : t.text? = some e) :
    Monitor.IsOver step V e := by
  obtain ⟨-, rfl⟩ := text?_eq_some_iff.mp he
  have hguard (g : Guard) (hg : g ∈ t.guard) : IsIdentifier g.step := (h.guard g hg).symm ▸ hstep
  have hpremise (c : Condition) (hc : c ∈ t.premise) : Monitor.IsOver step V c.text :=
    c.isOver_text htruth (h.premise c hc)
  refine ⟨plain_intercalate (fun part hpart ↦ ?_) (by decide), fun x hx ↦ ?_, fun hname ↦ ?_⟩
  · rcases mem_parts hpart with ⟨g, hg, rfl⟩ | ⟨c, hc, wanted, rfl⟩
    · exact plain_guard (hguard g hg)
    · exact plain_parenthesizedIf (hpremise c hc).plain wanted
  · rcases mem_identifiersOf_parts.mp hx with ⟨part, hpart, -⟩ | ⟨g, hg, hx⟩ | ⟨c, hc, hx⟩
    · cases hpart
    · rw [identifiersOf_guard (hguard g hg)] at hx
      exact Or.inl ((List.mem_singleton.mp hx).trans (h.guard g hg))
    · exact (hpremise c hc).identifiers x hx
  · -- a guard has blanks, which no name has
    cases hg : t.guard with
    | some g =>
      have hblank : ' ' ∈ (" && ".intercalate (t.parts [])).toList := by
        rw [String.toList_intercalate]
        exact mem_intercalate_of_mem (List.mem_map_of_mem (mem_parts_guard hg))
          (by simp [Guard.text])
      cases hname.isNamePart hblank
    | none =>
      rw [text?_of_guard_eq_none hg] at he
      obtain ⟨c, hc, heq⟩ := Option.map_eq_some_iff.mp he
      rw [← heq] at hname ⊢
      exact (hpremise c hc).name hname

/-! ## Lines -/

theorem identifiersOf_ifLine (condition body : String) :
    identifiersOf (ifLine condition body) =
      "if" :: (identifiersOf condition ++ identifiersOf body) := by
  have hopen : identifiersOf "if (" = ["if"] := by decide
  have hmiddle : identifiersOf ") \x7b " = [] := by decide
  have hclose : identifiersOf " \x7d" = [] := by decide
  rw [ifLine, identifiersOf_append_mark (by decide), identifiersOf_between (by decide),
    identifiersOf_mark_append (by decide), hopen, hmiddle, hclose]
  simp

theorem identifiersOf_assertText (condition : String) :
    identifiersOf (assertText condition) = "assert" :: identifiersOf condition := by
  have hopen : identifiersOf "assert(" = ["assert"] := by decide
  have hclose : identifiersOf ");" = [] := by decide
  rw [assertText, identifiersOf_append_mark (by decide), identifiersOf_mark_append (by decide),
    hopen, hclose]
  simp

theorem identifiersOf_negated (c : Condition) : identifiersOf c.negated = identifiersOf c.text := by
  have hclose : identifiersOf ")" = [] := by decide
  have hopen : identifiersOf "!(" = [] := by decide
  have hnot : identifiersOf "!" = [] := by decide
  rw [Condition.negated]
  split
  · rw [identifiersOf_mark_append (by decide), hnot, List.nil_append]
  · rw [identifiersOf_append_mark (by decide), identifiersOf_mark_append (by decide), hopen, hclose]
    simp

theorem identifiersOf_countText (n : UInt32) : identifiersOf (countText n) = [] :=
  identifiersOf_toString _

/-- What follows a variable without a name in it adds no identifier. -/
theorem identifiersOf_variable {v rest : String} (h : IsIdentifier v)
    (hrest : rest.toList.head?.all (fun c ↦ !isNamePart c) = true)
    (hnone : identifiersOf rest = []) : identifiersOf (v ++ rest) = [v] := by
  rw [identifiersOf_append_mark hrest, h.identifiersOf, hnone]
  rfl

theorem identifiersOf_comparison {v mark : String} (h : IsIdentifier v) (hmark : IsMark mark)
    (hnone : identifiersOf mark = []) (n : UInt32) :
    identifiersOf (v ++ mark ++ countText n) = [v] := by
  rw [identifiersOf_between hmark, h.identifiersOf, hnone, identifiersOf_countText]
  rfl

theorem identifiersOf_restText {v : String} (h : IsIdentifier v) :
    identifiersOf (restText v) = [v] :=
  identifiersOf_variable h (by decide) (by decide)

section

variable {v : String} (h : IsIdentifier v)

include h

theorem identifiersOf_assignment (value : String) :
    identifiersOf (v ++ " = " ++ value ++ ";") = v :: identifiersOf value := by
  have hequals : identifiersOf " = " = [] := by decide
  have hend : identifiersOf ";" = [] := by decide
  rw [identifiersOf_append_mark (by decide), identifiersOf_between (by decide), h.identifiersOf,
    hequals, hend]
  simp

theorem identifiersOf_advance : identifiersOf (Statement.advance v).text = ["if", v, v] := by
  rw [Statement.text, identifiersOf_ifLine, identifiersOf_variable h (by decide) (by decide),
    identifiersOf_variable h (by decide) (by decide)]
  rfl

theorem identifiersOf_cancel (delay : UInt32) (premise : Condition) :
    identifiersOf (Statement.cancel v delay premise).text =
      ["if", v, v] ++ identifiersOf premise.text ++ [v] := by
  have hstart : identifiersOf " >= 0 && " = [] := by decide
  have hless : identifiersOf " < " = [] := by decide
  have hand : identifiersOf " && " = [] := by decide
  rw [Statement.text, identifiersOf_ifLine, identifiersOf_between (by decide),
    identifiersOf_between (by decide), identifiersOf_between (by decide), h.identifiersOf,
    identifiersOf_countText, identifiersOf_restText h, identifiersOf_negated, hstart, hless, hand]
  simp

theorem mem_identifiersOf_start {trigger : Trigger} {x : String}
    (hx : x ∈ identifiersOf (Statement.start v trigger).text) :
    x = "if" ∨ x = v ∨ ∃ e ∈ trigger.text?, x ∈ identifiersOf e := by
  have hlater (h : (∃ g ∈ trigger.guard, x ∈ identifiersOf g.text) ∨
      ∃ c ∈ trigger.premise, x ∈ identifiersOf c.text) :
      ∃ e ∈ trigger.text?, x ∈ identifiersOf e := by
    have hmem : x ∈ identifiersOf (" && ".intercalate (trigger.parts [])) :=
      mem_identifiersOf_parts.mpr (Or.inr h)
    refine ⟨_, text?_eq_some_iff.mpr ⟨fun hnil ↦ ?_, rfl⟩, hmem⟩
    rw [hnil] at hmem
    cases hmem
  rw [Statement.text, identifiersOf_ifLine, identifiersOf_variable h (by decide) (by decide),
    List.mem_cons, List.mem_append, mem_identifiersOf_parts] at hx
  rcases hx with hx | (⟨part, hpart, hx⟩ | hx) | hx
  · exact Or.inl hx
  · rw [List.mem_singleton.mp hpart, identifiersOf_variable h (by decide) (by decide)] at hx
    exact Or.inr (Or.inl (List.mem_singleton.mp hx))
  · exact Or.inr (Or.inr (hlater hx))
  · exact Or.inr (Or.inl (List.mem_singleton.mp hx))

theorem identifiersOf_checkAt (delay : UInt32) (conclusion : Condition) :
    identifiersOf (Statement.checkAt v delay conclusion).text =
      ["if", v, "assert"] ++ identifiersOf conclusion.text ++ [v] := by
  have hblank : identifiersOf " " = [] := by decide
  rw [Statement.text, identifiersOf_ifLine, identifiersOf_comparison h (by decide) (by decide),
    identifiersOf_between (by decide), identifiersOf_assertText, identifiersOf_restText h, hblank]
  simp

theorem identifiersOf_checkThrough (delay last : UInt32) (conclusion : Condition) :
    identifiersOf (Statement.checkThrough v delay last conclusion).text =
      ["if", v, "assert"] ++ identifiersOf conclusion.text ++ ["if", v, v] := by
  have hblank : identifiersOf " " = [] := by decide
  rw [Statement.text, identifiersOf_ifLine, identifiersOf_comparison h (by decide) (by decide),
    identifiersOf_between (by decide), identifiersOf_assertText, identifiersOf_ifLine,
    identifiersOf_comparison h (by decide) (by decide), identifiersOf_restText h, hblank]
  simp

theorem identifiersOf_checkBy (delay last : UInt32) (conclusion : Condition) :
    identifiersOf (Statement.checkBy v delay last conclusion).text =
      ["if", v, "if"] ++ identifiersOf conclusion.text ++ [v, "else", "assert", v] := by
  have helse : identifiersOf " else \x7b " = ["else"] := by decide
  have hclose : identifiersOf " \x7d" = [] := by decide
  rw [Statement.text, identifiersOf_ifLine, identifiersOf_comparison h (by decide) (by decide),
    identifiersOf_append_mark (by decide), identifiersOf_between (by decide),
    identifiersOf_ifLine, identifiersOf_assertText,
    identifiersOf_comparison h (by decide) (by decide), identifiersOf_restText h, helse, hclose]
  simp

end

theorem mem_identifiersOf_check {trigger : Trigger} {conclusion : Condition} {x : String}
    (hx : x ∈ identifiersOf (Statement.check trigger conclusion).text) :
    x = "if" ∨ x = "assert" ∨ (∃ e ∈ trigger.text?, x ∈ identifiersOf e) ∨
      x ∈ identifiersOf conclusion.text := by
  rw [Statement.text] at hx
  split at hx
  · rename_i e he
    rw [identifiersOf_ifLine, identifiersOf_assertText] at hx
    simp only [List.mem_cons, List.mem_append] at hx
    rcases hx with hx | hx | hx | hx
    · exact Or.inl hx
    · exact Or.inr (Or.inr (Or.inl ⟨e, he, hx⟩))
    · exact Or.inr (Or.inl hx)
    · exact Or.inr (Or.inr (Or.inr hx))
  · rw [identifiersOf_assertText] at hx
    exact Or.inr ((List.mem_cons.mp hx).imp_right Or.inr)

def keywords : List String := ["if", "else", "assert", "true"]

def Statement.names (s : Statement) : List String :=
  s.target?.toList ++ s.expressions.flatMap identifiersOf

/-- A line names its variable and what its expressions name. -/
theorem Statement.mem_names_of_text {s : Statement} (htarget : ∀ v ∈ s.target?, IsIdentifier v)
    {x : String} (h : x ∈ identifiersOf s.text) : x ∈ keywords ∨ x ∈ s.names := by
  cases s with
  | observe flag trigger =>
    rw [Statement.text, identifiersOf_assignment (htarget flag rfl)] at h
    have htrue : identifiersOf "true" = ["true"] := by decide
    rcases List.mem_cons.mp h with rfl | h
    · exact Or.inr List.mem_cons_self
    · cases htrigger : trigger.text? with
      | none =>
        rw [htrigger, Option.getD_none, htrue, List.mem_singleton] at h
        exact Or.inl (h ▸ by decide)
      | some e =>
        rw [htrigger, Option.getD_some] at h
        exact Or.inr (List.mem_cons_of_mem _
          (List.mem_flatMap.mpr ⟨e, Option.mem_toList.mpr htrigger, h⟩))
  | latch flag current =>
    rw [Statement.text, identifiersOf_assignment (htarget flag rfl)] at h
    right
    simpa [names, expressions, target?] using h
  | advance counter =>
    rw [identifiersOf_advance (htarget counter rfl)] at h
    grind [keywords, names, target?]
  | cancel counter delay premise =>
    rw [identifiersOf_cancel (htarget counter rfl)] at h
    grind [keywords, names, target?, expressions]
  | start counter trigger =>
    rcases mem_identifiersOf_start (htarget counter rfl) h with rfl | rfl | ⟨e, he, hx⟩
    · exact Or.inl (by decide)
    · exact Or.inr List.mem_cons_self
    · exact Or.inr (List.mem_cons_of_mem _
        (List.mem_flatMap.mpr ⟨e, Option.mem_toList.mpr he, hx⟩))
  | check trigger conclusion =>
    rcases mem_identifiersOf_check h with rfl | rfl | ⟨e, he, hx⟩ | hx
    · exact Or.inl (by decide)
    · exact Or.inl (by decide)
    · exact Or.inr (List.mem_flatMap.mpr
        ⟨e, List.mem_append_left _ (Option.mem_toList.mpr he), hx⟩)
    · exact Or.inr (List.mem_flatMap.mpr ⟨_, List.mem_append_right _ List.mem_cons_self, hx⟩)
  | checkAt counter delay conclusion =>
    rw [identifiersOf_checkAt (htarget counter rfl)] at h
    grind [keywords, names, target?, expressions]
  | checkThrough counter delay last conclusion =>
    rw [identifiersOf_checkThrough (htarget counter rfl)] at h
    grind [keywords, names, target?, expressions]
  | checkBy counter delay last conclusion =>
    rw [identifiersOf_checkBy (htarget counter rfl)] at h
    grind [keywords, names, target?, expressions]

end Monitor

end TemporalRequirements

import TemporalRequirements.Chunk
import TemporalRequirements.Proofs.Grammar.Printed

/-!
# Printed texts are one line

The canonical text of a formula whose atoms were read is one line: its only blanks are spaces, and
it starts and ends in ink.  So is the text of a property.
-/

namespace TemporalRequirements

open Text (Spaced IsLine)

/-! ## Spaces -/

theorem spaced_toDigits (n : Nat) : Spaced (Nat.toDigits 10 n) := by
  intro c hc hblank
  have hfirm := Grammar.isBlank_of_isPathPart
    (Grammar.isPathPart_of_isDigit (Text.isDigit_of_mem_toDigits n c hc))
  rw [hfirm] at hblank
  cases hblank

theorem spaced_spell (op : BoundedOp) (n : UInt32) : Spaced (op.spell n).toList := by
  have hsymbol : Spaced op.symbol.toList := by cases op <;> exact Text.forall_mem_of_all rfl
  rw [BoundedOp.spell, Nat.toString_eq_ofList_toDigits, String.toList_append,
    String.toList_ofList]
  exact hsymbol.append (spaced_toDigits n.toNat)

theorem spaced_parenthesizedIf {text : String} (h : Spaced text.toList) (wanted : Bool) :
    Spaced (parenthesizedIf wanted text).toList := by
  cases wanted with
  | false => exact h
  | true => simpa [parenthesizedIf] using h.wrap

/-- A canonical text has no other blanks than spaces if the texts of its atoms have none. -/
theorem spaced_spellWith {leaf : Bool → Atom → List Char} {f : Formula}
    (h : ∀ a ∈ f.atoms, ∀ operand, Spaced (leaf operand a)) (operand : Bool) :
    Spaced (f.spellWith .canonical leaf operand) := by
  induction f generalizing operand with
  | const b =>
    have htruth : Spaced (truthText b).toList := by cases b <;> exact Text.forall_mem_of_all rfl
    exact htruth
  | atom a => exact h a List.mem_cons_self operand
  | unary op f ih =>
    cases op with
    | not => exact Spaced.append (s := ['!']) (Text.forall_mem_of_all rfl) (ih h true)
    | next | eventually | always =>
      exact Spaced.append (Text.forall_mem_of_all rfl) (ih h false).wrap
  | bounded op n f ih => exact (spaced_spell op n).append (ih h false).wrap
  | binary op l r ihl ihr =>
    have hl := ihl (fun a ha ↦ h a (List.mem_append_left _ ha)) true
    have hr := ihr (fun a ha ↦ h a (List.mem_append_right _ ha)) true
    have hoperator : Spaced (' ' :: (Dialect.canonical.binary op).toList) := by
      cases op <;> exact Text.forall_mem_of_all rfl
    have hright : Spaced (' ' :: r.spellWith .canonical leaf true) :=
      Spaced.append (s := [' ']) (Text.forall_mem_of_all rfl) hr
    have hjoined := hl.append (hoperator.append hright)
    cases operand with
    | false => exact hjoined
    | true => exact hjoined.wrap

theorem spaced_tagged {tag : Option ScopeTag} {body : String} (h : Spaced body.toList) :
    Spaced (tagged tag body).toList := by
  cases tag with
  | none => exact h
  | some tag =>
    have hkeyword : Spaced (tag.keyword ++ " ").toList := by
      cases tag <;> exact Text.forall_mem_of_all rfl
    rw [tagged, String.toList_append]
    exact hkeyword.append h

/-! ## Whole texts -/

theorem starts_parenthesizedIf {text : String}
    (h : ∃ c rest, text.toList = c :: rest ∧ Text.isBlank c = false) (wanted : Bool) :
    ∃ c rest, (parenthesizedIf wanted text).toList = c :: rest ∧ Text.isBlank c = false := by
  cases wanted with
  | false => exact h
  | true => exact ⟨'(', text.toList ++ [')'], by simp [parenthesizedIf], rfl⟩

/-- A canonical text starts in ink if the texts of its atoms do. -/
theorem starts_spellWith {leaf : Bool → Atom → List Char} {f : Formula}
    (h : ∀ a ∈ f.atoms, ∀ operand,
      ∃ c rest, leaf operand a = c :: rest ∧ Text.isBlank c = false) (operand : Bool) :
    ∃ c rest, f.spellWith .canonical leaf operand = c :: rest ∧ Text.isBlank c = false := by
  induction f generalizing operand with
  | const b => cases b <;> exact ⟨_, _, rfl, rfl⟩
  | atom a => exact h a List.mem_cons_self operand
  | unary op f ih => cases op <;> exact ⟨_, _, rfl, rfl⟩
  | bounded op n f ih =>
    have hspell : (op.spell n).toList = op.symbol.toList ++ (toString n.toNat).toList := by
      rw [BoundedOp.spell, String.toList_append]
    rw [Formula.spellWith, hspell]
    cases op <;> exact ⟨_, _, rfl, rfl⟩
  | binary op l r ihl ihr =>
    cases operand with
    | true => exact ⟨'(', _, rfl, rfl⟩
    | false =>
      obtain ⟨c, rest, htext, hc⟩ := ihl (fun a ha ↦ h a (List.mem_append_left _ ha)) true
      exact ⟨c, _, by rw [Formula.spellWith, htext]; rfl, hc⟩

/-- The canonical text of a formula is one line. -/
theorem isLine_print {f : Formula} (h : ∀ a ∈ f.atoms, a.WellRead) : IsLine f.print.toList where
  spaced := by
    rw [Formula.print, Formula.toList_printWith rfl]
    exact spaced_spellWith (fun a ha operand ↦
      spaced_parenthesizedIf (Text.spaced_of_squeeze_eq (h a ha).core.squeezed) _) false
  starts := by
    rw [Formula.print, Formula.toList_printWith rfl]
    exact starts_spellWith (fun a ha operand ↦ starts_parenthesizedIf (h a ha).core.starts _) false
  ends := (Grammar.formulaText_printWith (Dialect.isReadable_canonical _) h).endsFirm

/-- A scope keyword goes on the same line. -/
theorem isLine_tagged {tag : Option ScopeTag} {body : String} (h : IsLine body.toList) :
    IsLine (tagged tag body).toList where
  spaced := spaced_tagged h.spaced
  starts := by
    cases tag with
    | none => exact h.starts
    | some tag =>
      rw [tagged, String.toList_append, String.toList_append]
      cases tag <;> exact ⟨_, _, rfl, rfl⟩
  ends := by
    cases tag with
    | none => exact h.ends
    | some tag =>
      rw [tagged, String.toList_append]
      exact h.ends.append _

end TemporalRequirements

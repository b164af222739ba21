import TemporalRequirements.Decomposition
import TemporalRequirements.Proofs.Grammar.Printed
import TemporalRequirements.Proofs.Text.Pieces

/-!
# Propositions in place of symbols

Putting propositions back goes over a text from left to right, one name or character after the
other.  In the canonical text of a formula the only names besides the atoms are operators and truth
values, which are no symbols, so that the atoms alone are replaced.
-/

namespace TemporalRequirements

variable (m : OrderedMap String String)

def spellPiece : Text.Piece → List Char
  | .other c => [c]
  | .name letters =>
    let name := String.ofList letters
    match if isSymbol name then m.get? name else none with
    | some proposition =>
      (parenthesizedIf (!Text.isSimple proposition.toList) proposition).toList
    | none => letters

/-- The text with propositions in place of symbols. -/
def putBack (s : List Char) : List Char := (Text.namePieces s).flatMap (spellPiece m)

theorem toList_reconstruct (text : String) :
    (reconstruct m text).toList = putBack m text.toList := by
  rw [reconstruct, String.toList_ofList]
  rfl

/-! ## Parts of texts -/

@[simp] theorem putBack_nil : putBack m [] = [] := rfl

theorem putBack_cons {c : Char} (h : Text.isNameStart c = false) (s : List Char) :
    putBack m (c :: s) = c :: putBack m s := by
  rw [putBack, Text.namePieces_cons h]
  rfl

/-- Parts of a text are replaced apart where no name goes on from one into the other. -/
theorem putBack_append {c : Char} (h : Text.isNamePart c = false) (s t : List Char) :
    putBack m (s ++ c :: t) = putBack m s ++ c :: putBack m t := by
  rw [putBack, Text.namePieces_append h, List.flatMap_append, ← putBack, ← putBack,
    putBack_cons m (Text.isNameStart_eq_false h)]

theorem putBack_plain {s : List Char} (h : ∀ c ∈ s, Text.isNameStart c = false) :
    putBack m s = s := by
  induction s with
  | nil => rfl
  | cons c s ih =>
    rw [putBack_cons m (h c List.mem_cons_self), ih fun d hd ↦ h d (List.mem_cons_of_mem c hd)]

theorem putBack_name {c : Char} {s : List Char} (hc : Text.isNameStart c = true)
    (hs : ∀ d ∈ s, Text.isNamePart d = true) :
    putBack m (c :: s) = spellPiece m (.name (c :: s)) := by
  rw [putBack, Text.namePieces_name hc hs, List.flatMap_singleton]

/-- A name that is no symbol stays. -/
theorem putBack_word {c : Char} {s : List Char} (hc : Text.isNameStart c = true)
    (hs : s.all Text.isNamePart = true) (h : isSymbol (String.ofList (c :: s)) = false) :
    putBack m (c :: s) = c :: s := by
  rw [putBack_name m hc (List.all_eq_true.mp hs)]
  simp only [spellPiece, h]
  rfl

/-! ## Canonical texts -/

theorem putBack_truthText (b : Bool) : putBack m (truthText b).toList = (truthText b).toList := by
  cases b with
  | true => exact putBack_word m rfl rfl (by decide)
  | false => exact putBack_word m rfl rfl (by decide)

theorem putBack_letters (op : UnaryOp) :
    putBack m (Dialect.letters op).toList = (Dialect.letters op).toList := by
  cases op with
  | not => rfl
  | next | eventually | always => exact putBack_word m rfl rfl (by decide)

theorem putBack_operator (op : BinaryOp) :
    putBack m (Dialect.canonical.binary op).toList = (Dialect.canonical.binary op).toList := by
  cases op with
  | and | or | xor | implies | iff => rfl
  | strongUntil | release | weakUntil => exact putBack_word m rfl rfl (by decide)

/-- The spelling of a bounded operator holds no symbol. -/
theorem putBack_bound (op : BoundedOp) (n : UInt32) :
    putBack m (op.spell n).toList = (op.spell n).toList := by
  have hplain : ∀ c ∈ Nat.toDigits 10 n.toNat, Text.isNameStart c = false := fun c hc ↦
    Grammar.isNameStart_of_isDigit (Text.isDigit_of_mem_toDigits n.toNat c hc)
  rw [BoundedOp.spell, Nat.toString_eq_ofList_toDigits, String.toList_append,
    String.toList_ofList]
  cases op with
  | exactly =>
    change putBack m (['F'] ++ '=' :: Nat.toDigits 10 n.toNat) = _
    rw [putBack_append m rfl, putBack_word m rfl rfl (by decide), putBack_plain m hplain]
    rfl
  | eventuallyWithin =>
    change putBack m (['F'] ++ '<' :: '=' :: Nat.toDigits 10 n.toNat) = _
    rw [putBack_append m rfl, putBack_word m rfl rfl (by decide), putBack_cons m rfl,
      putBack_plain m hplain]
    rfl
  | alwaysWithin =>
    change putBack m (['G'] ++ '<' :: '=' :: Nat.toDigits 10 n.toNat) = _
    rw [putBack_append m rfl, putBack_word m rfl rfl (by decide), putBack_cons m rfl,
      putBack_plain m hplain]
    rfl

/-- Putting back changes the atoms of a canonical text only. -/
theorem putBack_spellWith {leaf leaf' : Bool → Atom → List Char} {f : Formula}
    (h : ∀ a ∈ f.atoms, ∀ operand, putBack m (leaf operand a) = leaf' operand a)
    (operand : Bool) :
    putBack m (f.spellWith .canonical leaf operand) = f.spellWith .canonical leaf' operand := by
  induction f generalizing operand with
  | const b => exact putBack_truthText m b
  | atom a => exact h a List.mem_cons_self operand
  | unary op f ih =>
    have hgroup : putBack m (f.spellWith .canonical leaf false ++ [')']) =
        f.spellWith .canonical leaf' false ++ [')'] := by
      rw [putBack_append m rfl, ih h, putBack_nil]
    cases op with
    | not => rw [Formula.spellWith, putBack_cons m rfl, ih h, Formula.spellWith]
    | next | eventually | always =>
      rw [Formula.spellWith, putBack_append m rfl, putBack_letters, hgroup, Formula.spellWith]
      all_goals exact fun heq ↦ by cases heq
  | bounded op n f ih =>
    rw [Formula.spellWith, putBack_append m rfl, putBack_bound, putBack_append m rfl, ih h,
      putBack_nil, Formula.spellWith]
  | binary op l r ihl ihr =>
    have hjoined : putBack m (l.spellWith .canonical leaf true ++
        (' ' :: (Dialect.canonical.binary op).toList ++ ' ' :: r.spellWith .canonical leaf true)) =
        l.spellWith .canonical leaf' true ++
          (' ' :: (Dialect.canonical.binary op).toList ++
            ' ' :: r.spellWith .canonical leaf' true) := by
      rw [List.cons_append, putBack_append m rfl, putBack_append m rfl, putBack_operator,
        ihl fun a ha ↦ h a (List.mem_append_left _ ha),
        ihr fun a ha ↦ h a (List.mem_append_right _ ha), List.cons_append]
    cases operand with
    | false => exact hjoined
    | true =>
      change putBack m ('(' :: (_ ++ [')'])) = _
      rw [putBack_cons m rfl, putBack_append m rfl, hjoined]
      rfl

end TemporalRequirements

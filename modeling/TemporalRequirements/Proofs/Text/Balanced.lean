import TemporalRequirements.Proofs.Text.Blank
import TemporalRequirements.Text.Parentheses

/-!
# Well-nested texts

In a well-nested text every closing parenthesis matches an opening one.  Looking for the parenthesis
that closes a group passes over such a text, so that the inside of a group is found as it stands,
and unwrapping goes on with it.
-/

namespace TemporalRequirements.Text

inductive Balanced : List Char → Prop where
  | nil : Balanced []
  | plain {c : Char} {s : List Char} (hopen : c ≠ '(') (hclose : c ≠ ')') (hs : Balanced s) :
      Balanced (c :: s)
  | group {s t : List Char} (hs : Balanced s) (ht : Balanced t) :
      Balanced ('(' :: (s ++ ')' :: t))

namespace Balanced

theorem append {s t : List Char} (hs : Balanced s) (ht : Balanced t) : Balanced (s ++ t) := by
  induction hs with
  | nil => exact ht
  | plain hopen hclose _ ih => exact plain hopen hclose ih
  | @group u v hu _ _ ih =>
    rw [List.cons_append, List.append_assoc, List.cons_append]
    exact group hu ih

theorem of_forall {s : List Char} (h : ∀ c ∈ s, c ≠ '(' ∧ c ≠ ')') : Balanced s := by
  induction s with
  | nil => exact nil
  | cons c s ih =>
    obtain ⟨hopen, hclose⟩ := h c List.mem_cons_self
    exact plain hopen hclose (ih fun d hd ↦ h d (List.mem_cons_of_mem c hd))

/-- A well-nested text in parentheses is well nested. -/
theorem wrap {s : List Char} (h : Balanced s) : Balanced ('(' :: (s ++ [')'])) := group h nil

/-- A balanced text has as many openers as closers. -/
theorem count_open_eq_count_close {s : List Char} (h : Balanced s) :
    s.count '(' = s.count ')' := by
  induction h with
  | nil => rfl
  | plain hopen hclose _ ih =>
    rw [List.count_cons_of_ne hopen, List.count_cons_of_ne hclose, ih]
  | group _ _ ihs iht =>
    have hne : ('(' : Char) ≠ ')' := by decide
    rw [List.count_cons_self, List.count_append, List.count_cons_of_ne hne.symm,
      List.count_cons_of_ne hne, List.count_append, List.count_cons_self, ihs, iht]
    omega

/-! ## Closing groups -/

theorem splitClose_plain {c : Char} (hopen : c ≠ '(') (hclose : c ≠ ')') (depth : Nat)
    (s : List Char) : splitClose depth (c :: s) = (splitClose depth s).map (consFirst c) := by
  simp [splitClose, hopen, hclose]

theorem splitClose_opener (depth : Nat) (s : List Char) :
    splitClose depth ('(' :: s) = (splitClose (depth + 1) s).map (consFirst '(') := by
  simp [splitClose]

theorem splitClose_closer (depth : Nat) (s : List Char) :
    splitClose (depth + 2) (')' :: s) = (splitClose (depth + 1) s).map (consFirst ')') := by
  simp [splitClose]

/-- Looking for the end of a group passes over a well-nested text. -/
theorem splitClose_append {s : List Char} (h : Balanced s) (depth : Nat) (rest : List Char) :
    splitClose (depth + 1) (s ++ rest) =
      (splitClose (depth + 1) rest).map fun parts ↦ (s ++ parts.1, parts.2) := by
  induction h generalizing depth rest with
  | nil => simp
  | @plain c s hopen hclose _ ih =>
    rw [List.cons_append, splitClose_plain hopen hclose, ih, Option.map_map]
    rfl
  | @group s t _ _ ihs iht =>
    rw [List.cons_append, List.append_assoc, splitClose_opener, ihs, List.cons_append,
      splitClose_closer, iht, Option.map_map, Option.map_map, Option.map_map]
    apply congrFun
    apply congrArg
    funext parts
    simp [consFirst]

/-- The group that a well-nested text fills ends after it. -/
theorem splitClose_close {s : List Char} (h : Balanced s) (rest : List Char) :
    splitClose 1 (s ++ ')' :: rest) = some (s, rest) := by
  have hclose : splitClose 1 (')' :: rest) = some ([], rest) := rfl
  rw [h.splitClose_append 0, hclose, Option.map_some, List.append_nil]

/-- A text has one way to end its first group. -/
theorem eq_of_close {s s' rest rest' : List Char} (h : Balanced s) (h' : Balanced s')
    (heq : s ++ ')' :: rest = s' ++ ')' :: rest') : s = s' ∧ rest = rest' := by
  have hclose := h.splitClose_close rest
  rw [heq, h'.splitClose_close] at hclose
  obtain ⟨hs, hrest⟩ := Prod.mk.inj (Option.some.inj hclose)
  exact ⟨hs.symm, hrest.symm⟩

theorem inside?_wrap {s : List Char} (h : Balanced s) : inside? ('(' :: (s ++ [')'])) = some s := by
  rw [inside?, h.splitClose_close]

theorem inside?_eq_none {s rest : List Char} (h : Balanced s) (hrest : rest ≠ []) :
    inside? ('(' :: (s ++ ')' :: rest)) = none := by
  rw [inside?, h.splitClose_close]
  cases rest with
  | nil => exact absurd rfl hrest
  | cons c rest => rfl

end Balanced

/-! ## Unwrapping -/

theorem length_of_inside? {s inner : List Char} (h : inside? s = some inner) :
    s.length = inner.length + 2 := by
  rw [inside?_eq_some h]
  simp

/-- Unwrapping needs no more rounds than the text has characters. -/
theorem unwrapUpTo_eq {layers layers' : Nat} {s : List Char} (h : s.length ≤ layers)
    (h' : s.length ≤ layers') : unwrapUpTo layers s = unwrapUpTo layers' s := by
  have hempty (n : Nat) : unwrapUpTo n [] = [] := by cases n <;> rfl
  induction layers generalizing layers' s with
  | zero =>
    obtain rfl := List.length_eq_zero_iff.mp (Nat.le_zero.mp h)
    rw [hempty, hempty]
  | succ layers ih =>
    cases layers' with
    | zero =>
      obtain rfl := List.length_eq_zero_iff.mp (Nat.le_zero.mp h')
      rw [hempty, hempty]
    | succ layers' =>
      rw [unwrapUpTo, unwrapUpTo]
      cases hinside : inside? (trim s) with
      | none => rfl
      | some inner =>
        have hlength := length_of_inside? hinside
        have htrim := trim_length_le s
        exact ih (by omega) (by omega)

/-- A text that starts and ends in ink and that no group wraps is its own core. -/
theorem unwrap_eq_trim {s : List Char} (h : inside? (trim s) = none) : unwrap s = trim s := by
  unfold unwrap
  cases s.length with
  | zero => rfl
  | succ n => rw [unwrapUpTo, h]

/-- Unwrapping a group goes on with its inside. -/
theorem unwrap_eq_unwrap_inside {s inner : List Char} (h : inside? (trim s) = some inner) :
    unwrap s = unwrap inner := by
  have hlength := length_of_inside? h
  have htrim := trim_length_le s
  obtain ⟨n, hn⟩ : ∃ n, s.length = n + 1 := ⟨s.length - 1, by omega⟩
  calc
    unwrap s = unwrapUpTo (n + 1) s := by rw [unwrap, hn]
    _ = unwrapUpTo n inner := by rw [unwrapUpTo, h]
    _ = unwrap inner := unwrapUpTo_eq (by omega) (Nat.le_refl _)

theorem unwrap_congr {s t : List Char} (h : trim s = trim t) : unwrap s = unwrap t := by
  cases hinside : inside? (trim t) with
  | none =>
    rw [unwrap_eq_trim (h ▸ hinside), unwrap_eq_trim hinside, h]
  | some inner =>
    rw [unwrap_eq_unwrap_inside (h ▸ hinside), unwrap_eq_unwrap_inside hinside]

end TemporalRequirements.Text

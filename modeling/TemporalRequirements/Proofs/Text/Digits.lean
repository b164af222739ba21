import TemporalRequirements.Text.Ascii

/-!
# Decimal digits

The digits that a number is written with have the value of the number, whatever zeros stand in
front of them.
-/

namespace TemporalRequirements.Text

theorem isDigit_of_mem_toDigits (n : Nat) : ∀ c ∈ Nat.toDigits 10 n, c.isDigit = true :=
  fun _ hc ↦ Nat.isDigit_of_mem_toDigits (by decide) (by decide) hc

theorem decimalValue_toDigits (n : Nat) : decimalValue (Nat.toDigits 10 n) = n := by
  have hvalue := Nat.ofDigitChars_toDigits (b := 10) (n := n) (by decide) (by decide)
  simpa [Nat.ofDigitChars, decimalValue, Nat.mul_comm] using hvalue

theorem decimalValue_zeros_append (k : Nat) (s : List Char) :
    decimalValue (List.replicate k '0' ++ s) = decimalValue s := by
  induction k with
  | zero => rfl
  | succ k ih => exact ih

theorem takeWhile_isDigit_toDigits_append {c : Char} (h : c.isDigit = false) (n : Nat)
    (rest : List Char) :
    (Nat.toDigits 10 n ++ c :: rest).takeWhile Char.isDigit = Nat.toDigits 10 n := by
  rw [List.takeWhile_append_of_pos (isDigit_of_mem_toDigits n),
    List.takeWhile_cons_of_neg (by simp [h]), List.append_nil]

theorem takeWhile_isDigit_toDigits (n : Nat) (rest : List Char) :
    (Nat.toDigits 10 n ++ ' ' :: rest).takeWhile Char.isDigit = Nat.toDigits 10 n :=
  takeWhile_isDigit_toDigits_append rfl n rest

end TemporalRequirements.Text

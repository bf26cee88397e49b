import Mathlib

/-!
# Decimal numerals

The digits of a number in base ten, and what a string of digits is beyond them: zeros in front.
-/

namespace Decimal

/-- The number that digits stand for. -/
def value (digits : List Char) : ℕ := Nat.ofDigitChars 10 digits 0

theorem exists_digitChar {c : Char} (h : c.isDigit = true) : ∃ d < 10, c = Nat.digitChar d := by
  have hall : ∀ d < 10, Char.ofNat (48 + d) = Nat.digitChar d := by decide
  simp only [Char.isDigit, Bool.and_eq_true, decide_eq_true_eq, UInt32.le_iff_toNat_le] at h
  have h48 : '0'.val.toNat = 48 := rfl
  have h57 : '9'.val.toNat = 57 := rfl
  have hc : c.val.toNat = c.toNat := rfl
  refine ⟨c.toNat - 48, by omega, ?_⟩
  rw [← hall _ (by omega), Nat.add_sub_cancel' (by omega), Char.ofNat_toNat]

theorem value_append_digitChar (digits : List Char) {d : ℕ} (hd : d < 10) :
    value (digits ++ [Nat.digitChar d]) = 10 * value digits + d := by
  rw [value, Nat.ofDigitChars_append, Nat.ofDigitChars_cons_digitChar_of_lt_ten hd, Nat.ofDigitChars_nil]
  rfl

theorem value_toDigits (n : ℕ) : value (Nat.toDigits 10 n) = n := Nat.ofDigitChars_ten_toDigits

theorem value_zeros_append (z : ℕ) (digits : List Char) :
    value (List.replicate z '0' ++ digits) = value digits := by
  rw [value, Nat.ofDigitChars_append, Nat.ofDigitChars_replicate_zero, Nat.mul_zero]
  rfl

/-- Digits are zeros, followed by the digits of their number unless it is zero. -/
theorem eq_zeros_append {digits : List Char} (h : ∀ c ∈ digits, c.isDigit = true) :
    ∃ z, digits = List.replicate z '0' ++
      if value digits = 0 then [] else Nat.toDigits 10 (value digits) := by
  induction digits using List.reverseRecOn with
  | nil => exact ⟨0, rfl⟩
  | append_singleton digits c ih =>
    obtain ⟨z, hz⟩ := ih fun c hc => h c (List.mem_append_left _ hc)
    obtain ⟨d, hd, rfl⟩ := exists_digitChar (h c (by simp))
    rw [value_append_digitChar digits hd]
    by_cases hzero : value digits = 0
    · rw [if_pos hzero, List.append_nil] at hz
      by_cases hd0 : d = 0
      · subst hd0
        refine ⟨z + 1, ?_⟩
        rw [hzero, if_pos rfl, List.append_nil, hz, List.replicate_succ']
        rfl
      · refine ⟨z, ?_⟩
        rw [hzero, if_neg (by omega), hz, Nat.mul_zero, Nat.zero_add, Nat.toDigits_of_lt_base hd]
    · refine ⟨z, ?_⟩
      rw [if_neg hzero] at hz
      rw [if_neg (by omega), ← Nat.toDigits_append_toDigits (by omega) (by omega) hd,
        Nat.toDigits_of_lt_base hd, ← List.append_assoc, ← hz]

end Decimal

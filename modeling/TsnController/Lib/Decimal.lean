import Mathlib.Data.List.Basic

/-!
# Decimal numerals

The canonical form of a natural number, digits without superfluous zeros, and its value.
-/

set_option autoImplicit false

namespace TsnController
namespace Lib

/-- The value of a canonical decimal numeral. -/
def decimal (w : List Char) : Option Nat :=
  if w ≠ [] ∧ w.all Char.isDigit = true ∧ (w.head? = some '0' → w.length = 1) then
    some (Nat.ofDigitChars 10 w 0)
  else none

/-- What a number is written as is canonical. -/
theorem eq_zero_of_head?_toDigits (n : Nat) : (Nat.toDigits 10 n).head? = some '0' → n = 0 := by
  induction n using Nat.strongRecOn with
  | ind n ih =>
    rw [Nat.toDigits_eq_if (by decide)]
    by_cases hn : n < 10
    · rw [if_pos hn]
      intro h
      have hdigit : Nat.digitChar n = '0' := Option.some.inj h
      have hcode := Nat.toNat_digitChar_of_lt_ten hn
      rw [hdigit] at hcode
      exact (Nat.add_left_cancel hcode).symm
    · rw [if_neg hn, List.head?_append_of_ne_nil _ Nat.toDigits_ne_nil]
      intro h
      have := ih (n / 10) (by omega) h
      omega

theorem decimal_toDigits (n : Nat) : decimal (Nat.toDigits 10 n) = some n := by
  have hdigits : (Nat.toDigits 10 n).all Char.isDigit = true :=
    List.all_eq_true.mpr fun c hc => Nat.isDigit_of_mem_toDigits (by decide) (by decide) hc
  have hzero : (Nat.toDigits 10 n).head? = some '0' → (Nat.toDigits 10 n).length = 1 := by
    intro h
    rw [eq_zero_of_head?_toDigits n h]
    rfl
  unfold decimal
  rw [if_pos ⟨Nat.toDigits_ne_nil, hdigits, hzero⟩, Nat.ofDigitChars_ten_toDigits]

/-- A sign is not a digit. -/
theorem decimal_minus (w : List Char) : decimal ('-' :: w) = none :=
  if_neg fun h => absurd (List.all_eq_true.mp h.2.1 '-' List.mem_cons_self) (by decide)

end Lib
end TsnController

import Mathlib.Data.Nat.Digits.Lemmas
import TsnController.Client.Config

/-!
# `utils.c`: gates in the arithmetic of `int`

`binaryToDecimal` takes the decimal digits of an `int` from the right and adds them up with the
weights of base two. Here its loop is run in the arithmetic it has in the source
(`binaryToDecimalChecked`): every result of an operation has to be an `int`, and the loop has to
end. An `int` has at most ten digits, so it does, after ten iterations, with a weight of `2 ^ 10`
and a sum below `9 * 2 ^ 10`. Truncating division takes the digits of a negative number with its
sign.

The digits of a configured gate pattern are zeros and ones. Up to ten of them are an `int`, and what
is written for them is their value in base two, from which a pattern of a known width can be read
back.
-/

set_option autoImplicit false

namespace TsnController
namespace Client

open CLib

/-- The range of `int`. -/
def InInt (n : Int) : Prop := -0x80000000 ≤ n ∧ n ≤ 0x7fffffff

instance : DecidablePred InInt := fun _ => inferInstanceAs (Decidable (_ ∧ _))

/-- The result of an operation. -/
def checked (n : Int) : Option Int := if InInt n then some n else none

/-- The `while` of `binaryToDecimal`, for at most `fuel` iterations. -/
def binaryToDecimalChecked (fuel : Nat) (temp decValue base : Int) : Option Int :=
  if temp = 0 then some decValue
  else match fuel with
    | 0 => none
    | fuel + 1 => do
      let lastDigit ← checked (Int.tmod temp 10)
      let temp ← checked (Int.tdiv temp 10)
      let product ← checked (lastDigit * base)
      let decValue ← checked (decValue + product)
      let base ← checked (base * 2)
      binaryToDecimalChecked fuel temp decValue base

/-! ## The loop -/

theorem checked_of_natAbs_le {n : Int} (h : n.natAbs ≤ 0x7fffffff) : checked n = some n := by
  apply if_pos
  unfold InInt
  omega

theorem binaryToDecimalChecked_zero (fuel : Nat) (decValue base : Int) :
    binaryToDecimalChecked fuel 0 decValue base = some decValue := by
  rw [binaryToDecimalChecked.eq_def]
  exact if_pos rfl

/-- One iteration in which nothing overflows. -/
theorem binaryToDecimalChecked_succ {fuel : Nat} {temp decValue base : Int} (hne : temp ≠ 0)
    (hdigit : (Int.tmod temp 10).natAbs ≤ 0x7fffffff)
    (htemp : (Int.tdiv temp 10).natAbs ≤ 0x7fffffff)
    (hproduct : (Int.tmod temp 10 * base).natAbs ≤ 0x7fffffff)
    (hsum : (decValue + Int.tmod temp 10 * base).natAbs ≤ 0x7fffffff)
    (hbase : (base * 2).natAbs ≤ 0x7fffffff) :
    binaryToDecimalChecked (fuel + 1) temp decValue base =
      binaryToDecimalChecked fuel (Int.tdiv temp 10) (decValue + Int.tmod temp 10 * base)
        (base * 2) := by
  rw [binaryToDecimalChecked.eq_def, if_neg hne]
  simp only [checked_of_natAbs_le hdigit, checked_of_natAbs_le htemp, checked_of_natAbs_le hproduct,
    checked_of_natAbs_le hsum, checked_of_natAbs_le hbase, Option.bind_eq_bind, Option.bind_some]

/-- Truncating division works on the digits and leaves the sign alone. -/
theorem tmod_sign_mul {sign : Int} (hsign : sign.natAbs = 1) (m : Nat) :
    Int.tmod (sign * m) 10 = sign * (m % 10 : Nat) := by
  rcases Int.natAbs_eq sign with h | h
  · rw [h, hsign, Nat.cast_one, Int.one_mul, Int.one_mul]
    rfl
  · rw [h, hsign, Nat.cast_one, Int.neg_one_mul, Int.neg_one_mul, Int.neg_tmod]
    rfl

theorem tdiv_sign_mul {sign : Int} (hsign : sign.natAbs = 1) (m : Nat) :
    Int.tdiv (sign * m) 10 = sign * (m / 10 : Nat) := by
  rcases Int.natAbs_eq sign with h | h
  · rw [h, hsign, Nat.cast_one, Int.one_mul, Int.one_mul]
    rfl
  · rw [h, hsign, Nat.cast_one, Int.neg_one_mul, Int.neg_one_mul, Int.neg_tdiv]
    rfl

/-- **The loop from its `k`-th iteration on**, on a number of either sign. -/
theorem binaryToDecimalChecked_digits {sign : Int} (hsign : sign.natAbs = 1) :
    ∀ (fuel m v k : Nat), (Nat.digits 10 m).length ≤ fuel → k + (Nat.digits 10 m).length ≤ 10 →
      m ≤ 0x80000000 → v ≤ 9 * (2 ^ k - 1) →
      binaryToDecimalChecked fuel (sign * m) (sign * v) (2 ^ k : Nat) =
        some (sign * (v + 2 ^ k * Nat.ofDigits 2 (Nat.digits 10 m) : Nat)) := by
  intro fuel
  induction fuel with
  | zero =>
    intro m v k hfuel _ _ _
    have hnil : Nat.digits 10 m = [] := List.length_eq_zero_iff.mp (Nat.le_zero.mp hfuel)
    obtain rfl : m = 0 := Nat.digits_eq_nil_iff_eq_zero.mp hnil
    rw [Nat.cast_zero, Int.mul_zero, binaryToDecimalChecked_zero]
    simp
  | succ fuel ih =>
    intro m v k hfuel hk hm hv
    rcases Nat.eq_zero_or_pos m with rfl | hpos
    · rw [Nat.cast_zero, Int.mul_zero, binaryToDecimalChecked_zero]
      simp
    · have hdigits : Nat.digits 10 m = m % 10 :: Nat.digits 10 (m / 10) :=
        Nat.digits_def' (by omega) hpos
      rw [hdigits, List.length_cons] at hfuel hk
      have hpow : 2 ^ k ≤ 2 ^ 9 := Nat.pow_le_pow_right (by omega) (by omega)
      have hone : 1 ≤ 2 ^ k := Nat.one_le_two_pow
      have hsucc : 2 ^ (k + 1) = 2 ^ k * 2 := Nat.pow_succ 2 k
      have hterm : m % 10 * 2 ^ k ≤ 9 * 2 ^ k := Nat.mul_le_mul_right _ (by omega)
      -- digit and rest have the sign of the number
      have hmod : Int.tmod (sign * m) 10 = sign * (m % 10 : Nat) := tmod_sign_mul hsign m
      have hdiv : Int.tdiv (sign * m) 10 = sign * (m / 10 : Nat) := tdiv_sign_mul hsign m
      have hproduct : sign * (m % 10 : Nat) * (2 ^ k : Nat) = sign * (m % 10 * 2 ^ k : Nat) := by
        push_cast
        ring
      have hsum : sign * (v : Int) + sign * (m % 10 * 2 ^ k : Nat) =
          sign * (v + m % 10 * 2 ^ k : Nat) := by
        push_cast
        ring
      have hbase : ((2 ^ k : Nat) : Int) * 2 = (2 ^ (k + 1) : Nat) := by
        push_cast
        ring
      have habs : ∀ x : Nat, (sign * (x : Int)).natAbs = x := by
        intro x
        rw [Int.natAbs_mul, hsign, Nat.one_mul, Int.natAbs_natCast]
      have hne : sign * (m : Int) ≠ 0 := by
        intro h
        have hzero := habs m
        rw [h] at hzero
        omega
      rw [binaryToDecimalChecked_succ hne]
      · rw [hmod, hdiv, hproduct, hsum, hbase,
          ih (m / 10) (v + m % 10 * 2 ^ k) (k + 1) (by omega) (by omega) (by omega) (by omega),
          hdigits, Nat.ofDigits_cons, hsucc]
        congr 2
        push_cast
        ring
      · rw [hmod, habs]
        omega
      · rw [hdiv, habs]
        omega
      · rw [hmod, hproduct, habs]
        omega
      · rw [hmod, hproduct, hsum, habs]
        omega
      · rw [hbase, Int.natAbs_natCast]
        omega

theorem length_digits_le {n : Int} (h : InInt n) : (Nat.digits 10 n.natAbs).length ≤ 10 := by
  unfold InInt at h
  exact (Nat.digits_length_le_iff (by omega) _).mpr (by omega)

/-- The whole loop: it ends, and nothing overflows on the way. -/
theorem binaryToDecimalChecked_eq {n : Int} (h : InInt n) {fuel : Nat}
    (hfuel : (Nat.digits 10 n.natAbs).length ≤ fuel) :
    binaryToDecimalChecked fuel n 0 1 =
      some (n.sign * (Nat.ofDigits 2 (Nat.digits 10 n.natAbs) : Nat)) := by
  by_cases hn : n = 0
  · rw [hn, binaryToDecimalChecked_zero]
    rfl
  · have hlength := length_digits_le h
    unfold InInt at h
    have hloop := binaryToDecimalChecked_digits (Int.natAbs_sign_of_ne_zero hn) fuel n.natAbs 0 0
      hfuel (by omega) (by omega) (by omega)
    rw [Int.sign_mul_natAbs, Nat.cast_zero, Int.mul_zero, Nat.pow_zero, Nat.zero_add,
      Nat.one_mul, Nat.cast_one] at hloop
    exact hloop

theorem eq_of_checked {n m : Int} (h : checked n = some m) : m = n :=
  (Option.some.inj (Option.ite_none_right_eq_some.mp h).2).symm

/-- A run without overflow is the run of the unbounded loop. -/
theorem binaryToDecimalLoop_of_checked {r : Int} : ∀ {fuel fuel' : Nat} {temp decValue base : Int},
    binaryToDecimalChecked fuel temp decValue base = some r → fuel ≤ fuel' →
      binaryToDecimalLoop fuel' temp decValue base = r := by
  intro fuel
  induction fuel with
  | zero =>
    intro fuel' temp decValue base h _
    rw [binaryToDecimalChecked.eq_def] at h
    obtain ⟨htemp, hr⟩ : temp = 0 ∧ decValue = r := by simpa using h
    cases fuel' with
    | zero => exact hr
    | succ fuel' => rw [binaryToDecimalLoop, if_pos htemp, hr]
  | succ fuel ih =>
    intro fuel' temp decValue base h hle
    obtain ⟨fuel', rfl⟩ : ∃ m, fuel' = m + 1 := ⟨fuel' - 1, by omega⟩
    rw [binaryToDecimalChecked.eq_def] at h
    rw [binaryToDecimalLoop]
    by_cases htemp : temp = 0
    · rw [if_pos htemp] at h ⊢
      exact Option.some.inj h
    · rw [if_neg htemp] at h ⊢
      simp only [Option.bind_eq_bind, Option.bind_eq_some_iff] at h
      obtain ⟨digit, hdigit, rest, hrest, product, hproduct, sum, hsum, weight, hweight, hloop⟩ := h
      obtain rfl := eq_of_checked hdigit
      obtain rfl := eq_of_checked hrest
      obtain rfl := eq_of_checked hproduct
      obtain rfl := eq_of_checked hsum
      obtain rfl := eq_of_checked hweight
      exact ih hloop (Nat.le_of_succ_le_succ hle)

theorem binaryToDecimal_digits {n : Int} (h : InInt n) :
    binaryToDecimal n = n.sign * (Nat.ofDigits 2 (Nat.digits 10 n.natAbs) : Nat) := by
  have hfuel : (Nat.digits 10 n.natAbs).length ≤ n.natAbs :=
    (Nat.digits_length_le_iff (by omega) _).mpr (Nat.lt_pow_self (by omega))
  exact binaryToDecimalLoop_of_checked (binaryToDecimalChecked_eq h (Nat.le_refl _)) hfuel

/-! ## Patterns -/

/-- What is written for a pattern is its value in base two. -/
theorem binaryToDecimal_strtoul {w : Text} (h : BinaryDigits w)
    (hlength : (w.dropWhile (· = '0')).length ≤ 10) :
    binaryToDecimal (toInt (strtoul w)) = (Nat.ofDigitChars 2 w 0 : Nat) := by
  have hlt := ofDigitChars_gates_lt h hlength
  have hle : Nat.ofDigitChars 10 w 0 ≤ ulongMax := by
    unfold ulongMax
    omega
  rw [strtoul_of_digits h.digits hle, toInt_of_lt hlt, binaryToDecimal_eq h.digits]

/-- Patterns of one width are told apart, together with what was read in front of them. -/
theorem ofDigitChars_two_inj {w : Text} (hw : BinaryDigits w) : ∀ {w' : Text} {a a' : Nat},
    BinaryDigits w' → w.length = w'.length →
    Nat.ofDigitChars 2 w a = Nat.ofDigitChars 2 w' a' → w = w' ∧ a = a' := by
  induction w with
  | nil =>
    intro w' a a' _ hlength heq
    obtain rfl : w' = [] := List.length_eq_zero_iff.mp hlength.symm
    exact ⟨rfl, heq⟩
  | cons c w ih =>
    intro w' a a' hw' hlength heq
    cases w' with
    | nil => exact absurd hlength (by simp)
    | cons c' w' =>
      rw [Nat.ofDigitChars_cons, Nat.ofDigitChars_cons] at heq
      obtain ⟨rfl, hacc⟩ := ih (fun d hd => hw d (List.mem_cons_of_mem c hd))
        (fun d hd => hw' d (List.mem_cons_of_mem c' hd)) (Nat.succ.inj hlength) heq
      have h0 : '0'.toNat - '0'.toNat = 0 := rfl
      have h1 : '1'.toNat - '0'.toNat = 1 := rfl
      rcases hw c List.mem_cons_self with rfl | rfl <;>
        rcases hw' c' List.mem_cons_self with rfl | rfl
      · exact ⟨rfl, by omega⟩
      · omega
      · omega
      · exact ⟨rfl, by omega⟩

/-- Different numbers are written differently. -/
theorem formatD_natCast_inj {m n : Nat} (h : formatD m = formatD n) : m = n := by
  rw [formatD_natCast, formatD_natCast] at h
  calc
    m = Nat.ofDigitChars 10 (Nat.toDigits 10 m) 0 := Nat.ofDigitChars_ten_toDigits.symm
    _ = Nat.ofDigitChars 10 (Nat.toDigits 10 n) 0 := by rw [h]
    _ = n := Nat.ofDigitChars_ten_toDigits

/-- **Gate digits are read as bits.** On every `int` the loop of `binaryToDecimal` ends within ten
iterations, without overflow, with the sum of the digits in the weights of base two and the sign of
its argument. On the digits of a pattern that is the value of the pattern, and patterns of one width
are not confused. -/
theorem binaryToDecimal_reads_bits :
    (∀ n, InInt n → ∀ fuel, 10 ≤ fuel →
      binaryToDecimalChecked fuel n 0 1 = some (binaryToDecimal n) ∧
      binaryToDecimal n =
        n.sign * (((Nat.digits 10 n.natAbs).mapIdx fun i d => d * 2 ^ i).sum : Nat)) ∧
    (∀ w, BinaryDigits w → (w.dropWhile (· = '0')).length ≤ 10 →
      binaryToDecimal (toInt (strtoul w)) = (Nat.ofDigitChars 2 w 0 : Nat)) ∧
    (∀ w w', BinaryDigits w → BinaryDigits w' → (w.dropWhile (· = '0')).length ≤ 10 →
      (w'.dropWhile (· = '0')).length ≤ 10 → w.length = w'.length → w ≠ w' →
      formatD (binaryToDecimal (toInt (strtoul w))) ≠
        formatD (binaryToDecimal (toInt (strtoul w')))) := by
  refine ⟨?_, fun w => binaryToDecimal_strtoul, ?_⟩
  · intro n h fuel hfuel
    rw [binaryToDecimal_digits h, ← Nat.ofDigits_eq_sum_mapIdx]
    exact ⟨binaryToDecimalChecked_eq h (Nat.le_trans (length_digits_le h) hfuel), rfl⟩
  · intro w w' hw hw' hlength hlength' hwidth hne heq
    rw [binaryToDecimal_strtoul hw hlength, binaryToDecimal_strtoul hw' hlength'] at heq
    exact hne (ofDigitChars_two_inj hw hw' hwidth (formatD_natCast_inj heq)).1

/-- The smallest `int`, and two patterns with leading zeros. -/
theorem binaryToDecimal_reads_bits_samples :
    binaryToDecimalChecked 10 (-2147483648) 0 1 = some (binaryToDecimal (-2147483648)) ∧
    binaryToDecimal (toInt (strtoul "00100000".toList)) = 32 ∧
    formatD (binaryToDecimal (toInt (strtoul "00100000".toList))) ≠
      formatD (binaryToDecimal (toInt (strtoul "00010000".toList))) := by
  obtain ⟨hint, hvalue, hapart⟩ := binaryToDecimal_reads_bits
  have hbits : ∀ w : Text, w.all (fun c => c = '0' ∨ c = '1') = true → BinaryDigits w :=
    fun w h c hc => of_decide_eq_true (List.all_eq_true.mp h c hc)
  refine ⟨(hint _ (by decide) 10 (by decide)).1, hvalue "00100000".toList (hbits _ rfl) (by decide),
    ?_⟩
  exact hapart "00100000".toList "00010000".toList (hbits _ rfl) (hbits _ rfl) (by decide)
    (by decide) (by decide) (by decide)

end Client
end TsnController

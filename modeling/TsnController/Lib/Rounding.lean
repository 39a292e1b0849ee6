import Mathlib.Algebra.Order.Floor.Ring
import Mathlib.Data.Int.Log
import Mathlib.Data.Rat.Floor
import Mathlib.Tactic.FieldSimp
import Mathlib.Tactic.Linarith
import Mathlib.Tactic.Positivity
import Mathlib.Tactic.Ring

/-!
# Floating-point numbers

A format has finitely many numbers, a significand of so many bits times a power of two, and an
operation of the machine is the exact operation followed by a rounding into the format. What a proof
about a program needs of the rounding is little: a number of the format is rounded to itself, and
rounding keeps the order. Both hold of all the directions IEEE 754 has, so a `Rounding` is any
function with these properties. `nearestEven` is the one a program gets unless it asks for another.

Only numbers that are not negative occur, and none above the largest of the format.
-/

set_option autoImplicit false

namespace TsnController
namespace Lib

theorem two_zpow_pos (e : ℤ) : (0 : ℚ) < 2 ^ e := zpow_pos (by norm_num) e

theorem two_zpow_le {e e' : ℤ} (h : e ≤ e') : (2 : ℚ) ^ e ≤ 2 ^ e' :=
  zpow_le_zpow_right₀ (by norm_num) h

structure Format where
  /-- bits of the significand -/
  precision : Nat
  minExp : Int
  maxExp : Int
  precision_pos : 0 < precision
  exp_le : minExp ≤ maxExp

/-- `float`. -/
def binary32 : Format := ⟨24, -149, 104, by decide, by decide⟩

namespace Format

variable (F : Format)

def Representable (x : ℚ) : Prop :=
  ∃ (m : ℕ) (e : ℤ), m < 2 ^ F.precision ∧ F.minExp ≤ e ∧ e ≤ F.maxExp ∧ x = m * 2 ^ e

def largest : ℚ := (2 ^ F.precision - 1) * 2 ^ F.maxExp

variable {F}

theorem Representable.nonneg {x : ℚ} (hx : F.Representable x) : 0 ≤ x := by
  obtain ⟨m, e, _, _, _, rfl⟩ := hx
  exact mul_nonneg (Nat.cast_nonneg m) (two_zpow_pos e).le

theorem Representable.le_largest {x : ℚ} (hx : F.Representable x) : x ≤ F.largest := by
  obtain ⟨m, e, hm, _, he, rfl⟩ := hx
  have hm' : (m : ℚ) ≤ 2 ^ F.precision - 1 := by
    have : (m : ℚ) + 1 ≤ 2 ^ F.precision := by exact_mod_cast hm
    linarith
  exact mul_le_mul hm' (two_zpow_le he) (two_zpow_pos e).le ((Nat.cast_nonneg m).trans hm')

end Format

/-- Where a machine may put the exact result. -/
structure Rounding (F : Format) where
  round : ℚ → ℚ
  representable : ∀ {x : ℚ}, 0 ≤ x → x ≤ F.largest → F.Representable (round x)
  exact : ∀ {x : ℚ}, F.Representable x → round x = x
  mono : ∀ {x y : ℚ}, 0 ≤ x → x ≤ y → y ≤ F.largest → round x ≤ round y

namespace Rounding

variable {F : Format} (R : Rounding F)

/-- No rounding goes past a number of the format. -/
theorem round_le {x y : ℚ} (hx : 0 ≤ x) (hxy : x ≤ y) (hy : F.Representable y) : R.round x ≤ y :=
  (R.mono hx hxy hy.le_largest).trans (R.exact hy).le

theorem le_round {x y : ℚ} (hx : F.Representable x) (hxy : x ≤ y) (hy : y ≤ F.largest) :
    x ≤ R.round y :=
  (R.exact hx).ge.trans (R.mono hx.nonneg hxy hy)

end Rounding

/-! ## To the nearest, ties to even -/

/-- The nearest whole number, and of two that are equally near the even one. -/
def roundEven (x : ℚ) : ℤ :=
  if x - ⌊x⌋ < 1 / 2 ∨ (x - ⌊x⌋ = 1 / 2 ∧ Even ⌊x⌋) then ⌊x⌋ else ⌊x⌋ + 1

theorem roundEven_intCast (n : ℤ) : roundEven n = n := by
  unfold roundEven
  rw [Int.floor_intCast, sub_self, if_pos (Or.inl (by norm_num))]

theorem floor_le_roundEven (x : ℚ) : ⌊x⌋ ≤ roundEven x := by
  unfold roundEven
  split_ifs
  · exact le_refl _
  · exact (lt_add_one _).le

theorem roundEven_le_floor_add_one (x : ℚ) : roundEven x ≤ ⌊x⌋ + 1 := by
  unfold roundEven
  split_ifs
  · exact (lt_add_one _).le
  · exact le_refl _

theorem roundEven_mono {x y : ℚ} (hxy : x ≤ y) : roundEven x ≤ roundEven y := by
  rcases (Int.floor_le_floor hxy).lt_or_eq with hlt | heq
  · calc roundEven x ≤ ⌊x⌋ + 1 := roundEven_le_floor_add_one x
      _ ≤ ⌊y⌋ := hlt
      _ ≤ roundEven y := floor_le_roundEven y
  · by_cases hdown : x - ⌊x⌋ < 1 / 2 ∨ (x - ⌊x⌋ = 1 / 2 ∧ Even ⌊x⌋)
    · rw [roundEven, if_pos hdown, heq]
      exact floor_le_roundEven y
    · -- what takes `x` up takes `y` up
      have hup : ¬ (y - ⌊y⌋ < 1 / 2 ∨ (y - ⌊y⌋ = 1 / 2 ∧ Even ⌊y⌋)) := by
        rw [← heq]
        rintro (hlt | ⟨htie, heven⟩)
        · exact hdown (Or.inl (by linarith))
        · rcases (show x - ⌊x⌋ ≤ 1 / 2 by linarith).lt_or_eq with hlt | hx
          · exact hdown (Or.inl hlt)
          · exact hdown (Or.inr ⟨hx, heven⟩)
      rw [roundEven, if_neg hdown, roundEven, if_neg hup, heq]

theorem roundEven_le {x : ℚ} {n : ℤ} (h : x ≤ n) : roundEven x ≤ n :=
  (roundEven_mono h).trans (roundEven_intCast n).le

theorem le_roundEven {x : ℚ} {n : ℤ} (h : (n : ℚ) ≤ x) : n ≤ roundEven x :=
  (roundEven_intCast n).ge.trans (roundEven_mono h)

namespace Format

variable (F : Format)

/-- The exponent of the last bit that is kept. -/
def exponent (x : ℚ) : ℤ := max F.minExp (Int.log 2 x + 1 - F.precision)

def nearest (x : ℚ) : ℚ := roundEven (x / 2 ^ F.exponent x) * 2 ^ F.exponent x

variable {F}

theorem nearest_zero : F.nearest 0 = 0 := by
  have hround : roundEven 0 = 0 := roundEven_intCast 0
  rw [nearest, zero_div, hround, Int.cast_zero, zero_mul]

/-- The significand has no more bits than there are. -/
theorem div_exponent_lt (x : ℚ) : x / 2 ^ F.exponent x < 2 ^ F.precision := by
  have hlog : x < (2 : ℚ) ^ (Int.log 2 x + 1) := Int.lt_zpow_succ_log_self (by norm_num) x
  have hexp : Int.log 2 x + 1 ≤ F.precision + F.exponent x := by
    have := le_max_right F.minExp (Int.log 2 x + 1 - F.precision)
    unfold exponent
    omega
  have hpow : (2 : ℚ) ^ (F.precision + F.exponent x) = 2 ^ F.precision * 2 ^ F.exponent x := by
    rw [zpow_add₀ (by norm_num), zpow_natCast]
  rw [div_lt_iff₀ (two_zpow_pos _), ← hpow]
  exact hlog.trans_le (two_zpow_le hexp)

/-- Above the least exponent the first bit is set. -/
theorem le_div_exponent {x : ℚ} (hx : 0 < x) (hexp : F.minExp < F.exponent x) :
    (2 : ℚ) ^ (F.precision - 1) ≤ x / 2 ^ F.exponent x := by
  have hlog : (2 : ℚ) ^ Int.log 2 x ≤ x := Int.zpow_log_le_self (by norm_num) hx
  have heq : F.exponent x = Int.log 2 x + 1 - F.precision := by
    unfold exponent at hexp ⊢
    omega
  have hpos := F.precision_pos
  have hsum : ((F.precision - 1 : ℕ) : ℤ) + F.exponent x = Int.log 2 x := by
    rw [heq]
    omega
  rw [le_div_iff₀ (two_zpow_pos _), ← zpow_natCast, ← zpow_add₀ (by norm_num), hsum]
  exact hlog

theorem exponent_mono {x y : ℚ} (hx : 0 < x) (hxy : x ≤ y) : F.exponent x ≤ F.exponent y := by
  have hlog := Int.log_mono_right (b := 2) hx hxy
  unfold exponent
  omega

theorem nearest_nonneg {x : ℚ} (hx : 0 ≤ x) : 0 ≤ F.nearest x := by
  have hround : 0 ≤ roundEven (x / 2 ^ F.exponent x) := by
    apply le_roundEven
    exact div_nonneg hx (two_zpow_pos _).le
  exact mul_nonneg (by exact_mod_cast hround) (two_zpow_pos _).le

/-- The significand may be rounded up to one bit more. -/
theorem roundEven_div_le (x : ℚ) :
    roundEven (x / 2 ^ F.exponent x) ≤ 2 ^ F.precision := by
  apply roundEven_le
  push_cast
  exact (div_exponent_lt x).le

theorem nearest_mono {x y : ℚ} (hx : 0 ≤ x) (hxy : x ≤ y) : F.nearest x ≤ F.nearest y := by
  rcases hx.eq_or_lt with rfl | hpos
  · rw [nearest_zero]
    exact nearest_nonneg hxy
  rcases (exponent_mono (F := F) hpos hxy).eq_or_lt with heq | hlt
  · have hround := roundEven_mono (div_le_div_of_nonneg_right hxy (two_zpow_pos (F.exponent y)).le)
    rw [nearest, nearest, heq]
    exact mul_le_mul_of_nonneg_right (by exact_mod_cast hround) (two_zpow_pos _).le
  · -- a power of two lies between the two
    have hfirst : (2 : ℤ) ^ (F.precision - 1) ≤ roundEven (y / 2 ^ F.exponent y) := by
      apply le_roundEven
      push_cast
      exact le_div_exponent (hpos.trans_le hxy) ((le_max_left _ _).trans_lt hlt)
    have hpos := F.precision_pos
    calc F.nearest x
        ≤ 2 ^ F.precision * 2 ^ F.exponent x :=
          mul_le_mul_of_nonneg_right (by exact_mod_cast roundEven_div_le x) (two_zpow_pos _).le
      _ = 2 ^ ((F.precision : ℤ) + F.exponent x) := by
          rw [zpow_add₀ (by norm_num), zpow_natCast]
      _ ≤ 2 ^ (((F.precision - 1 : ℕ) : ℤ) + F.exponent y) := two_zpow_le (by omega)
      _ = 2 ^ (F.precision - 1) * 2 ^ F.exponent y := by
          rw [zpow_add₀ (by norm_num), zpow_natCast]
      _ ≤ F.nearest y :=
          mul_le_mul_of_nonneg_right (by exact_mod_cast hfirst) (two_zpow_pos _).le

/-- A whole number of last bits is not rounded. -/
theorem roundEven_mul {m : ℕ} {e e' : ℤ} (h : e' ≤ e) :
    (roundEven (m * 2 ^ e / 2 ^ e') : ℚ) * 2 ^ e' = m * 2 ^ e := by
  obtain ⟨k, rfl⟩ := Int.le.dest h
  have hpow : (2 : ℚ) ^ (e' + (k : ℤ)) = 2 ^ k * 2 ^ e' := by
    rw [zpow_add₀ (by norm_num), zpow_natCast, mul_comm]
  have hscaled : (m : ℚ) * 2 ^ (e' + (k : ℤ)) / 2 ^ e' = ((m * 2 ^ k : ℤ) : ℚ) := by
    rw [hpow, ← mul_assoc, mul_div_cancel_right₀ _ (two_zpow_pos e').ne']
    push_cast
    rfl
  rw [hscaled, roundEven_intCast, hpow]
  push_cast
  ring

/-- A number of the format has nothing behind the last bit. -/
theorem nearest_exact {x : ℚ} (hx : F.Representable x) : F.nearest x = x := by
  obtain ⟨m, e, hm, hmin, _, rfl⟩ := hx
  rcases Nat.eq_zero_or_pos m with rfl | hpos
  · rw [Nat.cast_zero, zero_mul, nearest_zero]
  have hx : (0 : ℚ) < m * 2 ^ e := mul_pos (by exact_mod_cast hpos) (two_zpow_pos e)
  have hlog : Int.log 2 ((m : ℚ) * 2 ^ e) < F.precision + e := by
    rw [← Int.lt_zpow_iff_log_lt (by norm_num) hx, Nat.cast_ofNat, zpow_add₀ (by norm_num),
      zpow_natCast]
    exact mul_lt_mul_of_pos_right (by exact_mod_cast hm) (two_zpow_pos e)
  refine roundEven_mul ?_
  unfold exponent
  omega

theorem exponent_le {x : ℚ} (hx : 0 < x) (hle : x ≤ F.largest) : F.exponent x ≤ F.maxExp := by
  have hlt : F.largest < 2 ^ ((F.precision : ℤ) + F.maxExp) := by
    rw [largest, zpow_add₀ (by norm_num), zpow_natCast]
    exact mul_lt_mul_of_pos_right (by linarith) (two_zpow_pos _)
  have hlog : Int.log 2 x < F.precision + F.maxExp := by
    rw [← Int.lt_zpow_iff_log_lt (by norm_num) hx]
    exact_mod_cast hle.trans_lt hlt
  have hmin := F.exp_le
  unfold exponent
  omega

theorem nearest_representable {x : ℚ} (hx : 0 ≤ x) (hle : x ≤ F.largest) :
    F.Representable (F.nearest x) := by
  rcases hx.eq_or_lt with rfl | hpos
  · rw [nearest_zero]
    exact ⟨0, F.minExp, by positivity, le_refl _, F.exp_le, by simp⟩
  have hmin : F.minExp ≤ F.exponent x := le_max_left _ _
  obtain ⟨n, hn⟩ : ∃ n : ℕ, roundEven (x / 2 ^ F.exponent x) = n :=
    Int.eq_ofNat_of_zero_le (le_roundEven (div_nonneg hx (two_zpow_pos _).le))
  have hbits : n ≤ 2 ^ F.precision := by
    have hround := roundEven_div_le (F := F) x
    rw [hn] at hround
    exact_mod_cast hround
  rw [nearest, hn]
  rcases hbits.lt_or_eq with hlt | heq
  · exact ⟨n, F.exponent x, hlt, hmin, exponent_le hpos hle, rfl⟩
  · -- rounded up to a power of two, which has another exponent
    have hlast : F.exponent x ≠ F.maxExp := by
      intro hexp
      have hscaled : x / 2 ^ F.exponent x ≤ ((2 ^ F.precision - 1 : ℤ) : ℚ) := by
        rw [hexp, div_le_iff₀ (two_zpow_pos _)]
        push_cast
        exact hle
      have hround := roundEven_le hscaled
      rw [hn, heq] at hround
      push_cast at hround
      omega
    have hp := F.precision_pos
    refine ⟨2 ^ (F.precision - 1), F.exponent x + 1, ?_, by omega, ?_, ?_⟩
    · exact Nat.pow_lt_pow_right (by norm_num) (by omega)
    · have := exponent_le hpos hle
      omega
    · rw [heq, zpow_add_one₀ (by norm_num)]
      push_cast
      rw [← Nat.sub_add_cancel hp, pow_succ, Nat.add_sub_cancel]
      ring

end Format

/-- To the nearest number of the format. -/
def nearestEven (F : Format) : Rounding F where
  round := F.nearest
  representable := Format.nearest_representable
  exact := Format.nearest_exact
  mono hx hxy _ := Format.nearest_mono hx hxy

end Lib
end TsnController

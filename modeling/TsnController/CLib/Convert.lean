import TsnController.CLib.Numeral

/-!
# Numbers read as whole numbers

`strtol` and `strtoul` in base ten take a sign and digits and stop in front of anything else; what
`strtod` reads to its end they may leave half unread. This module compares what they answer with
what the number is worth. They agree on decimal digits in range, without an exponent or with the
exponent zero, and on zeros of every form.

`strtol` agrees in one more case, by coincidence: a negative exponent can bring digits that are out
of range exactly to the limit the reader answers with, as in `92233720368547758070e-1`.
-/

set_option autoImplicit false

namespace TsnController
namespace CLib

open Lib

/-! ## What is read -/

namespace Magnitude

/-- The digits in front of the first character that is not one. -/
def lead : Magnitude → Nat
  | .decimal p => digitsValue 10 p.whole
  | .hexadecimal _ _ _ => 0
  | .word _ _ _ _ => 0

end Magnitude

theorem readDigits_append {ds rest : Text} (hds : Digits ds)
    (hrest : ∀ c ∈ rest.head?, c.isDigit = false) : ∀ acc,
    readDigits acc (ds ++ rest) = ds.foldl (fun n c => n * 10 + digitValue c) acc := by
  induction ds with
  | nil =>
    intro acc
    cases rest with
    | nil => rfl
    | cons c cs =>
      rw [List.nil_append, readDigits, if_neg (by simp [hrest c rfl])]
      rfl
  | cons d ds ih =>
    intro acc
    have hd : d.isDigit = true := hds d List.mem_cons_self
    rw [List.cons_append, readDigits, if_pos hd, ih fun c hc => hds c (List.mem_cons_of_mem d hc),
      List.foldl_cons, digitValue, if_pos hd]

/-- The digits of a significand end at its point, at its exponent, or with the text. -/
theorem head?_after_whole {low high : Char} (hlow : low.isDigit = false)
    (hhigh : high.isDigit = false) (f : Option Text) (e : Option (Exponent low high)) :
    ∀ c ∈ (fractionText f ++ exponentText e).head?, c.isDigit = false := by
  intro c hc
  cases f with
  | some ds =>
    obtain rfl : '.' = c := Option.some.inj hc
    rfl
  | none =>
    cases e with
    | none => exact absurd hc (by simp [fractionText, exponentText])
    | some e =>
      obtain rfl : e.mark = c := Option.some.inj hc
      rcases e.mark_eq with h | h
      · rw [h, hlow]
      · rw [h, hhigh]

theorem not_isDigit_of_isAlpha {c : Char} (h : c.isAlpha = true) : c.isDigit = false := by
  have hle : 'A'.val ≤ c.val := by
    rcases Bool.or_eq_true_iff.mp h with h | h
    · exact (of_decide_eq_true h).1
    · exact UInt32.le_trans (by decide) (of_decide_eq_true (Bool.and_eq_true_iff.mp h).1)
  apply Bool.eq_false_iff.mpr
  intro hdigit
  have hnine : c.val ≤ '9'.val := of_decide_eq_true (Bool.and_eq_true_iff.mp hdigit).2
  exact absurd (UInt32.le_trans hle hnine) (by decide)

theorem readDigits_text (m : Magnitude) : readDigits 0 m.text = m.lead := by
  cases m with
  | decimal p => exact readDigits_append p.whole_digits (head?_after_whole rfl rfl _ _) 0
  | hexadecimal x hx p =>
    have hx' : x.isDigit = false := by rcases hx with rfl | rfl <;> rfl
    have hzero : Digits ['0'] := List.forall_mem_singleton.mpr rfl
    have hrest : ∀ c ∈ (x :: p.text).head?, c.isDigit = false := by simpa using hx'
    exact readDigits_append hzero hrest 0
  | word c cs hc _ =>
    have hnil : Digits [] := fun _ h => absurd h (by simp)
    have hrest : ∀ d ∈ (c :: cs).head?, d.isDigit = false := by
      simpa using not_isDigit_of_isAlpha hc
    exact readDigits_append hnil hrest 0

theorem Positional.exists_cons {low high : Char} (p : Positional Char.isDigit low high) :
    ∃ c cs, p.text = c :: cs ∧ Begins c := by
  unfold Positional.text
  cases hw : p.whole with
  | cons c cs =>
    have hc : c.isDigit = true := p.whole_digits c (by rw [hw]; exact List.mem_cons_self)
    exact ⟨c, _, rfl, begins_of_isDigit hc⟩
  | nil =>
    cases hf : p.fraction with
    | none => exact absurd (by rw [hw, hf]; rfl) p.digits_ne
    | some ds => exact ⟨'.', _, rfl, .inr rfl⟩

theorem Magnitude.exists_cons (m : Magnitude) : ∃ c cs, m.text = c :: cs ∧ Begins c := by
  cases m with
  | decimal p => exact p.exists_cons
  | hexadecimal x _ p => exact ⟨'0', _, rfl, begins_of_isDigit rfl⟩
  | word c cs hc _ => exact ⟨c, cs, rfl, begins_of_isAlpha hc⟩

theorem splitSign_cons {c : Char} {cs : Text} (hplus : c ≠ '+') (hminus : c ≠ '-') :
    splitSign (c :: cs) = (false, c :: cs) := by
  unfold splitSign
  split
  · rename_i heq
    exact absurd (List.cons.inj heq).1 hminus
  · rename_i heq
    exact absurd (List.cons.inj heq).1 hplus
  · rfl

/-- The sign is split off, and nothing else. -/
theorem splitSign_text (n : Numeral) :
    splitSign (n.text.dropWhile isspace) = (n.sign.negative, n.magnitude.text) := by
  obtain ⟨c, cs, hm, hc⟩ := n.magnitude.exists_cons
  obtain ⟨hspace, hplus, hminus⟩ := hc.ne
  unfold Numeral.text
  rw [hm]
  cases n.sign with
  | none =>
    show splitSign ((c :: cs).dropWhile isspace) = _
    rw [List.dropWhile_cons_of_neg (by simp [hspace]), splitSign_cons hplus hminus]
    rfl
  | plus => rfl
  | minus => rfl

theorem strtoul_of_splitSign {str rest : Text}
    (h : splitSign (str.dropWhile isspace) = (false, rest)) :
    strtoul str = min (readDigits 0 rest) ulongMax := by
  unfold strtoul
  simp only [h, Bool.false_eq_true, if_false]
  split
  · rename_i hlt
    exact (Nat.min_eq_right (Nat.le_of_lt hlt)).symm
  · rename_i hlt
    exact (Nat.min_eq_left (Nat.le_of_not_lt hlt)).symm

theorem strtoul_text {n : Numeral} (h : n.sign.negative = false) :
    strtoul n.text = min n.magnitude.lead ulongMax := by
  rw [strtoul_of_splitSign (h ▸ splitSign_text n), readDigits_text]

theorem strtol_text (n : Numeral) :
    strtol n.text = n.sign.factor * (min n.magnitude.lead n.sign.limit : Nat) := by
  have hclamp : ∀ m l : Nat, (if l < m then l else m) = min m l := by
    intro m l
    split <;> omega
  unfold strtol
  rw [splitSign_text]
  simp only [readDigits_text, hclamp]
  cases n.sign with
  | none => exact (one_mul _).symm
  | plus => exact (one_mul _).symm
  | minus => exact (neg_one_mul _).symm

/-! ## Without a point -/

namespace Positional

variable {digit : Char → Bool} {low high : Char} {p : Positional digit low high}

theorem fraction_of_notMem (h : '.' ∉ p.text) : p.fraction = none := by
  cases hf : p.fraction with
  | none => rfl
  | some ds =>
    apply absurd _ h
    rw [text, hf]
    exact List.mem_append_right _ List.mem_cons_self

theorem value_of_notMem (base radix : Nat) (h : '.' ∉ p.text) :
    p.value base radix = digitsValue base p.whole * (radix : ℚ) ^ p.scale := by
  rw [value, fraction_of_notMem h]
  simp

/-- Without a minus sign the exponent is not negative. -/
theorem exists_scale (h : '-' ∉ p.text) : ∃ k : Nat, p.scale = k := by
  unfold scale
  cases he : p.exponent with
  | none => exact ⟨0, rfl⟩
  | some e =>
    have hsign : '-' ∉ e.sign.text := by
      intro hmem
      apply h
      rw [text, he]
      apply List.mem_append_right
      apply List.mem_append_right
      exact List.mem_cons_of_mem _ (List.mem_append_left _ hmem)
    refine ⟨digitsValue 10 e.digits, ?_⟩
    show e.sign.factor * _ = _
    rw [(Sign.eq_of_notMem hsign).1, one_mul]

end Positional

/-! ## When the two agree -/

namespace Magnitude

/-- Zero, or decimal digits of at most `limit` that no exponent scales. -/
def Fits (limit : Nat) : Magnitude → Prop
  | .decimal p => digitsValue 10 p.whole = 0 ∨ (p.scale = 0 ∧ digitsValue 10 p.whole ≤ limit)
  | .hexadecimal _ _ p => digitsValue 16 p.whole = 0
  | .word _ _ _ _ => False

/-- … or digits beyond it that a negative exponent brings back to exactly the limit. -/
def FitsOrMeets (limit : Nat) : Magnitude → Prop
  | .decimal p => digitsValue 10 p.whole = 0 ∨ (p.scale = 0 ∧ digitsValue 10 p.whole ≤ limit) ∨
      ∃ k : Nat, 0 < k ∧ p.scale = -k ∧ digitsValue 10 p.whole = limit * 10 ^ k
  | .hexadecimal _ _ p => digitsValue 16 p.whole = 0
  | .word _ _ _ _ => False

end Magnitude

/-- Scaling up by a power of ten keeps a number only if it is zero or the power is one. -/
theorem scaled_up_iff {m k limit : Nat} {r : Int} (hle : r ≤ m) (hr : r = m ↔ m ≤ limit) :
    (m : ℚ) * 10 ^ k = r ↔ m = 0 ∨ (k = 0 ∧ m ≤ limit) := by
  have hcast : (m : ℚ) * 10 ^ k = r ↔ (m : Int) * 10 ^ k = r := by norm_cast
  rw [hcast]
  constructor
  · intro h
    by_cases hm : m = 0
    · exact .inl hm
    right
    have hpow : (1 : Int) ≤ 10 ^ k := one_le_pow₀ (by norm_num)
    have hge : (m : Int) * 1 ≤ m * 10 ^ k := Int.mul_le_mul_of_nonneg_left hpow (by positivity)
    have heq : r = m := by omega
    refine ⟨?_, hr.mp heq⟩
    have hone : (10 : Int) ^ k = 1 := by
      apply mul_left_cancel₀ (a := (m : Int)) (by exact_mod_cast hm)
      rw [h, heq, mul_one]
    by_contra hk
    exact absurd hone (one_lt_pow₀ (by norm_num) hk).ne'
  · rintro (rfl | ⟨rfl, hm⟩)
    · rw [Nat.cast_zero, zero_mul]
      exact (hr.mpr (Nat.zero_le _)).symm
    · rw [pow_zero, mul_one]
      exact (hr.mpr hm).symm

/-- Scaling down, against a number cut off at a limit. -/
theorem scaled_down_iff {m k limit : Nat} (hk : 0 < k) (hlimit : 0 < limit) :
    (m : ℚ) * 10 ^ (-(k : Int)) = (min m limit : Nat) ↔ m = 0 ∨ m = limit * 10 ^ k := by
  have hten : (10 : ℚ) ^ k ≠ 0 := by positivity
  have hpow : 1 < 10 ^ k := one_lt_pow₀ (by norm_num) (by omega)
  have hcast : (m : ℚ) * 10 ^ (-(k : Int)) = (min m limit : Nat) ↔ m = min m limit * 10 ^ k := by
    rw [zpow_neg, zpow_natCast, ← div_eq_mul_inv, div_eq_iff hten]
    norm_cast
  rw [hcast]
  rcases Nat.lt_or_ge limit m with hlt | hle
  · rw [Nat.min_eq_right (Nat.le_of_lt hlt)]
    constructor
    · exact .inr
    · rintro (rfl | h)
      · exact absurd hlt (Nat.not_lt_zero _)
      · exact h
  · -- in range, nothing but zero is its own multiple
    rw [Nat.min_eq_left hle]
    constructor
    · intro h
      left
      by_contra hm
      have hlt : m * 1 < m * 10 ^ k := Nat.mul_lt_mul_of_pos_left hpow (Nat.pos_of_ne_zero hm)
      omega
    · rintro (rfl | h)
      · rw [Nat.zero_mul]
      · have hlt : limit * 1 < limit * 10 ^ k := Nat.mul_lt_mul_of_pos_left hpow hlimit
        omega

/-- Scaling either way, against a number cut off at a limit. -/
theorem scaled_iff {m limit : Nat} {e : Int} (hlimit : 0 < limit) :
    (m : ℚ) * 10 ^ e = (min m limit : Nat) ↔
      m = 0 ∨ (e = 0 ∧ m ≤ limit) ∨ ∃ k : Nat, 0 < k ∧ e = -k ∧ m = limit * 10 ^ k := by
  rcases lt_or_ge e 0 with hneg | hpos
  · obtain ⟨k, rfl⟩ : ∃ k : Nat, e = -k := ⟨(-e).toNat, by omega⟩
    rw [scaled_down_iff (by omega) hlimit]
    constructor
    · rintro (h | h)
      · exact .inl h
      · exact .inr (.inr ⟨k, by omega, rfl, h⟩)
    · rintro (h | ⟨h, _⟩ | ⟨j, _, hj, h⟩)
      · exact .inl h
      · omega
      · obtain rfl : k = j := by omega
        exact .inr h
  · obtain ⟨k, rfl⟩ := Int.eq_ofNat_of_zero_le hpos
    have hup := @scaled_up_iff m k limit (min m limit : Nat)
      (by exact_mod_cast Nat.min_le_left _ _) (by omega)
    rw [zpow_natCast, ← Int.cast_natCast (R := ℚ) (min m limit), hup]
    constructor
    · rintro (h | ⟨rfl, h⟩)
      · exact .inl h
      · exact .inr (.inl ⟨rfl, h⟩)
    · rintro (h | ⟨hk, h⟩ | ⟨j, hj, hk, _⟩)
      · exact .inl h
      · exact .inr ⟨by omega, h⟩
      · omega

/-- A significand is worth nothing exactly if its digits are all zero. -/
theorem Positional.value_eq_zero_iff {digit : Char → Bool} {low high : Char}
    {p : Positional digit low high} {base radix : Nat} (hradix : 0 < radix) (h : '.' ∉ p.text) :
    p.value base radix = 0 ↔ digitsValue base p.whole = 0 := by
  have hpow : (radix : ℚ) ^ p.scale ≠ 0 := zpow_ne_zero _ (by exact_mod_cast hradix.ne')
  rw [Positional.value_of_notMem base radix h, mul_eq_zero, or_iff_left hpow, Nat.cast_eq_zero]

section Agree

variable {n : Numeral}

/-- The text of the number without its sign. -/
theorem Numeral.notMem_magnitude {c : Char} (h : c ∉ n.text) : c ∉ n.magnitude.text :=
  fun hmem => h (List.mem_append_right _ hmem)

theorem Numeral.notMem_sign {c : Char} (h : c ∉ n.text) : c ∉ n.sign.text :=
  fun hmem => h (List.mem_append_left _ hmem)

/-- **A whole number that is what `strtoul` reads, up to some limit**, is the value of the number
exactly if that fits. -/
theorem value_eq_iff_fits {limit : Nat} {r : Int} (hpoint : '.' ∉ n.text) (hminus : '-' ∉ n.text)
    (hle : r ≤ n.magnitude.lead) (hr : r = n.magnitude.lead ↔ n.magnitude.lead ≤ limit) :
    n.value = some (r : ℚ) ↔ n.magnitude.Fits limit := by
  obtain ⟨sign, m⟩ := n
  have hpoint' : '.' ∉ m.text := Numeral.notMem_magnitude hpoint
  have hminus' : '-' ∉ m.text := Numeral.notMem_magnitude hminus
  have hfactor : sign.factor = 1 := (Sign.eq_of_notMem (Numeral.notMem_sign hminus)).1
  unfold Numeral.value
  rw [hfactor]
  cases m with
  | decimal p =>
    obtain ⟨k, hk⟩ := Positional.exists_scale hminus'
    have hvalue : p.value 10 10 = (digitsValue 10 p.whole : ℚ) * 10 ^ k := by
      rw [Positional.value_of_notMem 10 10 hpoint', hk, zpow_natCast]
      rfl
    simp only [Magnitude.value, Option.map_some, Option.some.injEq, Int.cast_one, one_mul,
      Magnitude.Fits, hvalue, hk, Int.natCast_eq_zero]
    exact scaled_up_iff hle hr
  | hexadecimal x hx p =>
    have hzero : r = 0 := hr.mpr (Nat.zero_le _)
    have hp : '.' ∉ p.text := fun hmem =>
      hpoint' (List.mem_cons_of_mem _ (List.mem_cons_of_mem _ hmem))
    simp only [Magnitude.value, Option.map_some, Option.some.injEq, Int.cast_one, one_mul,
      Magnitude.Fits, hzero, Int.cast_zero]
    exact Positional.value_eq_zero_iff (by decide) hp
  | word c cs hc h => simp [Magnitude.value, Magnitude.Fits]

/-- **`strtoul` answers with the value of a number exactly if it fits an `unsigned long`.** -/
theorem value_eq_strtoul_iff (hpoint : '.' ∉ n.text) (hminus : '-' ∉ n.text) :
    n.value = some (strtoul n.text : ℚ) ↔ n.magnitude.Fits ulongMax := by
  rw [strtoul_text (Sign.eq_of_notMem (Numeral.notMem_sign hminus)).2]
  have hcast : ((min n.magnitude.lead ulongMax : Nat) : ℚ)
      = ((min n.magnitude.lead ulongMax : Nat) : Int) := by norm_cast
  rw [hcast]
  apply value_eq_iff_fits hpoint hminus
  · exact_mod_cast Nat.min_le_left _ _
  · omega

/-- … and converted to `int` it is the value exactly if it fits that. -/
theorem value_eq_toInt_iff (hpoint : '.' ∉ n.text) (hminus : '-' ∉ n.text) :
    n.value = some (toInt (strtoul n.text) : ℚ) ↔ n.magnitude.Fits intMax := by
  rw [strtoul_text (Sign.eq_of_notMem (Numeral.notMem_sign hminus)).2]
  have hle : ∀ m : Nat, toInt m ≤ m := by
    intro m
    unfold toInt
    rw [Int.bmod_def]
    split <;> omega
  have hlt : ∀ m : Nat, toInt m < 0x80000000 := by
    intro m
    unfold toInt
    rw [Int.bmod_def]
    split <;> omega
  have hmin : ((min n.magnitude.lead ulongMax : Nat) : Int) ≤ n.magnitude.lead := by
    exact_mod_cast Nat.min_le_left _ _
  have hmax : intMax = 0x7fffffff := rfl
  apply value_eq_iff_fits hpoint hminus
  · exact (hle _).trans hmin
  · constructor
    · intro h
      have hbound := hlt (min n.magnitude.lead ulongMax)
      omega
    · intro h
      have hsmall : min n.magnitude.lead ulongMax = n.magnitude.lead :=
        Nat.min_eq_left (h.trans (by decide))
      rw [hsmall, toInt_of_lt (by omega)]

theorem Magnitude.value_eq_min_iff {m : Magnitude} {limit : Nat} (hlimit : 0 < limit)
    (hpoint : '.' ∉ m.text) :
    m.value = some ((min m.lead limit : Nat) : ℚ) ↔ m.FitsOrMeets limit := by
  cases m with
  | decimal p =>
    simp only [Magnitude.value, Option.some.injEq, Magnitude.FitsOrMeets, Magnitude.lead]
    rw [Positional.value_of_notMem 10 10 hpoint]
    exact scaled_iff hlimit
  | hexadecimal x hx p =>
    have hp : '.' ∉ p.text := fun hmem =>
      hpoint (List.mem_cons_of_mem _ (List.mem_cons_of_mem _ hmem))
    simp only [Magnitude.value, Option.some.injEq, Magnitude.FitsOrMeets, Magnitude.lead,
      Nat.zero_min, Nat.cast_zero]
    exact Positional.value_eq_zero_iff Nat.two_pos hp
  | word c cs hc h => simp [Magnitude.value, Magnitude.FitsOrMeets]

/-- **`strtol` answers with the value of a number exactly if it fits a `long` or meets its
limit.** -/
theorem value_eq_strtol_iff (hpoint : '.' ∉ n.text) :
    n.value = some (strtol n.text : ℚ) ↔ n.magnitude.FitsOrMeets n.sign.limit := by
  have hfactor : (n.sign.factor : ℚ) ≠ 0 := by exact_mod_cast n.sign.factor_ne_zero
  rw [← Magnitude.value_eq_min_iff n.sign.limit_pos (Numeral.notMem_magnitude hpoint), strtol_text,
    Numeral.value, Int.cast_mul, Int.cast_natCast]
  -- the sign is on both sides
  cases n.magnitude.value with
  | none => simp
  | some q => rw [Option.map_some, Option.some.injEq, Option.some.injEq, mul_right_inj' hfactor]

end Agree

end CLib
end TsnController

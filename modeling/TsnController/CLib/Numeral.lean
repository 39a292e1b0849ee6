import Mathlib.Algebra.Order.Field.Power
import Mathlib.Data.Rat.Floor
import TsnController.CLib.Text

/-!
# What a number is worth

The automaton of `strtod` says where a number ends. `Numeral` is its language as data, with the
text of each number and its value: a sign, a decimal or hexadecimal significand with an optional
point and an optional exponent, worth a rational; or `INF` or `NAN`, worth none.

That these are all the numbers there are is `IsNumeral.exists_numeral`, by reading the automaton
backwards, one state after the other.
-/

set_option autoImplicit false

namespace TsnController
namespace CLib

open Lib

/-! ## The forms of a number -/

inductive Sign
  | none
  | plus
  | minus
  deriving DecidableEq, Repr

namespace Sign

def text : Sign → Text
  | .none => []
  | .plus => ['+']
  | .minus => ['-']

def negative : Sign → Bool
  | .minus => true
  | _ => false

def factor : Sign → Int
  | .minus => -1
  | _ => 1

/-- The largest magnitude `strtol` can answer with. -/
def limit : Sign → Nat
  | .minus => longMax + 1
  | _ => longMax

theorem factor_ne_zero (s : Sign) : s.factor ≠ 0 := by cases s <;> decide

theorem limit_pos (s : Sign) : 0 < s.limit := by cases s <;> decide

theorem eq_of_notMem {s : Sign} (h : '-' ∉ s.text) : s.factor = 1 ∧ s.negative = false := by
  cases s with
  | none => exact ⟨rfl, rfl⟩
  | plus => exact ⟨rfl, rfl⟩
  | minus => exact absurd List.mem_cons_self h

end Sign

/-- Decimal and hexadecimal digits. -/
def digitValue (c : Char) : Nat :=
  if c.isDigit then c.toNat - '0'.toNat
  else if 'a' ≤ c then c.toNat - 'a'.toNat + 10
  else c.toNat - 'A'.toNat + 10

def digitsValue (base : Nat) (ds : Text) : Nat :=
  ds.foldl (fun n c => n * base + digitValue c) 0

/-- An exponent: one of its two markers, a sign, and decimal digits. -/
structure Exponent (low high : Char) where
  mark : Char
  sign : Sign
  digits : Text
  mark_eq : mark = low ∨ mark = high
  isDigits : Digits digits
  digits_ne : digits ≠ []

def Exponent.text {low high : Char} (e : Exponent low high) : Text :=
  e.mark :: (e.sign.text ++ e.digits)

def Exponent.value {low high : Char} (e : Exponent low high) : Int :=
  e.sign.factor * digitsValue 10 e.digits

/-- A significand, with a point or without, and an optional exponent. -/
structure Positional (digit : Char → Bool) (low high : Char) where
  whole : Text
  fraction : Option Text
  exponent : Option (Exponent low high)
  whole_digits : ∀ c ∈ whole, digit c = true
  fraction_digits : ∀ c ∈ fraction.getD [], digit c = true
  digits_ne : whole ++ fraction.getD [] ≠ []

def fractionText : Option Text → Text
  | none => []
  | some ds => '.' :: ds

def exponentText {low high : Char} : Option (Exponent low high) → Text
  | none => []
  | some e => e.text

namespace Positional

variable {digit : Char → Bool} {low high : Char}

def text (p : Positional digit low high) : Text :=
  p.whole ++ (fractionText p.fraction ++ exponentText p.exponent)

/-- The exponent, `0` if none is written. -/
def scale (p : Positional digit low high) : Int :=
  match p.exponent with
  | none => 0
  | some e => e.value

/-- The value of a significand in `base` that the exponent scales by powers of `radix`. -/
def value (base radix : Nat) (p : Positional digit low high) : ℚ :=
  digitsValue base (p.whole ++ p.fraction.getD []) / (base : ℚ) ^ (p.fraction.getD []).length
    * (radix : ℚ) ^ p.scale

end Positional

/-- A number without its sign. -/
inductive Magnitude
  | decimal (p : Positional Char.isDigit 'e' 'E')
  | hexadecimal (x : Char) (hx : x = 'x' ∨ x = 'X') (p : Positional isxdigit 'p' 'P')
  /-- `INF` and `NAN`, in any spelling -/
  | word (c : Char) (cs : Text) (hc : c.isAlpha = true) (h : IsNumeral (c :: cs))

namespace Magnitude

def text : Magnitude → Text
  | .decimal p => p.text
  | .hexadecimal x _ p => '0' :: x :: p.text
  | .word c cs _ _ => c :: cs

def value : Magnitude → Option ℚ
  | .decimal p => some (p.value 10 10)
  | .hexadecimal _ _ p => some (p.value 16 2)
  | .word _ _ _ _ => none

end Magnitude

/-- A number as `strtod` reads it. -/
structure Numeral where
  sign : Sign
  magnitude : Magnitude

namespace Numeral

def text (n : Numeral) : Text := n.sign.text ++ n.magnitude.text

/-- The exact value; infinities and not-a-numbers have none. -/
def value (n : Numeral) : Option ℚ := n.magnitude.value.map fun q => n.sign.factor * q

end Numeral

/-! ## Every number has one of the forms

What is left to read in a state of the automaton, state by state from the last one back. The
states of the decimal and of the hexadecimal form have the same transitions with other digits and
other markers, so they are read once for both. -/

/-- The transitions both forms have behind their first digit: `a` in front of the point, `b` behind
it, and `x`, `y`, `z` in an exponent, behind its marker, its sign and its first digit. -/
structure Reader (digit : Char → Bool) (low high : Char) (a b x y z : NumState) : Prop where
  whole : ∀ c, numeral.step a c = if digit c then some a
    else if c = '.' then some b else if c = low ∨ c = high then some x else none
  fraction : ∀ c, numeral.step b c = if digit c then some b
    else if c = low ∨ c = high then some x else none
  marked : ∀ c, numeral.step x c = if c = '+' ∨ c = '-' then some y
    else if c.isDigit then some z else none
  signed : ∀ c, numeral.step y c = if c.isDigit then some z else none
  digits : ∀ c, numeral.step z c = if c.isDigit then some z else none
  open_ : numeral.accept x = false ∧ numeral.accept y = false

theorem reader_decimal : Reader Char.isDigit 'e' 'E' .int .frac .exp .expSign .expDigits :=
  ⟨fun _ => rfl, fun _ => rfl, fun _ => rfl, fun _ => rfl, fun _ => rfl, rfl, rfl⟩

theorem reader_hexadecimal :
    Reader isxdigit 'p' 'P' .hexInt .hexFrac .binExp .binExpSign .binExpDigits :=
  ⟨fun _ => rfl, fun _ => rfl, fun _ => rfl, fun _ => rfl, fun _ => rfl, rfl, rfl⟩

namespace Reader

variable {digit : Char → Bool} {low high : Char} {a b x y z : NumState} {w : Text}

theorem isDigits (hr : Reader digit low high a b x y z)
    (h : numeral.Accepts z w) : Digits w := by
  obtain ⟨ds, rest, rfl, hds, hrest⟩ := Matcher.Accepts.loop numeral hr.digits h
  rcases hrest with ⟨rfl, _⟩ | ⟨_, _, _, _, hleave, _⟩
  · rw [List.append_nil]
    exact hds
  · exact absurd hleave (by simp)

/-- A digit, and the digits behind it. -/
theorem isDigits_cons (hr : Reader digit low high a b x y z) {c : Char}
    {s : NumState} (hs : (if c.isDigit then some z else none) = some s)
    (h : numeral.Accepts s w) : Digits (c :: w) := by
  rw [Option.ite_none_right_eq_some] at hs
  obtain ⟨hc, heq⟩ := hs
  rw [← Option.some.inj heq] at h
  exact List.forall_mem_cons.mpr ⟨hc, hr.isDigits h⟩

/-- Behind the marker of an exponent. -/
theorem exists_exponent (hr : Reader digit low high a b x y z)
    (h : numeral.Accepts x w) :
    ∃ (sign : Sign) (ds : Text), w = sign.text ++ ds ∧ Digits ds ∧ ds ≠ [] := by
  cases w with
  | nil => exact absurd (numeral.accepts_nil.mp h) (by simp [hr.open_.1])
  | cons c cs =>
    obtain ⟨s, hs, hcs⟩ := numeral.accepts_cons.mp h
    rw [hr.marked c] at hs
    by_cases hc : c = '+' ∨ c = '-'
    · rw [if_pos hc] at hs
      rw [← Option.some.inj hs] at hcs
      cases cs with
      | nil => exact absurd (numeral.accepts_nil.mp hcs) (by simp [hr.open_.2])
      | cons d ds =>
        obtain ⟨s', hs', hds⟩ := numeral.accepts_cons.mp hcs
        rw [hr.signed d] at hs'
        have hdigits := hr.isDigits_cons hs' hds
        rcases hc with rfl | rfl
        · exact ⟨.plus, d :: ds, rfl, hdigits, by simp⟩
        · exact ⟨.minus, d :: ds, rfl, hdigits, by simp⟩
    · rw [if_neg hc] at hs
      exact ⟨.none, c :: cs, rfl, hr.isDigits_cons hs hcs, by simp⟩

/-- An exponent, marker included, or nothing. -/
theorem exists_exponentText (hr : Reader digit low high a b x y z)
    {c : Char} {s : NumState} (hs : (if c = low ∨ c = high then some x else none) = some s)
    (h : numeral.Accepts s w) : ∃ e : Option (Exponent low high), c :: w = exponentText e := by
  rw [Option.ite_none_right_eq_some] at hs
  obtain ⟨hc, heq⟩ := hs
  rw [← Option.some.inj heq] at h
  obtain ⟨sign, ds, rfl, hds, hne⟩ := hr.exists_exponent h
  exact ⟨some ⟨c, sign, ds, hc, hds, hne⟩, rfl⟩

/-- Behind the point. -/
theorem exists_fraction (hr : Reader digit low high a b x y z)
    (h : numeral.Accepts b w) : ∃ (ds : Text) (e : Option (Exponent low high)),
      w = ds ++ exponentText e ∧ ∀ c ∈ ds, digit c = true := by
  obtain ⟨ds, rest, rfl, hds, hrest⟩ := Matcher.Accepts.loop numeral hr.fraction h
  rcases hrest with ⟨rfl, _⟩ | ⟨c, cs, s, rfl, hs, hcs⟩
  · exact ⟨ds, none, rfl, hds⟩
  · obtain ⟨e, he⟩ := hr.exists_exponentText hs hcs
    exact ⟨ds, e, by rw [he], hds⟩

/-- Behind the first digit. -/
theorem exists_whole (hr : Reader digit low high a b x y z)
    (h : numeral.Accepts a w) :
    ∃ (ds : Text) (f : Option Text) (e : Option (Exponent low high)),
      w = ds ++ (fractionText f ++ exponentText e) ∧ (∀ c ∈ ds, digit c = true) ∧
      ∀ c ∈ f.getD [], digit c = true := by
  obtain ⟨ds, rest, rfl, hds, hrest⟩ := Matcher.Accepts.loop numeral hr.whole h
  rcases hrest with ⟨rfl, _⟩ | ⟨c, cs, s, rfl, hs, hcs⟩
  · exact ⟨ds, none, none, rfl, hds, by simp⟩
  by_cases hc : c = '.'
  · rw [if_pos hc] at hs
    rw [← Option.some.inj hs] at hcs
    obtain ⟨fs, e, rfl, hfs⟩ := hr.exists_fraction hcs
    exact ⟨ds, some fs, e, by rw [hc]; rfl, hds, hfs⟩
  · rw [if_neg hc] at hs
    obtain ⟨e, he⟩ := hr.exists_exponentText hs hcs
    exact ⟨ds, none, e, by rw [he]; rfl, hds, by simp⟩

/-- A number that begins with a digit. -/
theorem exists_positional (hr : Reader digit low high a b x y z) {c : Char}
    (hc : digit c = true) (h : numeral.Accepts a w) :
    ∃ p : Positional digit low high, p.text = c :: w := by
  obtain ⟨ds, f, e, rfl, hds, hf⟩ := hr.exists_whole h
  exact ⟨⟨c :: ds, f, e, List.forall_mem_cons.mpr ⟨hc, hds⟩, hf, by simp⟩, rfl⟩

/-- A number that begins with the point: a digit must follow. -/
theorem exists_positional_point (hr : Reader digit low high a b x y z)
    {c : Char} (hc : digit c = true) (h : numeral.Accepts b w) :
    ∃ p : Positional digit low high, p.text = '.' :: c :: w := by
  obtain ⟨ds, e, rfl, hds⟩ := hr.exists_fraction h
  exact ⟨⟨[], some (c :: ds), e, by simp, List.forall_mem_cons.mpr ⟨hc, hds⟩, by simp⟩, rfl⟩

end Reader

theorem exists_decimal_of_point {w : Text} (h : numeral.Accepts .point w) :
    ∃ m : Magnitude, m.text = '.' :: w := by
  cases w with
  | nil => exact absurd (numeral.accepts_nil.mp h) (by simp [numeral, NumState.accept])
  | cons c cs =>
    obtain ⟨s, hs, hcs⟩ := numeral.accepts_cons.mp h
    obtain ⟨hc, heq⟩ := Option.ite_none_right_eq_some.mp hs
    rw [← Option.some.inj heq] at hcs
    obtain ⟨p, hp⟩ := reader_decimal.exists_positional_point hc hcs
    exact ⟨.decimal p, hp⟩

/-- Behind `0x`. -/
theorem exists_positional_of_hex {w : Text} (h : numeral.Accepts .hex w) :
    ∃ p : Positional isxdigit 'p' 'P', p.text = w := by
  cases w with
  | nil => exact absurd (numeral.accepts_nil.mp h) (by simp [numeral, NumState.accept])
  | cons c cs =>
    obtain ⟨s, hs, hcs⟩ := numeral.accepts_cons.mp h
    by_cases hc : isxdigit c = true
    · rw [show numeral.step .hex c = some .hexInt from if_pos hc] at hs
      rw [← Option.some.inj hs] at hcs
      exact reader_hexadecimal.exists_positional hc hcs
    · rw [show numeral.step .hex c = if c = '.' then some .hexPoint else none from if_neg hc] at hs
      obtain ⟨rfl, heq⟩ := Option.ite_none_right_eq_some.mp hs
      rw [← Option.some.inj heq] at hcs
      cases cs with
      | nil => exact absurd (numeral.accepts_nil.mp hcs) (by simp [numeral, NumState.accept])
      | cons d ds =>
        obtain ⟨s', hs', hds⟩ := numeral.accepts_cons.mp hcs
        obtain ⟨hd, heq'⟩ := Option.ite_none_right_eq_some.mp hs'
        rw [← Option.some.inj heq'] at hds
        exact reader_hexadecimal.exists_positional_point hd hds

/-- Behind a leading zero. -/
theorem exists_magnitude_of_zero {w : Text} (h : numeral.Accepts .zero w) :
    ∃ m : Magnitude, m.text = '0' :: w := by
  have hdecimal : numeral.Accepts .int w → ∃ m : Magnitude, m.text = '0' :: w := by
    intro hint
    obtain ⟨p, hp⟩ := reader_decimal.exists_positional (c := '0') rfl hint
    exact ⟨.decimal p, hp⟩
  cases w with
  | nil => exact hdecimal (numeral.accepts_nil.mpr rfl)
  | cons c cs =>
    obtain ⟨s, hs, hcs⟩ := numeral.accepts_cons.mp h
    by_cases hc : c = 'x' ∨ c = 'X'
    · rw [show numeral.step .zero c = some .hex from if_pos hc] at hs
      rw [← Option.some.inj hs] at hcs
      obtain ⟨p, rfl⟩ := exists_positional_of_hex hcs
      exact ⟨.hexadecimal c hc p, rfl⟩
    · rw [show numeral.step .zero c = numeral.step .int c from if_neg hc] at hs
      exact hdecimal (numeral.accepts_cons.mpr ⟨s, hs, hcs⟩)

/-- What a number may begin with behind its sign. -/
def Begins (c : Char) : Prop := c.isAlphanum = true ∨ c = '.'

/-- That is neither white space nor a sign. -/
theorem Begins.ne {c : Char} (h : Begins c) : isspace c = false ∧ c ≠ '+' ∧ c ≠ '-' := by
  have hne : ∀ d : Char, d.isAlphanum = false → d ≠ '.' → c ≠ d := by
    intro d hd hpoint heq
    rcases h with h | h
    · rw [heq, hd] at h
      exact absurd h (by simp)
    · exact hpoint (heq ▸ h)
  refine ⟨?_, hne '+' rfl (by simp), hne '-' rfl (by simp)⟩
  simp [isspace, hne ' ' rfl (by simp), hne '\t' rfl (by simp), hne '\n' rfl (by simp),
    hne '\x0b' rfl (by simp), hne '\x0c' rfl (by simp), hne '\r' rfl (by simp)]

theorem begins_of_isAlpha {c : Char} (h : c.isAlpha = true) : Begins c :=
  .inl (Bool.or_eq_true_iff.mpr (.inl h))

theorem begins_of_isDigit {c : Char} (h : c.isDigit = true) : Begins c :=
  .inl (Bool.or_eq_true_iff.mpr (.inr h))

/-- `blank`, in front of anything but white space. -/
theorem step_blank {c : Char} (h : isspace c = false) : numeral.step .blank c =
    if c = '+' ∨ c = '-' then some .sign else NumState.first c :=
  if_neg (by simp [h])

theorem exists_word {c : Char} {w : Text} (hc : c.isAlpha = true)
    (h : numeral.Accepts .sign (c :: w)) : ∃ m : Magnitude, m.text = c :: w := by
  obtain ⟨hspace, hplus, hminus⟩ := (begins_of_isAlpha hc).ne
  have hblank : numeral.Accepts .blank (c :: w) := by
    rw [Matcher.accepts_cons, step_blank hspace, if_neg (by simp [hplus, hminus])]
    exact numeral.accepts_cons.mp h
  have hflush : Flush (c :: w) := ⟨by simp, by simpa using hspace⟩
  exact ⟨.word c w hc ((isNumeral_iff_run hflush).mpr hblank), rfl⟩

/-- Behind the sign. -/
theorem exists_magnitude {w : Text} (h : numeral.Accepts .sign w) :
    ∃ m : Magnitude, m.text = w := by
  cases w with
  | nil => exact absurd (numeral.accepts_nil.mp h) (by simp [numeral, NumState.accept])
  | cons c cs =>
    obtain ⟨s, hs, hcs⟩ := numeral.accepts_cons.mp h
    change NumState.first c = some s at hs
    unfold NumState.first at hs
    split at hs
    · rename_i hc
      rw [← Option.some.inj hs] at hcs
      rw [hc]
      exact exists_magnitude_of_zero hcs
    split at hs
    · rename_i hc
      rw [← Option.some.inj hs] at hcs
      obtain ⟨p, hp⟩ := reader_decimal.exists_positional hc hcs
      exact ⟨.decimal p, hp⟩
    split at hs
    · rename_i hc
      rw [← Option.some.inj hs] at hcs
      rw [hc]
      exact exists_decimal_of_point hcs
    -- the two words
    split at hs
    · rename_i hc
      exact exists_word (by rcases hc with rfl | rfl <;> rfl) h
    split at hs
    · rename_i hc
      exact exists_word (by rcases hc with rfl | rfl <;> rfl) h
    · exact absurd hs (by simp)

/-- **Every number `strtod` reads to its end has one of the forms.** -/
theorem IsNumeral.exists_numeral {w : Text} (h : IsNumeral w) : ∃ n : Numeral, n.text = w := by
  have hacc : numeral.Accepts .blank w := (isNumeral_iff_run h.1).mp h
  cases w with
  | nil => exact absurd rfl h.1.1
  | cons c cs =>
    have hspace : isspace c = false := h.1.2 c rfl
    obtain ⟨s, hs, hcs⟩ := numeral.accepts_cons.mp hacc
    rw [step_blank hspace] at hs
    split at hs
    · rename_i hc
      rw [← Option.some.inj hs] at hcs
      obtain ⟨m, rfl⟩ := exists_magnitude hcs
      rcases hc with rfl | rfl
      · exact ⟨⟨.plus, m⟩, rfl⟩
      · exact ⟨⟨.minus, m⟩, rfl⟩
    · obtain ⟨m, hm⟩ := exists_magnitude (numeral.accepts_cons.mpr ⟨s, hs, hcs⟩)
      exact ⟨⟨.none, m⟩, hm⟩

end CLib
end TsnController

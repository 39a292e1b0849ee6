import Mathlib.Tactic.Common
import TsnController.Lib.LongestMatch

/-!
# C strings and the number readers of `stdlib.h`

A C string is the list of its characters before the terminator, one `Char` per `char`, and a
pointer into it is the suffix it points at: `*p` is the head, `p + 1` the tail, the terminator is
the empty list. Two pointers into one string are equal iff the suffixes are equally long.

`strtod` is specified by the *subject sequence*: the longest initial part of the string that has
the form of a number. The four forms (decimal, hexadecimal, `INF`/`INFINITY`,
`NAN`/`NAN(chars)`, each after an optional sign and leading white space) are the automaton
`numeral`; the sources never call `setlocale`, so the radix character is the point. Only the end
pointer is modelled here, which is all `json_set_value` looks at.
-/

set_option autoImplicit false

namespace TsnController
namespace CLib

open Lib

abbrev Text := List Char

/-- The terminator. -/
def nul : Char := '\x00'

/-! ## `ctype.h`, in the "C" locale -/

def isspace (c : Char) : Bool :=
  c == ' ' || c == '\t' || c == '\n' || c == '\x0b' || c == '\x0c' || c == '\r'

def isxdigit (c : Char) : Bool :=
  c.isDigit || ('a' ≤ c && c ≤ 'f') || ('A' ≤ c && c ≤ 'F')

/-! ## `strtod` -/

/-- How far into which form of number the reader is. -/
inductive NumState
  | blank
  | sign
  | zero
  | int
  | point
  | frac
  | exp
  | expSign
  | expDigits
  | hex
  | hexInt
  | hexPoint
  | hexFrac
  | binExp
  | binExpSign
  | binExpDigits
  /-- inside `INFINITY`, with these letters to come -/
  | inf (rest : Text)
  /-- inside `NAN`, with these letters to come -/
  | nan (rest : Text)
  | nanChars
  | nanClosed
  deriving DecidableEq, Repr

namespace NumState

/-- The first character after the optional sign. -/
def first (c : Char) : Option NumState :=
  if c = '0' then some .zero
  else if c.isDigit then some .int
  else if c = '.' then some .point
  else if c = 'i' ∨ c = 'I' then some (.inf ['n', 'f', 'i', 'n', 'i', 't', 'y'])
  else if c = 'n' ∨ c = 'N' then some (.nan ['a', 'n'])
  else none

/-- After a digit of the integer part. -/
def afterInt (c : Char) : Option NumState :=
  if c.isDigit then some .int
  else if c = '.' then some .frac
  else if c = 'e' ∨ c = 'E' then some .exp
  else none

/-- The digits of an exponent whose marker or sign was just read. -/
def exponent (digits : NumState) (c : Char) : Option NumState :=
  if c.isDigit then some digits else none

def step : NumState → Char → Option NumState
  | .blank, c =>
    if isspace c then some .blank
    else if c = '+' ∨ c = '-' then some .sign
    else first c
  | .sign, c => first c
  -- "0x" is a hexadecimal prefix only if a hexadecimal digit follows; otherwise the "0" stands.
  | .zero, c => if c = 'x' ∨ c = 'X' then some .hex else afterInt c
  | .int, c => afterInt c
  | .point, c => if c.isDigit then some .frac else none
  | .frac, c =>
    if c.isDigit then some .frac else if c = 'e' ∨ c = 'E' then some .exp else none
  | .exp, c => if c = '+' ∨ c = '-' then some .expSign else exponent .expDigits c
  | .expSign, c => exponent .expDigits c
  | .expDigits, c => exponent .expDigits c
  | .hex, c =>
    if isxdigit c then some .hexInt else if c = '.' then some .hexPoint else none
  | .hexInt, c =>
    if isxdigit c then some .hexInt
    else if c = '.' then some .hexFrac
    else if c = 'p' ∨ c = 'P' then some .binExp
    else none
  | .hexPoint, c => if isxdigit c then some .hexFrac else none
  | .hexFrac, c =>
    if isxdigit c then some .hexFrac else if c = 'p' ∨ c = 'P' then some .binExp else none
  | .binExp, c => if c = '+' ∨ c = '-' then some .binExpSign else exponent .binExpDigits c
  | .binExpSign, c => exponent .binExpDigits c
  | .binExpDigits, c => exponent .binExpDigits c
  | .inf [], _ => none
  | .inf (d :: rest), c => if c.isAlpha && c.toLower == d then some (.inf rest) else none
  | .nan [], c => if c = '(' then some .nanChars else none
  | .nan (d :: rest), c => if c.isAlpha && c.toLower == d then some (.nan rest) else none
  | .nanChars, c =>
    if c.isAlphanum || c == '_' then some .nanChars
    else if c = ')' then some .nanClosed
    else none
  | .nanClosed, _ => none

def accept : NumState → Bool
  | .zero | .int | .frac | .expDigits | .hexInt | .hexFrac | .binExpDigits | .nanClosed => true
  | .inf rest => rest = [] || rest = ['i', 'n', 'i', 't', 'y']
  | .nan rest => rest = []
  | _ => false

end NumState

/-- The subject sequence of `strtod`. -/
def numeral : Matcher NumState Char where
  step := NumState.step
  accept := NumState.accept

/-- `end - str` after `strtod(str, &end)`: zero when no conversion can be performed. -/
def strtodEnd (str : Text) : Nat := (numeral.munch .blank str).getD 0

/-- The characters a number is written with. -/
def numChar (c : Char) : Bool :=
  c.isAlphanum || c == '+' || c == '-' || c == '.' || c == '(' || c == ')' || c == '_'

theorem numChar_of_isDigit {c : Char} (h : c.isDigit = true) : numChar c = true := by
  simp [numChar, Char.isAlphanum, h]

theorem numChar_of_isAlpha {c : Char} (h : c.isAlpha = true) : numChar c = true := by
  simp [numChar, Char.isAlphanum, h]

theorem numChar_of_isxdigit {c : Char} (h : isxdigit c = true) : numChar c = true := by
  simp only [isxdigit, Bool.or_eq_true, Bool.and_eq_true, decide_eq_true_eq] at h
  rcases h with (h | ⟨hlo, hhi⟩) | ⟨hlo, hhi⟩
  · exact numChar_of_isDigit h
  · refine numChar_of_isAlpha ?_
    have hz : c ≤ 'z' := Char.le_trans hhi (by decide)
    have hlower : c.isLower = true :=
      Bool.and_eq_true_iff.mpr ⟨decide_eq_true hlo, decide_eq_true hz⟩
    exact Bool.or_eq_true_iff.mpr (Or.inr hlower)
  · refine numChar_of_isAlpha ?_
    have hz : c ≤ 'Z' := Char.le_trans hhi (by decide)
    have hupper : c.isUpper = true := decide_eq_true ⟨hlo, hz⟩
    exact Bool.or_eq_true_iff.mpr (Or.inl hupper)

/-! ## Where a number ends

`strtod` skips white space in front of a number and nowhere else: once it has left `blank` it
reads only the characters a number is written with. That is the locality `json_set_value` relies
on, stated once for every state. -/

theorem numChar_of_eq {c d : Char} (hd : numChar d = true) (h : c = d) : numChar c = true := by
  rwa [h]

theorem numChar_of_eq_or {c d e : Char} (hd : numChar d = true) (he : numChar e = true)
    (h : c = d ∨ c = e) : numChar c = true := by
  rcases h with h | h
  · exact numChar_of_eq hd h
  · exact numChar_of_eq he h

namespace NumState

/-- If there is a next state after `c`, then `c` is a number character and the white space is
behind. -/
def Takes (c : Char) (next : Option NumState) : Prop :=
  ∀ s, next = some s → numChar c = true ∧ s ≠ .blank

theorem takes_none (c : Char) : Takes c none := by
  intro s h
  cases h

/-- One branch of a transition. -/
theorem takes_ite {c : Char} {p : Prop} [Decidable p] {s : NumState} {next : Option NumState}
    (hc : p → numChar c = true) (hs : s ≠ .blank) (h : Takes c next) :
    Takes c (if p then some s else next) := by
  intro s' h'
  split at h'
  · rename_i hp
    cases h'
    exact ⟨hc hp, hs⟩
  · exact h s' h'

theorem takes_first (c : Char) : Takes c (first c) := by
  unfold first
  apply takes_ite (numChar_of_eq rfl) (by simp)
  apply takes_ite numChar_of_isDigit (by simp)
  apply takes_ite (numChar_of_eq rfl) (by simp)
  apply takes_ite (numChar_of_eq_or rfl rfl) (by simp)
  apply takes_ite (numChar_of_eq_or rfl rfl) (by simp)
  exact takes_none c

theorem takes_afterInt (c : Char) : Takes c (afterInt c) := by
  unfold afterInt
  apply takes_ite numChar_of_isDigit (by simp)
  apply takes_ite (numChar_of_eq rfl) (by simp)
  apply takes_ite (numChar_of_eq_or rfl rfl) (by simp)
  exact takes_none c

theorem takes_exponent {digits : NumState} (hd : digits ≠ .blank) (c : Char) :
    Takes c (exponent digits c) := by
  unfold exponent
  apply takes_ite numChar_of_isDigit hd
  exact takes_none c

/-- A letter of `INFINITY` or `NAN`. -/
theorem takes_letter {s : NumState} (hs : s ≠ .blank) (c d : Char) :
    Takes c (if c.isAlpha && c.toLower == d then some s else none) := by
  apply takes_ite _ hs (takes_none c)
  intro hc
  exact numChar_of_isAlpha (Bool.and_eq_true_iff.mp hc).1

theorem takes_nanChars (c : Char) : Takes c (step .nanChars c) := by
  apply takes_ite _ (by simp)
  · apply takes_ite (numChar_of_eq rfl) (by simp)
    exact takes_none c
  · intro hc
    rcases Bool.or_eq_true_iff.mp hc with hc | hc
    · simp [numChar, hc]
    · simp [numChar, hc]

theorem takes_step {s : NumState} (hs : s ≠ .blank) (c : Char) : Takes c (step s c) := by
  cases s with
  | blank => exact absurd rfl hs
  | sign => exact takes_first c
  | zero => exact takes_ite (numChar_of_eq_or rfl rfl) (by simp) (takes_afterInt c)
  | int => exact takes_afterInt c
  | point => exact takes_ite numChar_of_isDigit (by simp) (takes_none c)
  | frac =>
    apply takes_ite numChar_of_isDigit (by simp)
    exact takes_ite (numChar_of_eq_or rfl rfl) (by simp) (takes_none c)
  | exp => exact takes_ite (numChar_of_eq_or rfl rfl) (by simp) (takes_exponent (by simp) c)
  | expSign => exact takes_exponent (by simp) c
  | expDigits => exact takes_exponent (by simp) c
  | hex =>
    apply takes_ite numChar_of_isxdigit (by simp)
    exact takes_ite (numChar_of_eq rfl) (by simp) (takes_none c)
  | hexInt =>
    apply takes_ite numChar_of_isxdigit (by simp)
    apply takes_ite (numChar_of_eq rfl) (by simp)
    exact takes_ite (numChar_of_eq_or rfl rfl) (by simp) (takes_none c)
  | hexPoint => exact takes_ite numChar_of_isxdigit (by simp) (takes_none c)
  | hexFrac =>
    apply takes_ite numChar_of_isxdigit (by simp)
    exact takes_ite (numChar_of_eq_or rfl rfl) (by simp) (takes_none c)
  | binExp => exact takes_ite (numChar_of_eq_or rfl rfl) (by simp) (takes_exponent (by simp) c)
  | binExpSign => exact takes_exponent (by simp) c
  | binExpDigits => exact takes_exponent (by simp) c
  | inf rest =>
    cases rest with
    | nil => exact takes_none c
    | cons d rest => exact takes_letter (by simp) c d
  | nan rest =>
    cases rest with
    | nil => exact takes_ite (numChar_of_eq rfl) (by simp) (takes_none c)
    | cons d rest => exact takes_letter (by simp) c d
  | nanChars => exact takes_nanChars c
  | nanClosed => exact takes_none c

/-- **Past the leading white space only number characters are read**, and the reader never
comes back to it. -/
theorem step_spec {s s' : NumState} {c : Char} (h : step s c = some s') :
    (s = .blank ∧ isspace c = true ∧ s' = .blank) ∨ (numChar c = true ∧ s' ≠ .blank) := by
  by_cases hs : s = .blank
  · subst hs
    simp only [step] at h
    split at h
    · rename_i hc
      cases h
      exact Or.inl ⟨rfl, hc, rfl⟩
    · exact Or.inr (takes_ite (numChar_of_eq_or rfl rfl) (by simp) (takes_first c) s' h)
  · exact Or.inr (takes_step hs c s' h)

end NumState

theorem run_of_ne_blank {s s' : NumState} {w : Text} (hs : s ≠ .blank)
    (h : numeral.run s w = some s') : s' ≠ .blank ∧ ∀ c ∈ w, numChar c = true := by
  induction w generalizing s with
  | nil =>
    simp only [Matcher.run, Option.some.injEq] at h
    exact ⟨h ▸ hs, by simp⟩
  | cons c cs ih =>
    obtain ⟨t, ht, hrun⟩ := Option.bind_eq_some_iff.mp h
    rcases NumState.step_spec ht with ⟨hb, _, _⟩ | ⟨hc, htb⟩
    · exact absurd hb hs
    · obtain ⟨hne, hall⟩ := ih htb hrun
      exact ⟨hne, by simpa using ⟨hc, hall⟩⟩

/-- A text does not start with white space. -/
def Flush (w : Text) : Prop := w ≠ [] ∧ ∀ c ∈ w.head?, isspace c = false

instance (w : Text) : Decidable (Flush w) :=
  decidable_of_iff (w ≠ [] ∧ (w.head?.all fun c => !isspace c) = true)
    (by cases w <;> simp [Flush])

theorem run_of_flush {s' : NumState} {w : Text} (hw : Flush w)
    (h : numeral.run .blank w = some s') : s' ≠ .blank ∧ ∀ c ∈ w, numChar c = true := by
  cases w with
  | nil => exact absurd rfl hw.1
  | cons c cs =>
    obtain ⟨t, ht, hrun⟩ := Option.bind_eq_some_iff.mp h
    rcases NumState.step_spec (s := .blank) ht with ⟨_, hsp, _⟩ | ⟨hc, htb⟩
    · exact absurd hsp (by simp [hw.2 c (by simp)])
    · obtain ⟨hne, hall⟩ := run_of_ne_blank htb hrun
      exact ⟨hne, by simpa using ⟨hc, hall⟩⟩

/-- A number as `json_set_value` wants it: `strtod` consumes all of it. -/
def IsNumeral (w : Text) : Prop := Flush w ∧ strtodEnd w = w.length

instance (w : Text) : Decidable (IsNumeral w) := inferInstanceAs (Decidable (_ ∧ _))

theorem isNumeral_iff_run {w : Text} (hw : Flush w) :
    IsNumeral w ↔ ∃ s, numeral.run .blank w = some s ∧ numeral.accept s = true := by
  constructor
  · rintro ⟨_, hend⟩
    have hpos : 0 < w.length := List.length_pos_iff.mpr hw.1
    cases hm : numeral.munch .blank w with
    | none => rw [strtodEnd, hm, Option.getD_none] at hend; omega
    | some n =>
      rw [strtodEnd, hm, Option.getD_some] at hend
      obtain ⟨_, s, hs, hacc⟩ := numeral.munch_sound hm
      exact ⟨s, by rwa [hend, List.take_length] at hs, hacc⟩
  · rintro ⟨s, hs, hacc⟩
    have hm := numeral.munch_exact (v := []) hs hacc (by simp)
    exact ⟨hw, by simp [strtodEnd, List.append_nil w ▸ hm]⟩

theorem IsNumeral.numChar {w : Text} (h : IsNumeral w) : ∀ c ∈ w, numChar c = true := by
  obtain ⟨s, hs, _⟩ := (isNumeral_iff_run h.1).mp h
  exact (run_of_flush h.1 hs).2

/-- `strtod` cannot read on from a non-blank state over anything but a number character. -/
theorem step_eq_none {s : NumState} {c : Char} (hs : s ≠ .blank)
    (hc : CLib.numChar c = false) : numeral.step s c = none := by
  cases h : numeral.step s c with
  | none => rfl
  | some s' =>
    rcases NumState.step_spec h with ⟨hb, _, _⟩ | ⟨hn, _⟩
    · exact absurd hb hs
    · exact absurd hn (by simp [hc])

/-- **What follows a number does not matter** as long as it is not a number character. -/
theorem IsNumeral.strtodEnd_append {w v : Text} (h : IsNumeral w)
    (hv : ∀ c ∈ v.head?, CLib.numChar c = false) : strtodEnd (w ++ v) = w.length := by
  obtain ⟨s, hs, hacc⟩ := (isNumeral_iff_run h.1).mp h
  have hne := (run_of_flush h.1 hs).1
  have hm := numeral.munch_exact (v := v) hs hacc (fun c hc => step_eq_none hne (hv c hc))
  simp [strtodEnd, hm]

/-- … and a text that `strtod` reads to its end at least is a number. -/
theorem isNumeral_of_le_strtodEnd {w v : Text} (hw : Flush w)
    (hv : ∀ c ∈ v.head?, CLib.numChar c = false) (h : w.length ≤ strtodEnd (w ++ v)) :
    IsNumeral w := by
  refine (isNumeral_iff_run hw).mpr ?_
  have hpos : 0 < w.length := List.length_pos_iff.mpr hw.1
  cases hm : numeral.munch .blank (w ++ v) with
  | none => rw [strtodEnd, hm, Option.getD_none] at h; omega
  | some n =>
    rw [strtodEnd, hm, Option.getD_some] at h
    exact numeral.run_of_munch hm h
      (fun s hs c hc => step_eq_none (run_of_flush hw hs).1 (hv c hc))

/-! ## `strtoul`, and the conversions of its result -/

/-- The digits in front of `str`, read in base ten onto `acc`. -/
def readDigits : Nat → Text → Nat
  | acc, [] => acc
  | acc, c :: cs => if c.isDigit then readDigits (acc * 10 + (c.toNat - '0'.toNat)) cs else acc

def ulongMax : Nat := 0xffffffffffffffff

/-- The optional sign the two readers of whole numbers take. -/
def splitSign : Text → Bool × Text
  | '-' :: rest => (true, rest)
  | '+' :: rest => (false, rest)
  | rest => (false, rest)

/-- `strtoul(str, NULL, 10)`: white space, an optional sign, digits. Out of range it is
`ULONG_MAX`; a minus sign negates in the unsigned type. -/
def strtoul (str : Text) : Nat :=
  let (negative, str) := splitSign (str.dropWhile isspace)
  let n := readDigits 0 str
  if ulongMax < n then ulongMax else if negative then (ulongMax + 1 - n) % (ulongMax + 1) else n

def longMax : Nat := 0x7fffffffffffffff

/-- `strtol(str, NULL, 10)`: as `strtoul`, into the signed type. Out of range it is `LONG_MAX` or
`LONG_MIN`. -/
def strtol (str : Text) : Int :=
  let (negative, str) := splitSign (str.dropWhile isspace)
  let n := readDigits 0 str
  if negative then -(if longMax + 1 < n then longMax + 1 else n : Nat)
  else (if longMax < n then longMax else n : Nat)

/-- `(int)` of an `unsigned long`. -/
def toInt (n : Nat) : Int := Int.bmod n 0x100000000

/-- The largest `int`. -/
def intMax : Nat := 0x7fffffff

/-- Decimal digits only. -/
def Digits (w : Text) : Prop := ∀ c ∈ w, c.isDigit = true

theorem readDigits_of_digits {w : Text} (h : Digits w) : ∀ acc,
    readDigits acc w = Nat.ofDigitChars 10 w acc := by
  induction w with
  | nil => intro acc; rfl
  | cons c cs ih =>
    intro acc
    unfold readDigits
    rw [if_pos (h c List.mem_cons_self), ih fun d hd => h d (List.mem_cons_of_mem c hd),
      Nat.ofDigitChars_cons, Nat.mul_comm acc 10]

theorem strtoul_of_digits {w : Text} (h : Digits w) (hle : Nat.ofDigitChars 10 w 0 ≤ ulongMax) :
    strtoul w = Nat.ofDigitChars 10 w 0 := by
  have hread := readDigits_of_digits h 0
  cases w with
  | nil => rfl
  | cons c cs =>
    have hc : c.isDigit = true := h c List.mem_cons_self
    have hspace : isspace c = false := by
      apply Bool.eq_false_iff.mpr
      intro hsp
      simp only [isspace, Bool.or_eq_true, beq_iff_eq] at hsp
      rcases hsp with ((((rfl | rfl) | rfl) | rfl) | rfl) | rfl <;> exact absurd hc (by decide)
    -- a digit is no sign
    have hsign : splitSign (c :: cs) = (false, c :: cs) := by
      unfold splitSign
      split
      · rename_i heq
        cases heq
        exact absurd hc (by decide)
      · rename_i heq
        cases heq
        exact absurd hc (by decide)
      · rfl
    unfold strtoul
    simp only [List.dropWhile_cons_of_neg (Bool.not_eq_true _ ▸ hspace), hsign, hread,
      Bool.false_eq_true, if_false]
    exact if_neg (Nat.not_lt.mpr hle)

theorem toInt_of_lt {n : Nat} (h : n < 0x80000000) : toInt n = n := by
  unfold toInt
  apply Int.bmod_eq_of_le <;> omega

theorem lt_of_toInt_eq {n : Nat} (h : toInt n = n) : n < 0x80000000 := by
  have hlt : toInt n < (0x100000000 + 1) / 2 := Int.bmod_lt (by decide)
  omega

/-! ## `exit` -/

/-- How a program ends before its time. -/
inductive Halt
  | exit (code : Nat)
  /-- what the language leaves undefined: writing past the end of a buffer, overflow of an `int` -/
  | undefined
  deriving DecidableEq, Repr

end CLib
end TsnController

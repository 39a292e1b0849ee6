import TsnController.Client.Legacy
import TsnController.Client.Output
import TsnController.Lib.Rounding

/-!
# `Main.c`: the cycle time as a `float`

`Client.Emit` computes with whole numbers where the source has a `float`: a period is converted,
`500.0f` is divided by it and the quotient is cut off to an `int`. Both the conversion and the
division round. Here they do, in any direction a machine may be set to, and what is written is the
same (`xmlWriteInstanceFloat_eq`).

There are two reasons. A period of up to 500 is exact, and the distance of a quotient from the next
whole number, if it is not one, is far above what a rounding can move it by. And a period above 500,
exact or not, stays above 500, so that the quotient stays below one.
-/

set_option autoImplicit false

namespace TsnController
namespace Client

open CLib Lib

/-- A `float` that is not negative: a number of the format, or infinity. -/
abbrev FloatValue := Option {x : ℚ // binary32.Representable x}

section Operations

variable (R : Rounding binary32)

/-- The result of an operation whose exact result is not negative. -/
def rounded (x : ℚ) : FloatValue :=
  if h : 0 ≤ x ∧ x ≤ binary32.largest then some ⟨R.round x, R.representable h.1 h.2⟩ else none

/-- `(float)n`. -/
def floatOfNat (n : Nat) : FloatValue := rounded R n

def floatDiv : FloatValue → FloatValue → FloatValue
  | some a, some b => if b.1 = 0 then none else rounded R (a.1 / b.1)
  | some _, none => rounded R 0
  | none, _ => none

/-- `(int)x`. -/
def intOfFloat (castInf : Int) : FloatValue → Int
  | none => castInf
  | some x => ⌊x.1⌋

/-- The operations of the machine. -/
def machineFloats (castInf : Int) : FloatOps where
  Float := FloatValue
  fiveHundred := floatOfNat R 500
  div := floatDiv R
  toInt := intOfFloat castInf

/-- The pass over all ports. -/
def hypercycleFloat (ports : List Port) : FloatValue :=
  ports.foldl (fun h port => port.values.values.foldl (fun _ v => floatOfNat R v.period) h)
    (floatOfNat R 0)

def xmlWritePortAllFloat (castInf : Int) (port : Port) (hypercycle : FloatValue) : Text :=
  xmlWritePort port.number (adminControlListLength port.values.values)
  ++ xmlWriteEntries 0 port.values.values
  ++ xmlWriteValuesEndFloat (machineFloats R castInf) hypercycle

def instanceTextFloat (castInf : Int) (sw : Switch) : Text :=
  "<?xml version=\"1.0\" encoding=\"UTF-8\"?>\n".toList
  ++ "<if:interfaces xmlns:if=\"urn:ietf:params:xml:ns:yang:ietf-interfaces\">\n".toList
  ++ sw.portList.values.flatMap (fun port =>
      xmlWritePortAllFloat R castInf port (hypercycleFloat R sw.portList.values))
  ++ "</if:interfaces>\n".toList

def xmlWriteInstanceFloat (opens : Text → Bool) (castInf : Int) (list : CellList Switch) :
    Outcome :=
  writeFiles opens (list.values.map fun sw => (outputPath sw.name, instanceTextFloat R castInf sw))

end Operations

/-! ## The quotient -/

section Quotient

variable {R : Rounding binary32}

/-- Whole numbers up to `2 ^ 24` times a power of two. -/
theorem representable_mul {m : Nat} {e : Int} (hm : m < 2 ^ 24) (he : -149 ≤ e) (he' : e ≤ 104) :
    binary32.Representable (m * 2 ^ e) :=
  ⟨m, e, hm, he, he', rfl⟩

theorem representable_natCast {m : Nat} (hm : m < 2 ^ 24) : binary32.Representable m := by
  have h := representable_mul hm (show (-149 : Int) ≤ 0 by decide) (by decide)
  rwa [zpow_zero, mul_one] at h

theorem representable_pow {k : Nat} (hk : k ≤ 104) : binary32.Representable (2 ^ k) := by
  have h := representable_mul (show 1 < 2 ^ 24 by decide) (show (-149 : Int) ≤ k by omega)
    (by omega)
  rwa [Nat.cast_one, one_mul, zpow_natCast] at h

theorem rounded_eq {x : ℚ} (hx : 0 ≤ x) (hle : x ≤ binary32.largest) :
    rounded R x = some ⟨R.round x, R.representable hx hle⟩ :=
  dif_pos ⟨hx, hle⟩

/-- A number of the format is its own result. -/
theorem rounded_of_representable {x : ℚ} (hx : binary32.Representable x) :
    rounded R x = some ⟨x, hx⟩ := by
  rw [rounded_eq hx.nonneg hx.le_largest]
  exact congrArg some (Subtype.ext (R.exact hx))

/-- What is cut off does not depend on the rounding, if a number of the format separates the exact
result from the next whole number. -/
theorem intOfFloat_rounded (castInf : Int) {k : Nat} {x y : ℚ} (hk : binary32.Representable k)
    (hkx : (k : ℚ) ≤ x) (hxy : x ≤ y) (hy : binary32.Representable y) (hlt : y < k + 1) :
    intOfFloat castInf (rounded R x) = k := by
  have hx : 0 ≤ x := hk.nonneg.trans hkx
  have hle : x ≤ binary32.largest := hxy.trans hy.le_largest
  rw [rounded_eq hx hle]
  show ⌊R.round x⌋ = (k : Int)
  rw [Int.floor_eq_iff]
  exact ⟨by exact_mod_cast R.le_round hk hkx hle,
    by exact_mod_cast (R.round_le hx hxy hy).trans_lt hlt⟩

/-- A period that is exact. -/
theorem quotient_of_le (castInf : Int) {p : Nat} (hpos : 0 < p) (hp : p ≤ 500) :
    intOfFloat castInf (rounded R (500 / p)) = (500 / p : Nat) := by
  have hp0 : (0 : ℚ) < p := by exact_mod_cast hpos
  have hk : 500 / p ≤ 500 := Nat.div_le_self 500 p
  -- the next whole number without its last bit
  have hy : binary32.Representable ((((500 / p + 1) * 2 ^ 15 - 1 : Nat) : ℚ) * 2 ^ (-15 : Int)) :=
    representable_mul (by omega) (by decide) (by decide)
  have hcast : (((500 / p + 1) * 2 ^ 15 - 1 : Nat) : ℚ) = ((500 / p : Nat) + 1) * 2 ^ 15 - 1 := by
    rw [Nat.cast_sub (Nat.mul_pos (Nat.succ_pos _) (by decide))]
    push_cast
    ring
  have hvalue : (((500 / p + 1) * 2 ^ 15 - 1 : Nat) : ℚ) * 2 ^ (-15 : Int) =
      (500 / p : Nat) + 1 - 1 / 2 ^ 15 := by
    rw [hcast]
    norm_num
    ring
  rw [hvalue] at hy
  refine intOfFloat_rounded castInf (representable_natCast (by omega)) ?_ ?_ hy ?_
  · rw [le_div_iff₀ hp0]
    exact_mod_cast Nat.div_mul_le_self 500 p
  · have hnext : (501 : ℚ) ≤ ((500 / p : Nat) + 1) * p := by
      have := Nat.lt_div_mul_add (a := 500) hpos
      have hnat : 501 ≤ (500 / p + 1) * p := by
        rw [Nat.add_mul, Nat.one_mul]
        omega
      exact_mod_cast hnat
    have hp' : (p : ℚ) ≤ 500 := by exact_mod_cast hp
    rw [div_le_iff₀ hp0]
    linarith
  · linarith [show (0 : ℚ) < 1 / 2 ^ 15 by norm_num]

/-- A divisor above 500. -/
theorem quotient_of_lt (castInf : Int) {x : ℚ} (hx : 501 ≤ x) :
    intOfFloat castInf (rounded R (500 / x)) = 0 := by
  have hy : binary32.Representable (((2 ^ 24 - 1 : Nat) : ℚ) * 2 ^ (-24 : Int)) :=
    representable_mul (by decide) (by decide) (by decide)
  have hzero := intOfFloat_rounded (R := R) castInf (k := 0) (x := 500 / x)
    (representable_natCast (by decide)) ?_ ?_ hy ?_
  · exact_mod_cast hzero
  · rw [Nat.cast_zero]
    positivity
  · rw [div_le_iff₀ (by linarith)]
    norm_num
    linarith
  · norm_num

/-- **The number that is written** is the whole part of the exact quotient. -/
theorem denominator_float (castInf : Int) {p : Nat} (hp : p < 2 ^ 64) :
    (machineFloats R castInf).toInt
        ((machineFloats R castInf).div (machineFloats R castInf).fiveHundred (floatOfNat R p)) =
      denominator castInf p := by
  have h500 : floatOfNat R 500 = some ⟨(500 : Nat), representable_natCast (by decide)⟩ :=
    rounded_of_representable _
  show intOfFloat castInf (floatDiv R (floatOfNat R 500) (floatOfNat R p)) = _
  rw [h500, denominator]
  by_cases hexact : p ≤ 500
  · have hfloat : floatOfNat R p = some ⟨p, representable_natCast (by omega)⟩ :=
      rounded_of_representable _
    rw [hfloat, floatDiv]
    by_cases hzero : p = 0
    · have hcast : (p : ℚ) = 0 := by exact_mod_cast hzero
      rw [if_pos hzero, if_pos hcast]
      rfl
    · have hcast : (p : ℚ) ≠ 0 := by exact_mod_cast hzero
      rw [if_neg hzero, if_neg hcast]
      exact quotient_of_le castInf (Nat.pos_of_ne_zero hzero) hexact
  · -- neither the conversion nor the division gets past a number of the format
    have hrange : (501 : Nat) ≤ p := Nat.lt_of_not_le hexact
    have hle : (p : ℚ) ≤ binary32.largest := by
      refine le_trans ?_ (representable_pow (show 64 ≤ 104 by decide)).le_largest
      exact_mod_cast hp.le
    have hround : ((501 : Nat) : ℚ) ≤ R.round p :=
      R.le_round (representable_natCast (by decide)) (by exact_mod_cast hrange) hle
    have hne : R.round p ≠ 0 := by
      intro hzero
      rw [hzero] at hround
      norm_num at hround
    have hquot : (500 : Int) / p = 0 := Int.ediv_eq_zero_of_lt (by decide) (by omega)
    rw [floatOfNat, rounded_eq (by positivity) hle, floatDiv, if_neg hne, if_neg (by omega), hquot]
    exact quotient_of_lt castInf (by exact_mod_cast hround)

end Quotient

/-! ## The text -/

/-- The cycle time is the conversion of the one that is a whole number. -/
theorem hypercycleFloat_eq (R : Rounding binary32) (ports : List Port) :
    hypercycleFloat R ports = floatOfNat R (hypercycle ports) := by
  have hport : ∀ (vs : List PortValues) (h : Nat),
      vs.foldl (fun _ v => floatOfNat R v.period) (floatOfNat R h) =
        floatOfNat R (hypercyclePort h vs) := by
    intro vs
    unfold hypercyclePort
    induction vs with
    | nil => exact fun _ => rfl
    | cons v vs ih => exact fun _ => ih v.period
  have hports : ∀ (ports : List Port) (h : Nat),
      ports.foldl (fun h port => port.values.values.foldl (fun _ v => floatOfNat R v.period) h)
          (floatOfNat R h) =
        floatOfNat R (ports.foldl (fun h port => hypercyclePort h port.values.values) h) := by
    intro ports
    induction ports with
    | nil => exact fun _ => rfl
    | cons port ports ih =>
      intro h
      rw [List.foldl_cons, List.foldl_cons, hport]
      exact ih _
  exact hports ports 0

/-- Every period is an `unsigned long`. -/
def PeriodsFit (sw : Switch) : Prop :=
  ∀ port ∈ sw.portList.values, ∀ v ∈ port.values.values, v.period < 2 ^ 64

instance (sw : Switch) : Decidable (PeriodsFit sw) :=
  inferInstanceAs (Decidable (∀ port ∈ sw.portList.values, ∀ v ∈ port.values.values, _))

theorem hypercycle_lt {sw : Switch} (h : PeriodsFit sw) :
    hypercycle sw.portList.values < 2 ^ 64 := by
  rw [hypercycle_eq]
  exact h _ (List.getLast_mem _) _ (List.getLast_mem _)

theorem instanceTextFloat_eq (R : Rounding binary32) (castInf : Int) {sw : Switch}
    (h : PeriodsFit sw) : instanceTextFloat R castInf sw = instanceText castInf sw := by
  have hend : xmlWriteValuesEndFloat (machineFloats R castInf)
      (hypercycleFloat R sw.portList.values) =
        xmlWriteValuesEnd castInf (hypercycle sw.portList.values) := by
    rw [hypercycleFloat_eq]
    unfold xmlWriteValuesEndFloat
    rw [denominator_float castInf (hypercycle_lt h)]
    rfl
  unfold instanceTextFloat instanceText valuesEndCalls
  rw [List.flatMap_map]
  unfold xmlWritePortAllFloat xmlWritePortAll
  rw [hend]

/-- **The client computes with whole numbers**: with conversions and a division that round, in
whatever direction, it writes the same files. -/
theorem xmlWriteInstanceFloat_eq (R : Rounding binary32) (opens : Text → Bool) (castInf : Int)
    (list : CellList Switch) (h : ∀ sw ∈ list.values, PeriodsFit sw) :
    xmlWriteInstanceFloat R opens castInf list = xmlWriteInstance opens castInf list := by
  refine congrArg (writeFiles opens) (List.map_congr_left fun sw hsw => ?_)
  rw [instanceTextFloat_eq R castInf (h sw hsw)]

/-- Two ports with the longest period there is, which is not exact. -/
def longPeriods : CellList Switch :=
  let port (number : Int) : Port :=
    ⟨number, (switchCreatePortValuesList default).push ⟨18446744073709551615, 1⟩⟩
  (switchCreateList default).push
    ⟨"a".toList, ((switchCreatePortList default).push (port 1)).push (port 2)⟩

theorem xmlWriteInstanceFloat_long :
    xmlWriteInstanceFloat (nearestEven binary32) (fun _ => true) 0 longPeriods =
      xmlWriteInstance (fun _ => true) 0 longPeriods :=
  xmlWriteInstanceFloat_eq (nearestEven binary32) (fun _ => true) 0 longPeriods (by decide)

end Client
end TsnController

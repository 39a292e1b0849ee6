import Mathlib.Data.Rat.Floor
import TsnController.Client.Output
import TsnController.Client.Document

/-!
# The cycle time as a fraction

A port's cycle time is written as `500 / d`, where `d` is what is left of `500 / hypercycle` after
a conversion to `int`. The fraction stands for seconds and the periods are nanoseconds; the older
reader of configurations divides its sum of periods by 1000000000 before it uses it, this one does
not. So `d` is a denominator only for cycles of at most 500 nanoseconds, and `0` for every other.

What is not in question is the division itself: as long as no period is `0` the divisor is not,
however many ports and entries there are, because it is one of the periods.
-/

set_option autoImplicit false

namespace TsnController
namespace Client

open CLib Lib Json

/-- Conversion of an exact quotient to `int`: towards zero. -/
def truncate (q : ℚ) : Int := if 0 ≤ q then ⌊q⌋ else ⌈q⌉

/-- What stands in the last entry of the last port. -/
def lastPeriod (sw : Switch) : Nat :=
  ((lastPort sw).values.values.getLast (lastPort sw).values.values_ne_nil).period

theorem lastPeriod_mem (sw : Switch) : ∃ port ∈ sw.portList.values, ∃ v ∈ port.values.values,
    lastPeriod sw = v.period :=
  ⟨lastPort sw, List.getLast_mem sw.portList.values_ne_nil, _,
    List.getLast_mem (lastPort sw).values.values_ne_nil, rfl⟩

/-- Every port of a switch is given the same cycle time. -/
theorem valuesEndCalls_snd {sw : Switch} {call : Port × Nat} (h : call ∈ valuesEndCalls sw) :
    call.2 = lastPeriod sw := by
  obtain ⟨port, _, rfl⟩ := List.mem_map.mp h
  exact hypercycle_eq sw

/-- There is a port to give it to. -/
theorem exists_mem_valuesEndCalls (sw : Switch) : ∃ call, call ∈ valuesEndCalls sw :=
  ⟨_, List.mem_map_of_mem (List.getLast_mem sw.portList.values_ne_nil)⟩

/-- The whole number written is the exact quotient, truncated. -/
theorem denominator_eq_truncate (castInf : Int) {h : Nat} (hh : h ≠ 0) :
    denominator castInf h = truncate (500 / (h : ℚ)) := by
  have hnonneg : (0 : ℚ) ≤ 500 / (h : ℚ) := by positivity
  have hfloor := Rat.floor_intCast_div_natCast 500 h
  rw [Int.cast_ofNat] at hfloor
  rw [denominator, if_neg hh, truncate, if_pos hnonneg, hfloor]

theorem truncate_pos_iff {h : Nat} (hh : h ≠ 0) :
    (0 < truncate (500 / (h : ℚ)) ∧ truncate (500 / (h : ℚ)) ≤ intMax) ↔ h ≤ 500 := by
  rw [← denominator_eq_truncate 0 hh, denominator, if_neg hh]
  have hpos : (0 : Int) < h := by exact_mod_cast Nat.pos_of_ne_zero hh
  have hle : (500 : Int) / h ≤ 500 := Int.ediv_le_self h (by decide)
  constructor
  · intro hd
    have hone : 1 * (h : Int) ≤ 500 := (Int.le_ediv_iff_mul_le hpos).mp hd.1
    omega
  · intro hsmall
    have hone : (1 : Int) ≤ 500 / h := (Int.le_ediv_iff_mul_le hpos).mpr (by omega)
    exact ⟨hone, le_trans hle (by decide)⟩

/-- **The denominator is one exactly in switches whose last period is at most 500.** With no
period `0` the divisor never is; the denominator of every port is the truncated quotient, and it is
a positive `int` for all of them if and only if the last entry of the last port of every switch has
a period of at most 500. -/
theorem denominator_valid_iff (castInf : Int) (list : CellList Switch)
    (hperiods : ∀ sw ∈ list.values, ∀ port ∈ sw.portList.values, ∀ v ∈ port.values.values,
      1 ≤ v.period) :
    (∀ sw ∈ list.values, ∀ call ∈ valuesEndCalls sw,
      call.2 ≠ 0 ∧ denominator castInf call.2 = truncate (500 / (call.2 : ℚ)) ∧
      0 < denominator castInf call.2 ∧ denominator castInf call.2 ≤ intMax) ↔
    ∀ sw ∈ list.values, lastPeriod sw ≤ 500 := by
  have hne : ∀ sw ∈ list.values, lastPeriod sw ≠ 0 := by
    intro sw hsw
    obtain ⟨port, hport, v, hv, hlast⟩ := lastPeriod_mem sw
    have hone := hperiods sw hsw port hport v hv
    omega
  constructor
  · intro h sw hsw
    obtain ⟨call, hcall⟩ := exists_mem_valuesEndCalls sw
    obtain ⟨hdiv, htrunc, hpos, hmax⟩ := h sw hsw call hcall
    rw [htrunc] at hpos hmax
    rw [← valuesEndCalls_snd hcall]
    exact (truncate_pos_iff hdiv).mp ⟨hpos, hmax⟩
  · intro h sw hsw call hcall
    have hdiv : call.2 ≠ 0 := by
      rw [valuesEndCalls_snd hcall]
      exact hne sw hsw
    have hsmall : call.2 ≤ 500 := by
      rw [valuesEndCalls_snd hcall]
      exact h sw hsw
    have htrunc := denominator_eq_truncate castInf hdiv
    refine ⟨hdiv, htrunc, ?_⟩
    rw [htrunc]
    exact (truncate_pos_iff hdiv).mpr hsmall

/-- A switch with one entry of 125 nanoseconds: `500 / 4`. -/
theorem denominator_valid_iff_small : ∃ list,
    clientList default ("[\x7b\"switch\":\"a\",\"port_list\":[\x7b\"port_number\":1," ++
      "\"values\":[[125,1]]\x7d]\x7d]").toList = some list ∧
    ∀ sw ∈ list.values, ∀ call ∈ valuesEndCalls sw,
      call.2 ≠ 0 ∧ denominator 0 call.2 = truncate (500 / (call.2 : ℚ)) ∧
      0 < denominator 0 call.2 ∧ denominator 0 call.2 ≤ intMax := by
  obtain ⟨list, hlist, hperiods, hlast⟩ : ∃ list,
      clientList default ("[\x7b\"switch\":\"a\",\"port_list\":[\x7b\"port_number\":1," ++
        "\"values\":[[125,1]]\x7d]\x7d]").toList = some list ∧
      (∀ sw ∈ list.values, ∀ port ∈ sw.portList.values, ∀ v ∈ port.values.values,
        1 ≤ v.period) ∧
      ∀ sw ∈ list.values, lastPeriod sw ≤ 500 :=
    exists_of_any (by decide +kernel)
  exact ⟨list, hlist, (denominator_valid_iff 0 list hperiods).mpr hlast⟩

/-- Two entries of the configuration the repository comes with: `500 / 0`. -/
theorem denominator_zero : ∃ list,
    clientList default ("[\x7b\"switch\":\"65\",\"port_list\":[\x7b\"port_number\":1," ++
      "\"values\":[[10000,00100000],[100000,00000000]]\x7d]\x7d]").toList = some list ∧
    (∀ sw ∈ list.values, ∀ port ∈ sw.portList.values, ∀ v ∈ port.values.values, 1 ≤ v.period) ∧
    ∃ sw ∈ list.values, ∃ call ∈ valuesEndCalls sw,
      call.2 ≠ 0 ∧ denominator 0 call.2 = 0 := by
  exact exists_of_any (by decide +kernel)

end Client
end TsnController

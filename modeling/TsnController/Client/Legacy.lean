import TsnController.Client.Emit

/-!
# `parser.c`: the writers before the lists

Before the configuration was kept in lists a port had two arrays, and `writePort` and `writeList`
wrote it. The client's three functions write the same text, entry by entry along a list and with a
length and an index that are counted separately. What differs besides is the conversion of a period:
the old writer prints the `unsigned long` as a `long`.

Both writers divide by the cycle time as a `float` and convert the quotient to `int`. Which numbers
these are makes no difference here, so the operations are a parameter (`FloatOps`). The whole
numbers of `Client.Emit` are one instance (`wholeFloats`), and so what is said here is about the
text of a port as `xml_write_instance` writes it (`xmlWritePortAll_eq`).
-/

set_option autoImplicit false

namespace TsnController
namespace Client

open CLib Lib

/-- The operations on `float` in the two writers, whatever they yield. -/
structure FloatOps where
  Float : Type
  /-- `500.0f` -/
  fiveHundred : Float
  div : Float → Float → Float
  /-- the conversion to `int` -/
  toInt : Float → Int

/-- Whole numbers and infinity. -/
def wholeFloats (castInf : Int) : FloatOps where
  Float := Option Nat
  fiveHundred := some 500
  div
    | some a, some b => if b = 0 then none else some (a / b)
    | _, _ => none
  toInt
    | none => castInf
    | some n => n

/-! ## The client's writers -/

/-- `xml_write_values_end`, for any cycle time. -/
def xmlWriteValuesEndFloat (ops : FloatOps) (hypercycle : ops.Float) : Text :=
  xmlWriteValuesEndWith (ops.toInt (ops.div ops.fiveHundred hypercycle))

/-- The loop over the entries of a port, from an index on. -/
def xmlWritePairs : Nat → List (Nat × Int) → Text
  | _, [] => []
  | index, pair :: pairs =>
    xmlWriteValues pair.1 pair.2 (toInt index) ++ xmlWritePairs (index + 1) pairs

/-! ## The writers of `parser.c` -/

def writePort (portNumber adminControlListLength : Int) : Text :=
  "\t<if:interface>\n".toList
  ++ ("\t\t<if:name>".toList ++ formatD portNumber ++ "</if:name>\n".toList)
  ++ ("\t\t<if:type xmlns:iftype=\"urn:ietf:params:xml:ns:yang:iana-if-type\">" ++
      "iftype:ethernetCsmacd</if:type>\n").toList
  ++ (List.range 8).flatMap (fun i : Nat =>
      ("\t\t<sched:max-sdu-table " ++
        "xmlns:sched=\"urn:ieee:std:802.1Q:yang:ieee802-dot1q-sched\">\n").toList
      ++ ("\t\t\t<sched:traffic-class>".toList ++ formatD i ++ "</sched:traffic-class>\n".toList)
      ++ "\t\t\t<sched:queue-max-sdu>0</sched:queue-max-sdu>\n".toList
      ++ "\t\t</sched:max-sdu-table>\n".toList)
  ++ ("\t\t<sched:gate-parameters xmlns:sched=" ++
      "\"urn:ieee:std:802.1Q:yang:ieee802-dot1q-sched\">\n").toList
  ++ "\t\t\t<sched:gate-enabled>true</sched:gate-enabled>\n".toList
  ++ "\t\t\t<sched:admin-gate-states>0</sched:admin-gate-states>\n".toList
  ++ ("\t\t\t<sched:admin-control-list-length>".toList ++ formatD adminControlListLength
      ++ "</sched:admin-control-list-length>\n".toList)

/-- `%ld` of an `unsigned long`. -/
def formatLd (n : Nat) : Text := formatD (Int.bmod n 0x10000000000000000)

/-- One pass of the `for` in `writeList`. -/
def writeListEntry (period : Nat) (gatesState index : Int) : Text :=
  "\t\t\t<sched:admin-control-list>\n".toList
  ++ ("\t\t\t\t<sched:index>".toList ++ formatD index ++ "</sched:index>\n".toList)
  ++ "\t\t\t\t<sched:operation-name>sched:set-gate-states</sched:operation-name>\n".toList
  ++ "\t\t\t\t<sched:sgs-params>\n".toList
  ++ ("\t\t\t\t\t<sched:gate-states-value>".toList ++ formatD gatesState
      ++ "</sched:gate-states-value>\n".toList)
  ++ ("\t\t\t\t\t<sched:time-interval-value>".toList ++ formatLd period
      ++ "</sched:time-interval-value>\n".toList)
  ++ "\t\t\t\t</sched:sgs-params>\n".toList
  ++ "\t\t\t</sched:admin-control-list>\n".toList

def writeList (ops : FloatOps) (period : Array Nat) (gatesState : Array Int)
    (hypercycle : ops.Float) (adminControlListLength : Int) : Text :=
  let denominator := ops.div ops.fiveHundred hypercycle
  (List.range adminControlListLength.toNat).flatMap
      (fun index : Nat =>
        writeListEntry (period.getD index 0) (gatesState.getD index 0) (toInt index))
  ++ "\t\t\t<sched:admin-cycle-time>\n".toList
  ++ "\t\t\t\t<sched:numerator>500</sched:numerator>\n".toList
  ++ ("\t\t\t\t<sched:denominator>".toList ++ formatD (ops.toInt denominator)
      ++ "</sched:denominator>\n".toList)
  ++ "\t\t\t</sched:admin-cycle-time>\n".toList
  ++ "\t\t\t<sched:admin-base-time>\n".toList
  ++ "\t\t\t\t<sched:seconds>0</sched:seconds>\n".toList
  ++ "\t\t\t\t<sched:fractional-seconds>0</sched:fractional-seconds>\n".toList
  ++ "\t\t\t</sched:admin-base-time>\n".toList
  ++ "\t\t\t<sched:config-change>true</sched:config-change>\n".toList
  ++ "\t\t</sched:gate-parameters>\n".toList
  ++ "\t</if:interface>\n".toList

/-! ## They agree -/

theorem writePort_eq (portNumber adminControlListLength : Int) :
    writePort portNumber adminControlListLength =
      xmlWritePort portNumber adminControlListLength := by
  unfold writePort xmlWritePort xmlWriteTable
  simp only [String.reduceAppend]

/-- Below `2 ^ 63` the two conversions print the same digits. -/
theorem formatLd_eq {n : Nat} (h : n < 0x8000000000000000) : formatLd n = formatLu n := by
  have hbmod : Int.bmod n 0x10000000000000000 = n := by
    apply Int.bmod_eq_of_le
    · omega
    · omega
  rw [formatLd, hbmod, formatD_natCast]
  rfl

theorem writeListEntry_eq {period : Nat} (h : period < 0x8000000000000000)
    (gatesState index : Int) :
    writeListEntry period gatesState index = xmlWriteValues period gatesState index := by
  unfold writeListEntry xmlWriteValues
  rw [formatLd_eq h]

/-- The loop over the arrays is the loop over the list, from any index on. -/
theorem xmlWritePairs_eq {period : Array Nat} {gatesState : Array Int} :
    ∀ {pairs : List (Nat × Int)} {index : Nat}, (∀ pair ∈ pairs, pair.1 < 0x8000000000000000) →
      (∀ i pair, pairs[i]? = some pair →
        period.getD (index + i) 0 = pair.1 ∧ gatesState.getD (index + i) 0 = pair.2) →
      xmlWritePairs index pairs = (List.range' index pairs.length).flatMap
        fun i : Nat => writeListEntry (period.getD i 0) (gatesState.getD i 0) (toInt i) := by
  intro pairs
  induction pairs with
  | nil => intro index _ _; rfl
  | cons pair pairs ih =>
    intro index hperiods harrays
    have hfirst := harrays 0 pair rfl
    rw [Nat.add_zero] at hfirst
    have hshift : ∀ i p, pairs[i]? = some p →
        period.getD (index + 1 + i) 0 = p.1 ∧ gatesState.getD (index + 1 + i) 0 = p.2 := by
      intro i p hp
      rw [Nat.add_right_comm]
      exact harrays (i + 1) p hp
    have hrest := ih (fun p hp => hperiods p (List.mem_cons_of_mem pair hp)) hshift
    rw [xmlWritePairs, hrest, List.length_cons, List.range'_succ, List.flatMap_cons, hfirst.1,
      hfirst.2, writeListEntry_eq (hperiods pair List.mem_cons_self)]

/-- The second function of the old pair is the second and the third of the new ones. -/
theorem writeList_eq (ops : FloatOps) {pairs : List (Nat × Int)}
    (h : ∀ pair ∈ pairs, pair.1 < 0x8000000000000000) (hypercycle : ops.Float) :
    writeList ops (pairs.map Prod.fst).toArray (pairs.map Prod.snd).toArray hypercycle
      pairs.length = xmlWritePairs 0 pairs ++ xmlWriteValuesEndFloat ops hypercycle := by
  have hpairs : xmlWritePairs 0 pairs = (List.range pairs.length).flatMap fun i : Nat =>
      writeListEntry ((pairs.map Prod.fst).toArray.getD i 0)
        ((pairs.map Prod.snd).toArray.getD i 0) (toInt i) := by
    rw [List.range_eq_range']
    apply xmlWritePairs_eq h
    intro i pair hpair
    simp [hpair]
  rw [hpairs]
  unfold xmlWriteValuesEndFloat xmlWriteValuesEndWith writeList
  simp only [List.append_assoc, Int.toNat_natCast]

/-- **The writers agree**, on every list of entries whose periods fit a `long`. -/
theorem writers_agree (ops : FloatOps) (portNumber : Int) (pairs : List (Nat × Int))
    (hypercycle : ops.Float) (h : ∀ pair ∈ pairs, pair.1 < 2 ^ 63) :
    xmlWritePort portNumber pairs.length ++ xmlWritePairs 0 pairs
        ++ xmlWriteValuesEndFloat ops hypercycle =
      writePort portNumber pairs.length
        ++ writeList ops (pairs.map Prod.fst).toArray (pairs.map Prod.snd).toArray hypercycle
          pairs.length := by
  rw [writePort_eq, writeList_eq ops h, List.append_assoc]

/-- Periods at both ends of the range, and a cycle time that the quotient is infinite for. -/
theorem writers_agree_sample :
    xmlWritePort 1 2 ++ xmlWritePairs 0 [(0, 255), (9223372036854775807, -1)]
        ++ xmlWriteValuesEndFloat (wholeFloats 0) (some 0) =
      writePort 1 2 ++ writeList (wholeFloats 0) #[0, 9223372036854775807] #[255, -1] (some 0) 2 :=
  writers_agree (wholeFloats 0) 1 [(0, 255), (9223372036854775807, -1)] (some 0) (by decide)

/-! ## The text of a port -/

theorem xmlWriteValuesEnd_eq (castInf : Int) (hypercycle : Nat) :
    xmlWriteValuesEnd castInf hypercycle =
      xmlWriteValuesEndFloat (wholeFloats castInf) (some hypercycle) := by
  have hden : denominator castInf hypercycle =
      (wholeFloats castInf).toInt ((wholeFloats castInf).div (some 500) (some hypercycle)) := by
    unfold denominator wholeFloats
    by_cases hzero : hypercycle = 0
    · simp only [if_pos hzero]
    · simp only [if_neg hzero]
      rfl
  unfold xmlWriteValuesEnd xmlWriteValuesEndFloat
  rw [hden]
  rfl

/-- An entry as the writers get it. -/
def PortValues.pair (v : PortValues) : Nat × Int := (v.period, binaryToDecimal v.gateStates)

theorem xmlWriteEntries_eq (vs : List PortValues) : ∀ index,
    xmlWriteEntries index vs = xmlWritePairs index (vs.map PortValues.pair) := by
  induction vs with
  | nil => intro index; rfl
  | cons v vs ih =>
    intro index
    rw [xmlWriteEntries, ih (index + 1)]
    rfl

/-- What `xml_write_instance` writes for a port is what was written for it before. -/
theorem xmlWritePortAll_eq (castInf : Int) (port : Port) (hypercycle : Nat)
    (h : ∀ v ∈ port.values.values, v.period < 2 ^ 63)
    (hlength : port.values.values.length < 2 ^ 31) :
    xmlWritePortAll castInf port hypercycle =
      writePort port.number port.values.values.length
        ++ writeList (wholeFloats castInf) (port.values.values.map (·.period)).toArray
          (port.values.values.map fun v => binaryToDecimal v.gateStates).toArray
          (some hypercycle) port.values.values.length := by
  have hpairs : ∀ pair ∈ port.values.values.map PortValues.pair, pair.1 < 0x8000000000000000 := by
    intro pair hpair
    obtain ⟨v, hv, rfl⟩ := List.mem_map.mp hpair
    exact h v hv
  have hlist := writeList_eq (wholeFloats castInf) hpairs (some hypercycle)
  rw [List.map_map, List.map_map, List.length_map] at hlist
  rw [xmlWritePortAll, adminControlListLength, toInt_of_lt hlength, writePort_eq,
    xmlWriteEntries_eq, xmlWriteValuesEnd_eq, List.append_assoc, ← hlist]
  rfl

end Client
end TsnController

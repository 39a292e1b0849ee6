import Mathlib.Algebra.BigOperators.Group.List.Basic
import TsnController.Client.Read

/-!
# `Main.c`: writing one document for each switch

`xml_write_instance` goes through the list of switches and writes a file for each. The texts below
are its `fprintf` calls in order, with the directives filled in. What it hands to
`xml_write_values_end` is made explicit (`valuesEndCalls`), because that argument is computed in a
pass over *all* ports of the switch before the first of them is written.

The cycle time is a `float` in the source. It is a whole number here, which is what it is as long as
the periods are exact as `float`s; the quotient `500.0f / hypercycle` then has the whole part
`500 / hypercycle`, and for a period that is not exact both are `0`. For a cycle time of `0` the
quotient is infinite and its conversion to `int` is left open by the language: `castInf` is whatever
it yields.

The loops run over the links and not over what has been pushed, hence `values` and not `held`. The
counters for the length of a list and the index of an entry are `int`s: what is written is the
number of cells as an `int` (`toInt`), which is that number as long as there are fewer than `2 ^ 31`
of them and is taken to wrap around beyond.

Nobody asks whether `fopen` has succeeded. Which paths can be opened for writing is a parameter
(`opens`), and the program ends at the first one that cannot: `fprintf` gets a null pointer.
-/

set_option autoImplicit false

namespace TsnController
namespace Client

open CLib Lib Json

/-! ## Numbers -/

/-- The `while` of `binaryToDecimal`; `temp` gets smaller until it is `0`, so that its size bounds
the iterations. -/
def binaryToDecimalLoop : Nat → Int → Int → Int → Int
  | 0, _, decValue, _ => decValue
  | n + 1, temp, decValue, base =>
    if temp = 0 then decValue
    else
      let lastDigit := Int.tmod temp 10
      binaryToDecimalLoop n (Int.tdiv temp 10) (decValue + lastDigit * base) (base * 2)

def binaryToDecimal (n : Int) : Int := binaryToDecimalLoop n.natAbs n 0 1

/-- `%lu`. -/
def formatLu (n : Nat) : Text := Nat.toDigits 10 n

/-- `%d`. -/
def formatD (n : Int) : Text :=
  if n < 0 then '-' :: Nat.toDigits 10 n.natAbs else Nat.toDigits 10 n.natAbs

theorem formatD_natCast (n : Nat) : formatD n = Nat.toDigits 10 n := by
  unfold formatD
  rw [if_neg (by omega), Int.natAbs_natCast]

/-! ## The pieces of a document -/

/-- One pass of the `for` in `xml_write_port`. -/
def xmlWriteTable (i : Nat) : Text :=
  "\t\t<sched:max-sdu-table xmlns:sched=\"urn:ieee:std:802.1Q:yang:ieee802-dot1q-sched\">\n".toList
  ++ ("\t\t\t<sched:traffic-class>".toList ++ formatD i ++ "</sched:traffic-class>\n".toList)
  ++ "\t\t\t<sched:queue-max-sdu>0</sched:queue-max-sdu>\n".toList
  ++ "\t\t</sched:max-sdu-table>\n".toList

def xmlWritePort (portNumber adminControlListLength : Int) : Text :=
  "\t<if:interface>\n".toList
  ++ ("\t\t<if:name>".toList ++ formatD portNumber ++ "</if:name>\n".toList)
  ++ ("\t\t<if:type xmlns:iftype=\"urn:ietf:params:xml:ns:yang:iana-if-type\">" ++
      "iftype:ethernetCsmacd</if:type>\n").toList
  ++ (List.range 8).flatMap xmlWriteTable
  ++ ("\t\t<sched:gate-parameters xmlns:sched=" ++
      "\"urn:ieee:std:802.1Q:yang:ieee802-dot1q-sched\">\n").toList
  ++ "\t\t\t<sched:gate-enabled>true</sched:gate-enabled>\n".toList
  ++ "\t\t\t<sched:admin-gate-states>0</sched:admin-gate-states>\n".toList
  ++ ("\t\t\t<sched:admin-control-list-length>".toList ++ formatD adminControlListLength
      ++ "</sched:admin-control-list-length>\n".toList)

def xmlWriteValues (period : Nat) (gateStates index : Int) : Text :=
  "\t\t\t<sched:admin-control-list>\n".toList
  ++ ("\t\t\t\t<sched:index>".toList ++ formatD index ++ "</sched:index>\n".toList)
  ++ "\t\t\t\t<sched:operation-name>sched:set-gate-states</sched:operation-name>\n".toList
  ++ "\t\t\t\t<sched:sgs-params>\n".toList
  ++ ("\t\t\t\t\t<sched:gate-states-value>".toList ++ formatD gateStates
      ++ "</sched:gate-states-value>\n".toList)
  ++ ("\t\t\t\t\t<sched:time-interval-value>".toList ++ formatLu period
      ++ "</sched:time-interval-value>\n".toList)
  ++ "\t\t\t\t</sched:sgs-params>\n".toList
  ++ "\t\t\t</sched:admin-control-list>\n".toList

/-- The text of `xml_write_values_end`, given the number it writes. -/
def xmlWriteValuesEndWith (denominator : Int) : Text :=
  "\t\t\t<sched:admin-cycle-time>\n".toList
  ++ "\t\t\t\t<sched:numerator>500</sched:numerator>\n".toList
  ++ ("\t\t\t\t<sched:denominator>".toList ++ formatD denominator
      ++ "</sched:denominator>\n".toList)
  ++ "\t\t\t</sched:admin-cycle-time>\n".toList
  ++ "\t\t\t<sched:admin-base-time>\n".toList
  ++ "\t\t\t\t<sched:seconds>0</sched:seconds>\n".toList
  ++ "\t\t\t\t<sched:fractional-seconds>0</sched:fractional-seconds>\n".toList
  ++ "\t\t\t</sched:admin-base-time>\n".toList
  ++ "\t\t\t<sched:config-change>true</sched:config-change>\n".toList
  ++ "\t\t</sched:gate-parameters>\n".toList
  ++ "\t</if:interface>\n".toList

/-- `500.0f / hypercycle`, as an `int`. -/
def denominator (castInf : Int) (hypercycle : Nat) : Int :=
  if hypercycle = 0 then castInf else 500 / hypercycle

def xmlWriteValuesEnd (castInf : Int) (hypercycle : Nat) : Text :=
  xmlWriteValuesEndWith (denominator castInf hypercycle)

/-- The loop over the values of a port, from an index on. -/
def xmlWriteEntries : Nat → List PortValues → Text
  | _, [] => []
  | index, v :: vs =>
    xmlWriteValues v.period (binaryToDecimal v.gateStates) (toInt index)
      ++ xmlWriteEntries (index + 1) vs

/-- `admin_control_list_length`. -/
def adminControlListLength (values : List PortValues) : Int := toInt values.length

/-- The loop over the ports, for one port: the length of its list is counted first. -/
def xmlWritePortAll (castInf : Int) (port : Port) (hypercycle : Nat) : Text :=
  xmlWritePort port.number (adminControlListLength port.values.values)
  ++ xmlWriteEntries 0 port.values.values
  ++ xmlWriteValuesEnd castInf hypercycle

/-! ## The cycle time -/

/-- `hypercycle =+ (float)period`, over the values of one port. It is an assignment. -/
def hypercyclePort (hypercycle : Nat) (values : List PortValues) : Nat :=
  values.foldl (fun _ v => v.period) hypercycle

/-- The pass over all ports. -/
def hypercycle (ports : List Port) : Nat :=
  ports.foldl (fun h port => hypercyclePort h port.values.values) 0

/-- The ports of a switch in order, each with the cycle time its `xml_write_values_end` gets. -/
def valuesEndCalls (sw : Switch) : List (Port × Nat) :=
  sw.portList.values.map fun port => (port, hypercycle sw.portList.values)

/-! ## Files -/

def outputPath (name : Text) : Text := "../Output/".toList ++ name ++ ".xml".toList

/-- What is written to a switch's file. -/
def instanceText (castInf : Int) (sw : Switch) : Text :=
  "<?xml version=\"1.0\" encoding=\"UTF-8\"?>\n".toList
  ++ "<if:interfaces xmlns:if=\"urn:ietf:params:xml:ns:yang:ietf-interfaces\">\n".toList
  ++ (valuesEndCalls sw).flatMap (fun call => xmlWritePortAll castInf call.1 call.2)
  ++ "</if:interfaces>\n".toList

/-- The documents of the switches in order, each with the path it is for. -/
def documents (castInf : Int) (list : CellList Switch) : List (Text × Text) :=
  list.values.map fun sw => (outputPath sw.name, instanceText castInf sw)

/-- How the program ends, if not by returning from `main`, and the files it has written by then. -/
structure Outcome where
  halt : Option Halt
  files : List (Text × Text)
  deriving DecidableEq

/-- One file after the other is opened, written and closed. -/
def writeFiles (opens : Text → Bool) : List (Text × Text) → Outcome
  | [] => ⟨none, []⟩
  | file :: files =>
    if opens file.1 then
      ⟨(writeFiles opens files).halt, file :: (writeFiles opens files).files⟩
    else ⟨some .undefined, []⟩

def xmlWriteInstance (opens : Text → Bool) (castInf : Int) (list : CellList Switch) : Outcome :=
  writeFiles opens (documents castInf list)

/-- `main`, on the text of the configuration file. -/
def clientMain (opens : Text → Bool) (junk : Junk) (castInf : Int) (config : Text) : Outcome :=
  match jsonParse config with
  | none => ⟨some (.exit 1), []⟩
  | some node =>
    match readAll junk node with
    | .error halt => ⟨some halt, []⟩
    | .ok list => xmlWriteInstance opens castInf list

section WriteFiles

variable {opens : Text → Bool} {files : List (Text × Text)}

/-- The files in front of the first one that cannot be opened. -/
theorem files_writeFiles (opens : Text → Bool) (files : List (Text × Text)) :
    (writeFiles opens files).files = files.takeWhile fun file => opens file.1 := by
  induction files with
  | nil => rfl
  | cons file files ih =>
    rw [writeFiles, List.takeWhile_cons]
    split
    · exact congrArg _ ih
    · rfl

theorem mem_of_mem_writeFiles {file : Text × Text} (h : file ∈ (writeFiles opens files).files) :
    file ∈ files := by
  rw [files_writeFiles] at h
  exact List.takeWhile_subset _ h

theorem writeFiles_of_opens (h : ∀ file ∈ files, opens file.1 = true) :
    writeFiles opens files = ⟨none, files⟩ := by
  induction files with
  | nil => rfl
  | cons file files ih =>
    rw [writeFiles, if_pos (h file List.mem_cons_self),
      ih fun f hf => h f (List.mem_cons_of_mem file hf)]

/-- One that cannot is enough. -/
theorem halt_writeFiles (h : ∃ file ∈ files, opens file.1 = false) :
    (writeFiles opens files).halt = some .undefined := by
  induction files with
  | nil =>
    obtain ⟨file, hfile, _⟩ := h
    exact absurd hfile List.not_mem_nil
  | cons file files ih =>
    rw [writeFiles]
    split
    · rename_i hopens
      obtain ⟨f, hf, hfalse⟩ := h
      rcases List.mem_cons.mp hf with rfl | hf
      · exact absurd hopens (by simp [hfalse])
      · exact ih ⟨f, hf, hfalse⟩
    · rfl

theorem opens_of_halt_eq_none (h : (writeFiles opens files).halt = none) :
    ∀ file ∈ files, opens file.1 = true := by
  intro file hfile
  by_contra hopens
  rw [halt_writeFiles ⟨file, hfile, Bool.eq_false_iff.mpr hopens⟩] at h
  exact absurd h (by simp)

/-- All files are written exactly if all of them can be opened. -/
theorem writeFiles_eq_iff :
    writeFiles opens files = ⟨none, files⟩ ↔ ∀ file ∈ files, opens file.1 = true :=
  ⟨fun h => opens_of_halt_eq_none (by rw [h]), writeFiles_of_opens⟩

end WriteFiles

end Client
end TsnController

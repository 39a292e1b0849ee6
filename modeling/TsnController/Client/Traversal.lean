import TsnController.Client.Emit

/-!
# `switch.c`, `Main.c`: loops over the lists

Three functions go through the lists of switches, ports and values: one writes the documents, one
prints, one frees. All of them run from the first cell along the `next` links, and none looks at the
counter by which a push knows that the first cell holds nothing yet. A loop is given here by the
cells it stands on, in order, so that the three can be compared with what was pushed whatever they
do with a cell.

On a list that has been pushed to they agree with the pushes. On one that has not, each of them
stands on the first cell once, and takes what is in memory there for a switch, a port or an entry.
-/

set_option autoImplicit false

namespace TsnController
namespace Client

open CLib Lib

/-- A cell that a loop stands on. -/
inductive Visit
  | sw (s : Switch)
  | port (p : Port)
  | values (v : PortValues)

def Visit.sw? : Visit → Option Switch
  | .sw s => some s
  | _ => none

def Visit.port? : Visit → Option Port
  | .port p => some p
  | _ => none

def Visit.values? : Visit → Option PortValues
  | .values v => some v
  | _ => none

/-- The `while` over a list of values. -/
def valuesVisits (values : CellList PortValues) : List Visit := values.values.map .values

/-! ## `switch_print_list` -/

def printPortVisits (port : Port) : List Visit := .port port :: valuesVisits port.values

def printSwitchVisits (s : Switch) : List Visit :=
  .sw s :: s.portList.values.flatMap printPortVisits

def printVisits (head : CellList Switch) : List Visit := head.values.flatMap printSwitchVisits

/-- What is printed for a cell. -/
def printCell : Visit → Text
  | .sw s => "Switch:".toList ++ s.name ++ "\n".toList
  | .port p => "\tPort Number: ".toList ++ formatD p.number ++ "\n".toList
  | .values v =>
    "\t\tPeriod: ".toList ++ formatLu v.period ++ "\n".toList
    ++ ("\t\tGate States: ".toList ++ formatD v.gateStates ++ "\n".toList)

def switchPrintList (head : CellList Switch) : Text := (printVisits head).flatMap printCell

/-! ## `free_switch_list` -/

/-- A cell is freed behind what hangs from it. -/
def freePortVisits (port : Port) : List Visit := valuesVisits port.values ++ [.port port]

def freeSwitchVisits (s : Switch) : List Visit :=
  s.portList.values.flatMap freePortVisits ++ [.sw s]

/-- The cells freed, in order. -/
def freeSwitchList (head : CellList Switch) : List Visit := head.values.flatMap freeSwitchVisits

/-! ## `xml_write_instance` -/

/-- The pass for the cycle time. -/
def cyclePortVisits (port : Port) : List Visit := .port port :: valuesVisits port.values

def cycleVisits (s : Switch) : List Visit := s.portList.values.flatMap cyclePortVisits

/-- The pass that writes: over a port's values it goes once for their number and once for the
entries. -/
def writePortVisits (port : Port) : List Visit :=
  .port port :: (valuesVisits port.values ++ valuesVisits port.values)

def writeVisits (s : Switch) : List Visit := s.portList.values.flatMap writePortVisits

def xmlSwitchVisits (s : Switch) : List Visit := .sw s :: (cycleVisits s ++ writeVisits s)

def xmlVisits (head : CellList Switch) : List Visit := head.values.flatMap xmlSwitchVisits

/-! ## Cells of one kind among the visits -/

section Kinds

theorem sw?_valuesVisits (values : CellList PortValues) :
    (valuesVisits values).filterMap Visit.sw? = [] := by
  rw [valuesVisits, List.filterMap_map]
  exact List.filterMap_none _

theorem port?_valuesVisits (values : CellList PortValues) :
    (valuesVisits values).filterMap Visit.port? = [] := by
  rw [valuesVisits, List.filterMap_map]
  exact List.filterMap_none _

theorem values?_valuesVisits (values : CellList PortValues) :
    (valuesVisits values).filterMap Visit.values? = values.values := by
  rw [valuesVisits, List.filterMap_map]
  exact List.filterMap_some

/-- A loop whose body stands on its own cell once, and on others of that kind never, stands on the
cells of its list. -/
theorem filterMap_flatMap_self {α β : Type} {f : α → List β} {g : β → Option α}
    (h : ∀ a, (f a).filterMap g = [a]) (xs : List α) : (xs.flatMap f).filterMap g = xs := by
  induction xs with
  | nil => rfl
  | cons x xs ih => rw [List.flatMap_cons, List.filterMap_append, h, ih]; rfl

/-- … and a loop whose body never does, on none of that kind. -/
theorem filterMap_flatMap_nil {α β γ : Type} {f : α → List β} {g : β → Option γ}
    (h : ∀ a, (f a).filterMap g = []) (xs : List α) : (xs.flatMap f).filterMap g = [] := by
  induction xs with
  | nil => rfl
  | cons x xs ih => rw [List.flatMap_cons, List.filterMap_append, h, ih]; rfl

theorem sw?_printSwitchVisits (s : Switch) : (printSwitchVisits s).filterMap Visit.sw? = [s] := by
  have hports : ∀ p : Port, (printPortVisits p).filterMap Visit.sw? = [] :=
    fun p => sw?_valuesVisits p.values
  show s :: (s.portList.values.flatMap printPortVisits).filterMap Visit.sw? = [s]
  rw [filterMap_flatMap_nil hports]

theorem sw?_freeSwitchVisits (s : Switch) : (freeSwitchVisits s).filterMap Visit.sw? = [s] := by
  have hports : ∀ p : Port, (freePortVisits p).filterMap Visit.sw? = [] := by
    intro p
    rw [freePortVisits, List.filterMap_append, sw?_valuesVisits]
    rfl
  rw [freeSwitchVisits, List.filterMap_append, filterMap_flatMap_nil hports]
  rfl

theorem sw?_xmlSwitchVisits (s : Switch) : (xmlSwitchVisits s).filterMap Visit.sw? = [s] := by
  have hcycle : ∀ p : Port, (cyclePortVisits p).filterMap Visit.sw? = [] :=
    fun p => sw?_valuesVisits p.values
  have hwrite : ∀ p : Port, (writePortVisits p).filterMap Visit.sw? = [] := by
    intro p
    show (valuesVisits p.values ++ valuesVisits p.values).filterMap Visit.sw? = []
    rw [List.filterMap_append, sw?_valuesVisits]
    rfl
  show s :: (cycleVisits s ++ writeVisits s).filterMap Visit.sw? = [s]
  rw [List.filterMap_append, cycleVisits, writeVisits, filterMap_flatMap_nil hcycle,
    filterMap_flatMap_nil hwrite]
  rfl

theorem port?_printPortVisits (p : Port) : (printPortVisits p).filterMap Visit.port? = [p] :=
  congrArg (p :: ·) (port?_valuesVisits p.values)

theorem port?_freePortVisits (p : Port) : (freePortVisits p).filterMap Visit.port? = [p] := by
  rw [freePortVisits, List.filterMap_append, port?_valuesVisits]
  rfl

theorem port?_writePortVisits (p : Port) : (writePortVisits p).filterMap Visit.port? = [p] := by
  show p :: (valuesVisits p.values ++ valuesVisits p.values).filterMap Visit.port? = [p]
  rw [List.filterMap_append, port?_valuesVisits]
  rfl

end Kinds

/-! ## Which cells the loops stand on -/

/-- The loops over the switches stand on `xs`, and a file is written for each. -/
structure VisitsSwitches (head : CellList Switch) (xs : List Switch) : Prop where
  xml : (xmlVisits head).filterMap Visit.sw? = xs
  print : (printVisits head).filterMap Visit.sw? = xs
  free : (freeSwitchList head).filterMap Visit.sw? = xs
  files : ∀ opens castInf, xmlWriteInstance opens castInf head =
    writeFiles opens (xs.map fun s => (outputPath s.name, instanceText castInf s))

/-- The loops over the ports of a switch stand on `xs`; each port is written, with the cycle time
that is left when all have been looked at. -/
structure VisitsPorts (s : Switch) (xs : List Port) : Prop where
  cycle : (cycleVisits s).filterMap Visit.port? = xs
  write : (writeVisits s).filterMap Visit.port? = xs
  print : (printSwitchVisits s).filterMap Visit.port? = xs
  free : (freeSwitchVisits s).filterMap Visit.port? = xs
  calls : valuesEndCalls s = xs.map fun port => (port, hypercycle xs)

/-- The loops over the values of a port stand on `xs`. The last two fields are about the loops that
count and write: the length counted and announced is the number of `xs`, and the entries are `xs`.
-/
structure VisitsValues (port : Port) (xs : List PortValues) : Prop where
  cycle : (cyclePortVisits port).filterMap Visit.values? = xs
  write : (writePortVisits port).filterMap Visit.values? = xs ++ xs
  print : (printPortVisits port).filterMap Visit.values? = xs
  free : (freePortVisits port).filterMap Visit.values? = xs
  length : adminControlListLength port.values.values = xs.length
  text : ∀ castInf cycle, xmlWritePortAll castInf port cycle =
    xmlWritePort port.number xs.length ++ xmlWriteEntries 0 xs ++ xmlWriteValuesEnd castInf cycle

theorem visitsSwitches_iff {head : CellList Switch} {xs : List Switch} :
    VisitsSwitches head xs ↔ head.values = xs := by
  constructor
  · intro h
    rw [← h.print, printVisits, filterMap_flatMap_self sw?_printSwitchVisits]
  · rintro rfl
    exact ⟨filterMap_flatMap_self sw?_xmlSwitchVisits _,
      filterMap_flatMap_self sw?_printSwitchVisits _,
      filterMap_flatMap_self sw?_freeSwitchVisits _, fun _ _ => rfl⟩

theorem visitsPorts_iff {s : Switch} {xs : List Port} :
    VisitsPorts s xs ↔ s.portList.values = xs := by
  -- The pass for the cycle time stands on the same cells as the one that prints.
  have hcycle : (cycleVisits s).filterMap Visit.port? = s.portList.values :=
    filterMap_flatMap_self port?_printPortVisits _
  constructor
  · intro h
    rw [← h.cycle, hcycle]
  · rintro rfl
    refine ⟨hcycle, filterMap_flatMap_self port?_writePortVisits _,
      filterMap_flatMap_self port?_printPortVisits _, ?_, rfl⟩
    rw [freeSwitchVisits, List.filterMap_append, filterMap_flatMap_self port?_freePortVisits]
    exact List.append_nil _

theorem visitsValues_iff {port : Port} {xs : List PortValues} :
    VisitsValues port xs ↔ port.values.values = xs ∧ xs.length < 2 ^ 31 := by
  have hvalues := values?_valuesVisits port.values
  constructor
  · intro h
    have hxs : port.values.values = xs := by
      rw [← h.cycle]
      exact hvalues.symm
    have hlength := h.length
    rw [hxs] at hlength
    exact ⟨hxs, lt_of_toInt_eq hlength⟩
  · rintro ⟨rfl, hlt⟩
    have hlength : adminControlListLength port.values.values = port.values.values.length :=
      toInt_of_lt hlt
    constructor
    case cycle => exact hvalues
    case write =>
      show (valuesVisits port.values ++ valuesVisits port.values).filterMap Visit.values? = _
      rw [List.filterMap_append, hvalues]
    case print => exact hvalues
    case free =>
      rw [freePortVisits, List.filterMap_append, hvalues]
      exact List.append_nil _
    case length => exact hlength
    case text =>
      intro castInf cycle
      rw [xmlWritePortAll, hlength]

/-- **The loops see what was pushed exactly if something was**, for each of the three kinds of
lists and whatever is in memory. The values of a port are counted as well, in an `int`, and there
must not be too many of them for that. -/
theorem visits_pushed_iff (junk : Junk) (portsJunk : PortsJunk) (valuesJunk : ValuesJunk) :
    (∀ xs : List Switch,
      VisitsSwitches (xs.foldl switchPush (switchCreateList junk)) xs ↔ xs ≠ []) ∧
    (∀ (name : Text) (xs : List Port),
      VisitsPorts ⟨name, xs.foldl portPush (switchCreatePortList portsJunk)⟩ xs ↔ xs ≠ []) ∧
    (∀ (number : Int) (xs : List PortValues),
      VisitsValues ⟨number, xs.foldl portValuesPush (switchCreatePortValuesList valuesJunk)⟩ xs ↔
        xs ≠ [] ∧ xs.length < 2 ^ 31) := by
  refine ⟨?_, ?_, ?_⟩
  · intro xs
    exact visitsSwitches_iff.trans (CellList.values_foldl_push_iff junk.first xs)
  · intro name xs
    exact visitsPorts_iff.trans (CellList.values_foldl_push_iff portsJunk.first xs)
  · intro number xs
    exact visitsValues_iff.trans
      (and_congr_left fun _ => CellList.values_foldl_push_iff valuesJunk.first xs)

/-- Nothing pushed: every loop stands on a cell, and a length of one is announced. -/
theorem visits_unpushed :
    (xmlVisits (switchCreateList default)).filterMap Visit.sw? ≠ [] ∧
    (printSwitchVisits ⟨[], switchCreatePortList default⟩).filterMap Visit.port? ≠ [] ∧
    (freePortVisits ⟨1, switchCreatePortValuesList default⟩).filterMap Visit.values? ≠ [] ∧
    ∀ castInf cycle, xmlWritePortAll castInf ⟨1, switchCreatePortValuesList default⟩ cycle =
      xmlWritePort 1 1 ++ xmlWriteEntries 0 [⟨0, 0⟩] ++ xmlWriteValuesEnd castInf cycle := by
  refine ⟨?_, ?_, ?_, ?_⟩
  · rw [xmlVisits, filterMap_flatMap_self sw?_xmlSwitchVisits]
    exact CellList.values_ne_nil _
  · exact List.cons_ne_nil _ _
  · exact List.cons_ne_nil _ _
  · intro castInf cycle
    have hlength : adminControlListLength (switchCreatePortValuesList default).values = 1 := by
      decide
    rw [xmlWritePortAll, hlength]
    rfl

end Client
end TsnController

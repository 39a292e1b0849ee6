import TsnController.Client.Traversal
import TsnController.Lib.HeapList

/-!
# `Main.c`, `switch.c`: the client in memory

The client once more, with its lists where the program has them: in cells behind pointers. A record
knows the list that belongs to it by a pointer; `switch_create_…` leave the record of the first cell
as the memory was, and that includes the pointer in it. Each type of cell has a heap of its own: no
pointer to one is ever converted to a pointer to another.

`clientMain` here is `main` from the first allocation to the last `free`. Reading through a pointer
that leads nowhere ends the run as undefined.
-/

set_option autoImplicit false

namespace TsnController
namespace Client

open CLib Lib Json HeapList

/-- `struct t_port`. -/
structure PortRecord where
  number : Int
  values : Option Ptr

/-- `struct t_switch`. -/
structure SwitchRecord where
  name : Text
  portList : Option Ptr

structure Memory where
  values : Heap (ChainCell PortValues)
  ports : Heap (ChainCell PortRecord)
  switches : Heap (ChainCell SwitchRecord)
  /-- the lists of ports made so far, which tells one residue from the next -/
  made : Nat

/-- What the memory of a list of ports holds before it is used, pointers included, and then that of
the lists of values of its ports, one after the other. -/
structure PortsResidue where
  first : PortRecord
  values : Nat → ValuesJunk

/-- What uninitialised memory holds, for every list and every call of `read_values` anew. -/
structure Residue where
  first : SwitchRecord
  ports : Nat → PortsResidue

/-- What is left of it where lists are not in memory. -/
def PortsResidue.junk (residue : PortsResidue) : PortsJunk where
  first := ⟨residue.first.number, .create ⟨0, 0⟩⟩
  values := residue.values

def Residue.junk (residue : Residue) : Junk where
  first := ⟨residue.first.name, .create ⟨0, .create ⟨0, 0⟩⟩⟩
  ports k := (residue.ports k).junk

/-- A read that leads nowhere. -/
def orUndefined {α : Type} : Option α → Except Halt α
  | none => .error .undefined
  | some a => .ok a

namespace Memory

/-! ## Reading -/

def readValuesLoop (head : Ptr) : JsonTree → PortValues → Heap (ChainCell PortValues) →
    Option (Heap (ChainCell PortValues))
  | .nil, _, h => some h
  | .node a l r, current, h =>
    let data := jsonItem (.node a l r) 0
    let current := if jsonIsReal data then { current with period := jsonReal data } else current
    let data := jsonItem (.node a l r) 1
    let current :=
      if jsonIsReal data then { current with gateStates := toInt (jsonReal data) } else current
    (push h head current).bind (readValuesLoop head r current)

def readValues (junk : ValuesJunk) (node : JsonTree) (head : Ptr)
    (h : Heap (ChainCell PortValues)) : Option (Heap (ChainCell PortValues)) :=
  readValuesLoop head (jsonItem node 0) junk.current h

/-- The body of the loop over the ports, up to the push. -/
def readPort (junk : ValuesJunk) (nPort : JsonTree) (h : Heap (ChainCell PortValues)) :
    Option (PortRecord × Heap (ChainCell PortValues)) :=
  let list := create h junk.first
  let number := toInt (jsonReal (jsonNode nPort "port_number".toList))
  (readValues junk (jsonNode nPort "values".toList) list.1 list.2).map fun h =>
    (⟨number, some list.1⟩, h)

/-- One pass of the loop over the ports. -/
def pushPort (head : Ptr) (m : Memory) (junk : ValuesJunk) (nPort : JsonTree) : Option Memory :=
  (readPort junk nPort m.values).bind fun port =>
    (push m.ports head port.1).map fun ports => { m with values := port.2, ports := ports }

def readPorts (residue : PortsResidue) (dataPortList : JsonTree) (head : Ptr) (m : Memory) :
    Option Memory :=
  (List.range (jsonItems dataPortList)).foldlM
    (fun m i => pushPort head m (residue.values i) (jsonItem dataPortList i)) m

def readJson (residue : Residue) (head : Ptr) (node : JsonTree) (m : Memory) :
    Except Halt Memory :=
  let dataSwitch := jsonNode node "switch".toList
  if jsonIsString dataSwitch then do
    let residue := residue.ports m.made
    let portList := create m.ports residue.first
    let name ← strcpy maxSwitchNameLength (jsonString dataSwitch)
    let dataPortList := jsonNode node "port_list".toList
    if jsonIsArray dataPortList then do
      let m ← orUndefined (readPorts residue dataPortList portList.1
        { m with ports := portList.2, made := m.made + 1 })
      orUndefined ((push m.switches head ⟨name, some portList.1⟩).map fun switches =>
        { m with switches := switches })
    else .error (.exit 1)
  else .ok m

/-! ## Printing -/

def printValues (m : Memory) (list : Option Ptr) : Text → Option Text :=
  loop m.values
    (fun v out => some (out
      ++ ("\t\tPeriod: ".toList ++ formatLu v.period ++ "\n".toList
        ++ ("\t\tGate States: ".toList ++ formatD v.gateStates ++ "\n".toList))))
    m.values.next list

def printPorts (m : Memory) (list : Option Ptr) : Text → Option Text :=
  loop m.ports
    (fun port out =>
      m.printValues port.values
        (out ++ ("\tPort Number: ".toList ++ formatD port.number ++ "\n".toList)))
    m.ports.next list

def switchPrintList (m : Memory) (head : Ptr) : Option Text :=
  loop m.switches
    (fun sw out => m.printPorts sw.portList (out ++ ("Switch:".toList ++ sw.name ++ "\n".toList)))
    m.switches.next (some head) []

/-! ## Writing -/

/-- The pass for the cycle time. -/
def hypercycle (m : Memory) (list : Option Ptr) : Option Nat :=
  loop m.ports
    (fun port h => loop m.values (fun v _ => some v.period) m.values.next port.values h)
    m.ports.next list 0

/-- `admin_control_list_length`, before it is an `int`. -/
def length (m : Memory) (list : Option Ptr) : Option Nat :=
  loop m.values (fun _ n => some (n + 1)) m.values.next list 0

/-- The loop over the entries: the index and what has been written. -/
def xmlWriteEntries (m : Memory) (list : Option Ptr) : Nat × Text → Option (Nat × Text) :=
  loop m.values
    (fun v s => some (s.1 + 1,
      s.2 ++ xmlWriteValues v.period (binaryToDecimal v.gateStates) (toInt s.1)))
    m.values.next list

def xmlWritePortAll (m : Memory) (castInf : Int) (h : Nat) (port : PortRecord) (out : Text) :
    Option Text :=
  (m.length port.values).bind fun length =>
    (m.xmlWriteEntries port.values (0, out ++ xmlWritePort port.number (toInt length))).map
      fun s => s.2 ++ xmlWriteValuesEnd castInf h

def instanceText (m : Memory) (castInf : Int) (list : Option Ptr) : Option Text :=
  (m.hypercycle list).bind fun h =>
    (loop m.ports (m.xmlWritePortAll castInf h) m.ports.next list
      ("<?xml version=\"1.0\" encoding=\"UTF-8\"?>\n".toList
        ++ "<if:interfaces xmlns:if=\"urn:ietf:params:xml:ns:yang:ietf-interfaces\">\n".toList)).map
      fun out => out ++ "</if:interfaces>\n".toList

/-- `fprintf` to a file that was not opened is one of the reads that lead nowhere. -/
def xmlWriteInstance (m : Memory) (opens : Text → Bool) (castInf : Int) (head : Ptr) :
    Option (List (Text × Text)) :=
  loop m.switches
    (fun sw files =>
      if opens (outputPath sw.name) then
        (m.instanceText castInf sw.portList).map fun text => files ++ [(outputPath sw.name, text)]
      else none)
    m.switches.next (some head) []

/-! ## Freeing -/

def freeValues (list : Option Ptr) (h : Heap (ChainCell PortValues)) :
    Option (Heap (ChainCell PortValues)) :=
  (drain (fun _ s => some s) h.next list (h, ())).map Prod.fst

def freePorts (list : Option Ptr)
    (s : Heap (ChainCell PortRecord) × Heap (ChainCell PortValues)) :
    Option (Heap (ChainCell PortRecord) × Heap (ChainCell PortValues)) :=
  drain (fun port h => freeValues port.values h) s.1.next list s

def freeSwitchList (m : Memory) (head : Ptr) : Option Memory :=
  (drain (fun sw s => freePorts sw.portList s) m.switches.next (some head)
    (m.switches, (m.ports, m.values))).map fun s =>
      { m with values := s.2.2, ports := s.2.1, switches := s.1 }

/-! ## `main` -/

/-- What a run that comes to its end has printed and written, and what it has not freed. -/
structure Finished where
  printed : Text
  files : List (Text × Text)
  memory : Memory

/-- The memory `main` has when it calls `parse`. -/
def start (residue : Residue) : Ptr × Memory :=
  let list := create Heap.empty residue.first
  (list.1, ⟨Heap.empty, Heap.empty, list.2, 0⟩)

def readAll (residue : Residue) (node : JsonTree) : Except Halt Memory :=
  jsonForeach (readJson residue (start residue).1) node (start residue).2

def clientMain (opens : Text → Bool) (residue : Residue) (castInf : Int) (config : Text) :
    Except Halt Finished :=
  match jsonParse config with
  | none => .error (.exit 1)
  | some node => do
    let m ← readAll residue node
    let head := (start residue).1
    let printed ← orUndefined (m.switchPrintList head)
    let files ← orUndefined (m.xmlWriteInstance opens castInf head)
    let m ← orUndefined (m.freeSwitchList head)
    .ok ⟨printed, files, m⟩

end Memory

end Client
end TsnController

import TsnController.CLib.Text
import TsnController.Lib.CellList

/-!
# `switch.c`: the configuration as lists

A configuration is a list of switches, each with a list of ports, each with a list of values. The
three lists are one data structure (`CellList`) and the functions on them one function each; the
source writes every one of them out three times, without a difference between the copies.

`malloc` is assumed to succeed. What it returns is not initialised, and neither is the local record
`read_values` fills; `Junk` is what these memories hold, so that a result that depends on it can be
told from one that does not. Every list has its own, and so has every call of `read_values`: they
are counted by the switch and the port they are for. That a pointer in such a record need not lead
to a list is left to `Client.Memory`.
-/

set_option autoImplicit false

namespace TsnController
namespace Client

open CLib Lib

/-- `struct t_port_values`: an `unsigned long` and an `int`. -/
structure PortValues where
  period : Nat
  gateStates : Int

structure Port where
  number : Int
  values : CellList PortValues

structure Switch where
  name : Text
  portList : CellList Port

def maxSwitchNameLength : Nat := 20

/-- What a list of values finds in the memory of its first cell, and `read_values` in its local. -/
structure ValuesJunk where
  first : PortValues
  current : PortValues

/-- What a list of ports finds, and then the lists of values of its ports, one after the other. -/
structure PortsJunk where
  first : Port
  values : Nat → ValuesJunk

/-- What uninitialised memory holds. -/
structure Junk where
  first : Switch
  ports : Nat → PortsJunk

instance : Inhabited ValuesJunk := ⟨⟨⟨0, 0⟩, ⟨0, 0⟩⟩⟩

instance : Inhabited PortsJunk := ⟨⟨⟨0, .create ⟨0, 0⟩⟩, fun _ => default⟩⟩

instance : Inhabited Junk := ⟨⟨⟨[], .create ⟨0, .create ⟨0, 0⟩⟩⟩, fun _ => default⟩⟩

def switchCreatePortValuesList (junk : ValuesJunk) : CellList PortValues := .create junk.first

def switchCreatePortList (junk : PortsJunk) : CellList Port := .create junk.first

def switchCreateList (junk : Junk) : CellList Switch := .create junk.first

def portValuesPush (head : CellList PortValues) (data : PortValues) : CellList PortValues :=
  head.push data

def portPush (head : CellList Port) (data : Port) : CellList Port := head.push data

def switchPush (head : CellList Switch) (data : Switch) : CellList Switch := head.push data

end Client
end TsnController

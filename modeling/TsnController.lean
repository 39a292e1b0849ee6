import TsnController.Lib.Heap
import TsnController.Lib.LinkedTree
import TsnController.Lib.Dismantle
import TsnController.Lib.Zipper
import TsnController.Lib.Shape
import TsnController.Lib.LongestMatch
import TsnController.CLib.Text
import TsnController.CLib.Numeral
import TsnController.CLib.Convert
import TsnController.Json.Scan
import TsnController.Json.Build
import TsnController.Json.Grammar
import TsnController.Json.ScanSpec
import TsnController.Json.Machine
import TsnController.Json.Lockstep
import TsnController.Json.Run
import TsnController.Json.Invariant
import TsnController.Json.Completeness
import TsnController.Json.Soundness
import TsnController.Json.Overwrite
import TsnController.Json.Access
import TsnController.Json.Items
import TsnController.Json.Numbers
import TsnController.Json.Encode
import TsnController.Json.Stretch
import TsnController.Json.Truncated
import TsnController.Json.Spacing
import TsnController.Json.Free
import TsnController.Lib.Census
import TsnController.Json.Leak
import TsnController.Lib.Refusals
import TsnController.Json.Scarce
import TsnController.Lib.Focus
import TsnController.Json.Pointer
import TsnController.Json.Cells
import TsnController.Json.Values
import TsnController.Lib.Outline
import TsnController.Lib.Readers
import TsnController.Json.Print
import TsnController.Lib.CellList
import TsnController.Lib.Xml
import TsnController.Client.Lists
import TsnController.Client.Read
import TsnController.Client.Emit
import TsnController.Client.Output
import TsnController.Client.Document
import TsnController.Client.Config
import TsnController.Client.EndToEnd
import TsnController.Client.MemberOrder
import TsnController.Client.Gates
import TsnController.Client.Entries
import TsnController.Client.Numbers
import TsnController.Client.CycleTime
import TsnController.Client.Traversal
import TsnController.Lib.HeapList
import TsnController.Client.Memory
import TsnController.Client.MemorySafety
import TsnController.Client.Buffers
import TsnController.Lib.Markup
import TsnController.Client.WellFormed
import TsnController.Client.Legacy
import TsnController.Lib.Rounding
import TsnController.Client.Floats
import TsnController.Lib.Decimal
import TsnController.Lib.Schema
import TsnController.Client.Schema
import TsnController.Client.Validity
import TsnController.Lib.Block
import TsnController.Client.Files
import TsnController.Client.History
import TsnController.Lib.Process
import TsnController.Store.Info
import TsnController.Store.Insert
import TsnController.Store.Versions
import TsnController.Store.Interleave
import TsnController.Lib.Writers
import TsnController.Store.Ports
import TsnController.Store.Growth
import TsnController.Store.Arguments
import TsnController.Store.Select
import TsnController.Lib.Tokens
import TsnController.Lib.Wire
import TsnController.Store.Wire
import TsnController.Lib.Separate
import TsnController.Store.Separate
import TsnController.Store.Session
import TsnController.Store.Commands

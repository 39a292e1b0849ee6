import Mathlib.Logic.Function.Iterate
import TsnController.Json.Scan
import TsnController.Lib.LinkedTree

/-!
# `json.c`: the builder

`json_build` grows the tree in place. Its whole state is the heap, the current node and a
position in the text; the only stack it has is the `parent` links. One iteration is
`jsonBuildStep`, which scans to the next entity and then does what that entity's `case` does; the
checks stand in the order of the source, and a rejection hands back the heap *as it is at that
`return`*, because the invariant of the tree holds for rejected texts too.

Allocation is assumed to succeed here: `json_create` is `Heap.alloc` of a zeroed node. The branches
for when it does not are in `Json.Scarce`.

The loop is the iteration of `advance`. Every step consumes at least the entity it stopped at, so
`text.length + 1` steps always reach a `return` (`jsonBuild_halts`).
-/

set_option autoImplicit false

namespace TsnController
namespace Json

open CLib Lib

inductive JsonType
  | empty
  | object
  | array
  | string
  | number
  | boolean
  | null
  /-- `JSON_NONE`: the type of a null pointer, never of a node -/
  | none
  deriving DecidableEq, Repr

/-- What a node says, without its links. -/
structure JsonData where
  type : JsonType := .empty
  name : Option Text := none
  value : Option Text := none
  deriving DecidableEq, Repr

/-- `struct json`. The defaults are what `calloc` leaves. -/
structure JsonCell extends JsonData where
  left : Option Ptr := none
  right : Option Ptr := none
  parent : Option Ptr := none
  deriving DecidableEq, Repr

instance : Links JsonCell where
  left := JsonCell.left
  right := JsonCell.right
  parent := JsonCell.parent

/-- `json_token`: the group type an entity opens or closes. -/
def jsonToken (c : Char) : JsonType :=
  if c = '{' ∨ c = '}' then .object
  else if c = '[' ∨ c = ']' then .array
  else .empty

/-- `right - left + 1`. -/
def spanSize (left right : Text) : Nat := left.length - right.length + 1

def jsonSetName (node : JsonCell) (left right : Text) : Option JsonCell :=
  if deref left ≠ '"' ∨ deref right ≠ '"' then none
  else some { node with name := some (jsonCopy left (spanSize left right)) }

/-- The type `json_set_value` assigns. Nothing has been stored when it is `none`. -/
def valueType (left right : Text) : Option JsonType :=
  let size := spanSize left right
  if deref left = '"' ∧ deref right = '"' then some .string
  else if size = 4 ∧ left.take size = "null".toList then some .null
  else if size = 4 ∧ left.take size = "true".toList then some .boolean
  else if size = 5 ∧ left.take size = "false".toList then some .boolean
  -- `end <= right`
  else if strtodEnd left ≤ left.length - right.length then none
  else some .number

def jsonSetValue (node : JsonCell) (left right : Text) : Option JsonCell :=
  (valueType left right).map fun type =>
    { node with type := type, value := some (jsonCopy left (spanSize left right)) }

/-! ## One iteration -/

/-- The locals of `json_build` at the head of its loop. -/
structure Builder where
  heap : Heap JsonCell
  node : Ptr
  left : Text

/-- The loop goes on, or has returned the root, or has returned `NULL`. -/
inductive Build
  | running (b : Builder)
  | accepted (b : Builder)
  | rejected (b : Builder)

def Build.state : Build → Builder
  | .running b | .accepted b | .rejected b => b

/-- `(node->parent != NULL) && (node->parent->type == type)`, given what `node->parent` is. -/
def parentIs (parent : Option JsonCell) (type : JsonType) : Prop :=
  parent.map (·.type) = some type

instance (parent : Option JsonCell) (type : JsonType) : Decidable (parentIs parent type) :=
  inferInstanceAs (Decidable (_ = _))

/-- `left == token`: nothing stands in front of the entity. -/
def Scan.bare (s : Scan) : Prop := s.left.length = s.token.length

instance (s : Scan) : Decidable s.bare := inferInstanceAs (Decidable (_ = _))

section Step

variable (b : Builder) (node : JsonCell) (parent : Option JsonCell) (s : Scan)

/-- `case '{'`, `case '['`: a first child. -/
def openGroup : Build :=
  if ¬ s.bare then .rejected b
  else if parentIs parent .object ∧ node.name = none then .rejected b
  else
    let node' := { node with type := jsonToken (deref s.token), left := some b.heap.next }
    .running ⟨(b.heap.alloc { parent := some b.node }).write b.node node', b.heap.next,
      s.token.tail⟩

/-- `case ':'`: the name of the node. -/
def nameNode : Build :=
  if ¬ parentIs parent .object ∨ node.name ≠ none then .rejected b
  else match jsonSetName node s.left s.right with
    | none => .rejected b
    | some node' => .running ⟨b.heap.write b.node node', b.node, s.token.tail⟩

/-- The new sibling of `case ','`, once `node'` is what the node has become. -/
def pushSibling (node' : JsonCell) : Build :=
  .running ⟨(b.heap.alloc { parent := node'.parent }).write b.node
      { node' with right := some b.heap.next }, b.heap.next, s.token.tail⟩

/-- `case ','`: a next sibling. -/
def nextSibling : Build :=
  if parent = none ∨ (parentIs parent .object ∧ node.name = none) then .rejected b
  else if node.type = .empty then
    if s.bare then .rejected b
    else match jsonSetValue node s.left s.right with
      | none => .rejected b
      | some node' => pushSibling b s node'
  else if ¬ s.bare then .rejected b
  else pushSibling b s node

/-- `node = node->parent`. -/
def climb (heap : Heap JsonCell) (up : Option Ptr) : Build :=
  match up with
  | none => .rejected { b with heap := heap }
  | some p => .running ⟨heap, p, s.token.tail⟩

/-- `case ']'`, `case '}'`: the end of the group the node is in. -/
def closeGroup : Build :=
  if ¬ parentIs parent (jsonToken (deref s.token)) then .rejected b
  else if node.type = .empty then
    if s.bare then
      -- an empty group: the node is the one its opening bracket created
      if parent.bind (·.left) ≠ some b.node then .rejected b
      else climb b s b.heap node.parent
    else if parentIs parent .object ∧ node.name = none then .rejected b
    else match jsonSetValue node s.left s.right with
      | none => .rejected b
      | some node' => climb b s (b.heap.write b.node node') node'.parent
  else if ¬ s.bare then .rejected b
  else climb b s b.heap node.parent

/-- The last two checks of the `default` case. -/
def finish (heap : Heap JsonCell) (node' : JsonCell) : Build :=
  if node'.type = .empty then .rejected { b with heap := heap }
  else if node'.parent ≠ none then .rejected { b with heap := heap }
  else .accepted { b with heap := heap }

/-- `default`: the end of the text. -/
def endOfText : Build :=
  if ¬ s.bare then
    if node.type ≠ .empty then .rejected b
    else match jsonSetValue node s.left s.right with
      | none => .rejected b
      | some node' => finish b (b.heap.write b.node node') node'
  else finish b b.heap node

end Step

/-- The body of the `while`. A node that cannot be read does not occur
(`walked_after`); it is treated as the `NULL` the loop condition looks for. -/
def jsonBuildStep (b : Builder) : Build :=
  match b.heap.read b.node, jsonScan b.left with
  | some node, some s =>
    let parent := node.parent.bind b.heap.read
    let c := deref s.token
    if c = '{' ∨ c = '[' then openGroup b node parent s
    else if c = ':' then nameNode b node parent s
    else if c = ',' then nextSibling b node parent s
    else if c = ']' ∨ c = '}' then closeGroup b node parent s
    else endOfText b node s
  | _, _ => .rejected b

/-! ## The loop, and `json_parse` -/

def advance : Build → Build
  | .running b => jsonBuildStep b
  | done => done

/-- `json_parse`'s fresh root, and the text from its start. -/
def jsonStart (text : Text) : Builder := ⟨Heap.empty.alloc {}, 0, text⟩

/-- `json_build` after `n` iterations (or fewer, if it returned before). -/
def jsonBuildAfter (text : Text) (n : Nat) : Build := advance^[n] (.running (jsonStart text))

def jsonBuild (text : Text) : Build := jsonBuildAfter text (text.length + 1)

/-- What a `json *` reaches over `left` and `right`: the empty tree is `NULL`. -/
abbrev JsonTree := BinaryTree JsonData

/-- The tree read back from the heap. The links form a tree, so a walk is never longer than
there are cells. -/
def readBack (h : Heap JsonCell) (p : Option Ptr) : JsonTree := (load h h.next p).map (·.toJsonData)

def jsonParse (text : Text) : Option JsonTree :=
  match jsonBuild text with
  | .accepted b => some (readBack b.heap (some 0))
  | _ => none

end Json
end TsnController

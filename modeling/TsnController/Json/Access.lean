import TsnController.Json.Build
import TsnController.Lib.Shape

/-!
# `json.c`: looking at a tree

The accessors the client uses, as functions of what a `json *` reaches: the empty tree is `NULL`,
`node->left` and `node->right` are the two subtrees. Each is a walk along a sibling chain written
as its own loop in the source, and each is therefore given twice here, as the loop and as what it
computes on the list of siblings (`siblings`). Callers only ever need the second.

`json_foreach` is generic in its callback. A callback may end the program, so a visit is a
computation that can fail, and the rest of the tree is then not visited.
-/

set_option autoImplicit false

namespace TsnController
namespace Json

open CLib Lib

/-! ## One node -/

def jsonType : JsonTree → JsonType
  | .nil => .none
  | .node a _ _ => a.type

def jsonName : JsonTree → Option Text
  | .nil => none
  | .node a _ _ => a.name

def jsonString : JsonTree → Option Text
  | .nil => none
  | .node a _ _ => a.value

/-- The number at the start of the value, whatever the type: `0` without a value. -/
def jsonReal : JsonTree → Nat
  | .nil => 0
  | .node a _ _ =>
    match a.value with
    | none => 0
    | some value => strtoul value

/-- The same in the signed type. -/
def jsonInteger : JsonTree → Int
  | .nil => 0
  | .node a _ _ =>
    match a.value with
    | none => 0
    | some value => strtol value

def jsonIsArray (node : JsonTree) : Bool := jsonType node == .array

def jsonIsString (node : JsonTree) : Bool := jsonType node == .string

/-- A number without a point. -/
def jsonIsInteger : JsonTree → Bool
  | .nil => false
  | .node a _ _ =>
    if a.type ≠ .number then false
    else if '.' ∈ a.value.getD [] then false
    else true

/-- A number without a point and without a minus sign. A number always has a value
(`Typed.value`). -/
def jsonIsReal : JsonTree → Bool
  | .nil => false
  | .node a _ _ =>
    if a.type ≠ .number then false
    else if '.' ∈ a.value.getD [] then false
    else if '-' ∈ a.value.getD [] then false
    else true

/-! ## Along a chain -/

def jsonNext (node : JsonTree) : JsonTree := node.right

/-- The `while` of `json_node`. -/
def jsonNodeLoop (name : Text) : JsonTree → JsonTree
  | .nil => .nil
  | .node a l r => if a.name = some name then .node a l r else jsonNodeLoop name r

def jsonNode (root : JsonTree) (name : Text) : JsonTree := jsonNodeLoop name root.left

/-- The `while` of `json_item`. -/
def jsonItemLoop (item : Nat) : Nat → JsonTree → JsonTree
  | _, .nil => .nil
  | count, .node a l r =>
    if count = item then .node a l r else jsonItemLoop item (count + 1) r

def jsonItem (root : JsonTree) (item : Nat) : JsonTree := jsonItemLoop item 0 root.left

/-- The `while` of `json_items`. -/
def jsonItemsLoop : Nat → JsonTree → Nat
  | count, .nil => count
  | count, .node _ _ r => jsonItemsLoop (count + 1) r

def jsonItems (node : JsonTree) : Nat := jsonItemsLoop 0 node.left

/-- Every node before its children and these before its next siblings. -/
def jsonForeach {σ ε : Type} (func : JsonTree → σ → Except ε σ) : JsonTree → σ → Except ε σ
  | .nil, data => .ok data
  | .node a l r, data => do
    let data ← func (.node a l r) data
    let data ← jsonForeach func l data
    jsonForeach func r data

/-! ## What the loops compute -/

/-- The nodes of a chain, each with what hangs below and behind it. -/
def siblings : JsonTree → List JsonTree
  | .nil => []
  | .node a l r => .node a l r :: siblings r

/-- A node's children. -/
def children (node : JsonTree) : List JsonTree := siblings node.left

def named (name : Text) : JsonTree → Bool
  | .nil => false
  | .node a _ _ => a.name == some name

theorem jsonNodeLoop_eq (name : Text) (t : JsonTree) :
    jsonNodeLoop name t = ((siblings t).find? (named name)).getD .nil := by
  induction t with
  | nil => rfl
  | node a l r _ ih =>
    unfold jsonNodeLoop siblings
    by_cases h : a.name = some name
    · rw [if_pos h, List.find?_cons_of_pos (by simpa [named] using h)]
      rfl
    · rw [if_neg h, List.find?_cons_of_neg (by simpa [named] using h)]
      exact ih

theorem jsonNode_eq (root : JsonTree) (name : Text) :
    jsonNode root name = ((children root).find? (named name)).getD .nil :=
  jsonNodeLoop_eq name root.left

theorem jsonItemLoop_eq (item : Nat) (t : JsonTree) : ∀ count, count ≤ item →
    jsonItemLoop item count t = (siblings t)[item - count]?.getD .nil := by
  induction t with
  | nil => intro count _; rfl
  | node a l r _ ih =>
    intro count hle
    unfold jsonItemLoop siblings
    by_cases h : count = item
    · rw [if_pos h, h, Nat.sub_self]
      rfl
    · rw [if_neg h, ih (count + 1) (by omega)]
      have hsub : item - count = (item - (count + 1)) + 1 := by omega
      rw [hsub, List.getElem?_cons_succ]

theorem jsonItem_eq (root : JsonTree) (item : Nat) :
    jsonItem root item = (children root)[item]?.getD .nil :=
  jsonItemLoop_eq item root.left 0 (Nat.zero_le item)

theorem jsonItemsLoop_eq (t : JsonTree) : ∀ count,
    jsonItemsLoop count t = count + (siblings t).length := by
  induction t with
  | nil => intro count; rfl
  | node a l r _ ih =>
    intro count
    unfold jsonItemsLoop siblings
    rw [ih (count + 1), List.length_cons]
    omega

theorem jsonItems_eq (node : JsonTree) : jsonItems node = (children node).length := by
  rw [jsonItems, jsonItemsLoop_eq, Nat.zero_add]
  rfl

/-- The nodes of a tree in document order. -/
def preorder : JsonTree → List JsonTree
  | .nil => []
  | .node a l r => .node a l r :: (preorder l ++ preorder r)

/-- **`json_foreach` visits every node once, in document order**, until a visit fails. -/
theorem jsonForeach_eq {σ ε : Type} (func : JsonTree → σ → Except ε σ) (t : JsonTree) :
    ∀ data, jsonForeach func t data =
      (preorder t).foldlM (fun data node => func node data) data := by
  induction t with
  | nil => intro data; rfl
  | node a l r ihl ihr =>
    intro data
    unfold jsonForeach preorder
    rw [List.foldlM_cons]
    cases func (.node a l r) data with
    | error e => rfl
    | ok data' =>
      show (jsonForeach func l data' >>= jsonForeach func r) = _
      rw [ihl data']
      show _ = List.foldlM _ data' (preorder l ++ preorder r)
      rw [List.foldlM_append]
      cases (preorder l).foldlM (fun data node => func node data) data' with
      | error e => rfl
      | ok data'' => exact ihr data''

/-! ## Which nodes are there -/

theorem preorder_trans {m n : JsonTree} : ∀ {t : JsonTree}, n ∈ preorder t → m ∈ preorder n →
    m ∈ preorder t := by
  intro t
  induction t with
  | nil => intro hn; simp [preorder] at hn
  | node a l r ihl ihr =>
    intro hn hm
    rw [preorder, List.mem_cons, List.mem_append] at hn
    rcases hn with rfl | hn | hn
    · exact hm
    · exact List.mem_cons_of_mem _ (List.mem_append_left _ (ihl hn hm))
    · exact List.mem_cons_of_mem _ (List.mem_append_right _ (ihr hn hm))

theorem mem_preorder_of_mem_siblings {t n : JsonTree} (h : n ∈ siblings t) : n ∈ preorder t := by
  induction t with
  | nil => exact absurd h (by simp [siblings])
  | node a l r _ ih =>
    unfold siblings at h
    unfold preorder
    rcases List.mem_cons.mp h with rfl | h
    · exact List.mem_cons_self
    · exact List.mem_cons_of_mem _ (List.mem_append_right _ (ih h))

theorem mem_preorder_of_mem_children {t n m : JsonTree} (hn : n ∈ preorder t)
    (hm : m ∈ children n) : m ∈ preorder t := by
  apply preorder_trans hn
  cases n with
  | nil => exact absurd hm (by simp [children, siblings])
  | node a l r =>
    unfold preorder
    exact List.mem_cons_of_mem _ (List.mem_append_left _ (mem_preorder_of_mem_siblings hm))

/-- What `json_node` finds is a child. -/
theorem jsonNode_mem {n : JsonTree} {name : Text} (h : jsonNode n name ≠ .nil) :
    jsonNode n name ∈ children n := by
  rw [jsonNode_eq] at h ⊢
  cases hf : (children n).find? (named name) with
  | none => rw [hf] at h; exact absurd rfl h
  | some m => exact List.mem_of_find?_eq_some hf

/-- … and what `json_item` finds. -/
theorem jsonItem_mem {n : JsonTree} {item : Nat} (h : jsonItem n item ≠ .nil) :
    jsonItem n item ∈ children n := by
  rw [jsonItem_eq] at h ⊢
  cases hf : (children n)[item]? with
  | none => rw [hf] at h; exact absurd rfl h
  | some m => exact List.mem_of_getElem? hf

/-- What holds everywhere in a tree holds at its nodes. -/
theorem everywhere_of_mem_preorder
    {P : Option JsonData → Bool → JsonData → Bool → Bool → Prop} {d : JsonData}
    {l r t : JsonTree} : ∀ {par : Option JsonData} {first : Bool}, Everywhere P par first t →
    .node d l r ∈ preorder t → ∃ par first, P par first d (hasRoot l) (hasRoot r) := by
  induction t with
  | nil => intro par first _ hn; exact absurd hn (by simp [preorder])
  | node a l' r' ihl ihr =>
    intro par first h hn
    obtain ⟨ha, hl, hr⟩ := h
    rw [preorder, List.mem_cons, List.mem_append] at hn
    rcases hn with heq | hn | hn
    · cases heq
      exact ⟨par, first, ha⟩
    · exact ihl hl hn
    · exact ihr hr hn

end Json
end TsnController

import TsnController.Json.Completeness
import TsnController.Json.Access

/-!
# The nodes of a document, and how callers reach them

The grammar says what tree a text becomes as a whole. A caller of the parser never sees the whole
tree; it holds one node and asks for the children of that, by position (`json_items`, `json_item`)
or one after the other (`json_item(node, 0)`, `json_next`). `Located` is the bridge: it names the
node every element of a document has in the tree, by descending through the value rather than
through the accessors, so that a statement about an accessor can say which element it answers for.

A group with elements is exactly its elements, in both styles. A group without any is not: the
builder opens it by hanging an unused node below it, closing it leaves that node there, and both
styles then see one child.
-/

set_option autoImplicit false

namespace TsnController
namespace Json

open CLib Lib

/-! ## Elements and their nodes -/

/-- The elements a value is written with; a scalar has none. -/
def Value.entries : Value → List Entry
  | .scalar _ => []
  | .array vs => vs.map fun v => ⟨none, v⟩
  | .object ms => ms.map fun m => ⟨some m.1, m.2⟩

/-- Arrays and objects. -/
def Value.kind : Value → Option Kind
  | .scalar _ => none
  | .array _ => some .array
  | .object _ => some .object

theorem isGroup_entries : ∀ {v : Value} {k : Kind}, v.kind = some k → IsGroup k v.entries v
  | .array vs, _, rfl => isGroup_array vs
  | .object ms, _, rfl => isGroup_object ms

/-- `e` is written somewhere in the document `v`, and `n` is its node, with the nodes of the
elements behind it to its right. -/
inductive Located (v : Value) : Entry → JsonTree → Prop
  | root : Located v ⟨none, v⟩ v.tree
  | elem {e e' : Entry} {front back : List Entry} {n : JsonTree} :
      Located v e n → e.value.entries = front ++ e' :: back →
      Located v e' (chain ((e' :: back).map Entry.node))

theorem Located.eq_node {v : Value} {e : Entry} {n : JsonTree} (h : Located v e n) :
    ∃ right, n = .node e.node.1 e.node.2 right := by
  cases h with
  | root => exact ⟨.nil, rfl⟩
  | elem => exact ⟨_, rfl⟩

/-! ## Along a chain of nodes -/

theorem chain_cons (x : JsonData × JsonTree) (nodes : List (JsonData × JsonTree)) :
    chain (x :: nodes) = .node x.1 x.2 (chain nodes) := rfl

theorem length_siblings_chain (nodes : List (JsonData × JsonTree)) :
    (siblings (chain nodes)).length = nodes.length := by
  induction nodes with
  | nil => rfl
  | cons x nodes ih =>
    rw [chain_cons, siblings, List.length_cons, ih, List.length_cons]

theorem getElem?_siblings_chain (nodes : List (JsonData × JsonTree)) : ∀ i,
    (siblings (chain nodes))[i]?.getD .nil = chain (nodes.drop i) := by
  induction nodes with
  | nil => intro i; rw [List.drop_nil]; rfl
  | cons x nodes ih =>
    intro i
    rw [chain_cons, siblings]
    cases i with
    | zero => rfl
    | succ i => rw [List.getElem?_cons_succ, List.drop_succ_cons, ih i]

/-- `json_next`, taken `i` times. -/
theorem iterate_jsonNext (i : Nat) : ∀ t : JsonTree,
    jsonNext^[i] t = (siblings t)[i]?.getD .nil := by
  induction i with
  | zero => intro t; cases t <;> rfl
  | succ i ih =>
    intro t
    rw [Function.iterate_succ_apply, ih (jsonNext t)]
    cases t with
    | nil => rfl
    | node a l r => rw [siblings, List.getElem?_cons_succ]; rfl

theorem jsonItem_zero (node : JsonTree) : jsonItem node 0 = node.left := by
  rw [jsonItem_eq, children]
  cases node.left <;> rfl

/-- **Both ways of walking over children see the same nodes**, whatever the tree. -/
theorem iterate_jsonNext_jsonItem (node : JsonTree) (i : Nat) :
    jsonNext^[i] (jsonItem node 0) = jsonItem node i := by
  rw [jsonItem_zero, iterate_jsonNext, jsonItem_eq]
  rfl

/-! ## Where the nodes are -/

theorem chain_mem_preorder (x : JsonData × JsonTree) (front back : List (JsonData × JsonTree)) :
    chain (x :: back) ∈ preorder (chain (front ++ x :: back)) := by
  induction front with
  | nil => rw [List.nil_append, chain_cons, preorder]; exact List.mem_cons_self
  | cons y front ih =>
    rw [List.cons_append, chain_cons, preorder]
    exact List.mem_cons_of_mem _ (List.mem_append_right _ ih)

theorem groupTree_of_ne_nil : ∀ {nodes : List (JsonData × JsonTree)}, nodes ≠ [] →
    groupTree nodes = chain nodes
  | [], h => absurd rfl h
  | _ :: _, _ => rfl

theorem Value.kind_of_entries_ne_nil : ∀ {v : Value}, v.entries ≠ [] → ∃ k, v.kind = some k
  | .scalar _, h => absurd rfl h
  | .array _, _ => ⟨_, rfl⟩
  | .object _, _ => ⟨_, rfl⟩

/-- What hangs below a value with elements. -/
theorem Value.children_of_entries {v : Value} (h : v.entries ≠ []) :
    v.children = chain (v.entries.map Entry.node) := by
  obtain ⟨k, hk⟩ := Value.kind_of_entries_ne_nil h
  rw [(isGroup_entries hk).children]
  exact groupTree_of_ne_nil fun hnil => h (List.map_eq_nil_iff.mp hnil)

/-- The node of every element of a document is a node of its tree. -/
theorem Located.mem_preorder {v : Value} {e : Entry} {n : JsonTree} (h : Located v e n) :
    n ∈ preorder v.tree := by
  induction h with
  | root => exact List.mem_cons_self
  | @elem e e' front back n hn he ih =>
    obtain ⟨right, rfl⟩ := hn.eq_node
    apply preorder_trans ih
    rw [preorder]
    apply List.mem_cons_of_mem
    apply List.mem_append_left
    have hne : e.value.entries ≠ [] := by rw [he]; simp
    show _ ∈ preorder e.value.children
    rw [Value.children_of_entries hne, he, List.map_append, List.map_cons]
    exact chain_mem_preorder _ _ _

/-! ## The children of a group -/

/-- To a caller, the children of `node` are `nodes`: counted, by position, and one after the
other. -/
structure HasItems (node : JsonTree) (nodes : List (JsonData × JsonTree)) : Prop where
  items : jsonItems node = nodes.length
  item : ∀ i, (hi : i < nodes.length) →
    jsonItem node i = .node nodes[i].1 nodes[i].2 (chain (nodes.drop (i + 1)))
  stop : ∀ i, nodes.length ≤ i → jsonItem node i = .nil
  next : ∀ i, jsonNext^[i] (jsonItem node 0) = jsonItem node i

theorem hasItems_of_left {node : JsonTree} {nodes : List (JsonData × JsonTree)}
    (h : node.left = chain nodes) : HasItems node nodes := by
  have hitem : ∀ i, jsonItem node i = chain (nodes.drop i) := by
    intro i
    rw [jsonItem_eq, children, h, getElem?_siblings_chain]
  constructor
  case items => rw [jsonItems_eq, children, h, length_siblings_chain]
  case item =>
    intro i hi
    rw [hitem i, List.drop_eq_getElem_cons hi, chain_cons]
  case stop =>
    intro i hi
    rw [hitem i, List.drop_eq_nil_of_le hi]
    rfl
  case next => exact iterate_jsonNext_jsonItem node

/-- A group with elements has their nodes. -/
theorem Located.hasItems {v : Value} {e : Entry} {n : JsonTree} (h : Located v e n)
    (he : e.value.entries ≠ []) : HasItems n (e.value.entries.map Entry.node) := by
  obtain ⟨right, rfl⟩ := h.eq_node
  apply hasItems_of_left
  exact Value.children_of_entries he

/-- A group without elements has the unused node it was opened with. -/
theorem Located.hasItems_empty {v : Value} {e : Entry} {n : JsonTree} {k : Kind}
    (h : Located v e n) (hk : e.value.kind = some k) (he : e.value.entries = []) :
    HasItems n [({}, .nil)] := by
  obtain ⟨right, rfl⟩ := h.eq_node
  apply hasItems_of_left
  show e.value.children = _
  rw [(isGroup_entries hk).children, he]
  rfl

/-- **The children of every array and object of a document are its elements**, in both styles,
if it has any; a group written without elements has one child, an unused node without a name, a
value or children. -/
theorem hasItems_of_writes {v : Value} {t : Text} (h : Writes v t) :
    jsonParse t = some v.tree ∧ ∀ (e : Entry) (n : JsonTree), Located v e n →
      n ∈ preorder v.tree ∧
      (e.value.entries ≠ [] → HasItems n (e.value.entries.map Entry.node)) ∧
      (e.value.kind ≠ none → e.value.entries = [] → HasItems n [({}, .nil)]) := by
  constructor
  · exact (Cursor.accepts_of_writes h).jsonParse_eq
  · intro e n hn
    refine ⟨hn.mem_preorder, hn.hasItems, ?_⟩
    intro hk he
    obtain ⟨k, hk⟩ := Option.ne_none_iff_exists'.mp hk
    exact hn.hasItems_empty hk he

/-- An array of a number and an empty array: two children, and one. -/
theorem hasItems_of_writes_nested :
    jsonParse "[1, []]".toList
      = some (Value.array [.scalar (.number ['1'] (by decide)), .array []]).tree ∧
    HasItems (Value.array [.scalar (.number ['1'] (by decide)), .array []]).tree
      [(⟨.number, none, some ['1']⟩, .nil), (⟨.array, none, none⟩, .node {} .nil .nil)] ∧
    HasItems (.node ⟨.array, none, none⟩ (.node {} .nil .nil) .nil) [({}, .nil)] := by
  obtain ⟨hparse, hall⟩ := hasItems_of_writes
    (v := .array [.scalar (.number ['1'] (by decide)), .array []]) (t := "[1, []]".toList)
    (padded_of_spells (by decide +kernel))
  refine ⟨hparse, ?_, ?_⟩
  · exact (hall _ _ .root).2.1 (by simp [Value.entries])
  · have hlast : Located (.array [.scalar (.number ['1'] (by decide)), .array []])
        ⟨none, .array []⟩ (chain [Entry.node ⟨none, .array []⟩]) :=
      @Located.elem _ _ _ [⟨none, .scalar (.number ['1'] (by decide))⟩] [] _ .root rfl
    exact (hall _ _ hlast).2.2 (by simp [Value.kind]) rfl

/-- The empty array: counted as one element, and its element `0` is not `NULL`. -/
theorem jsonItems_empty_array :
    Writes (.array []) "[]".toList ∧
    ∃ root, jsonParse "[]".toList = some root ∧ jsonItems root ≠ 0 ∧ jsonItem root 0 ≠ .nil :=
  ⟨padded_of_spells (by decide +kernel), .node ⟨.array, none, none⟩ (.node {} .nil .nil) .nil,
    by decide +kernel, by decide, by decide⟩

end Json
end TsnController

import TsnController.Json.Access
import TsnController.Json.Run
import TsnController.Lib.Census
import TsnController.Lib.Focus

/-!
# `json.c`: the accessors on the heap

`Access` has the accessors as functions of a tree. The source has them as functions of a pointer,
and they read nothing but the links of the cells. Both are connected here. A caller may go from node
to node with any of them, back up to a parent included, in any order (`Call`): as long as the tree
is as `json_build` has made it no call follows a pointer that leads nowhere, none runs in a circle,
and what the pointer it returns reaches is what the call gives on the tree.

`json_foreach` is the same in the large: on the heap it visits what it visits on the tree.
-/

set_option autoImplicit false

namespace TsnController
namespace Json

open CLib Lib

/-! ## Over pointers -/

namespace Pointer

variable (heap : Heap JsonCell)

/-- A link of the node, `NULL` for `NULL`. Outside, `none` is a pointer that leads nowhere. -/
def link (field : JsonCell → Option Ptr) : Option Ptr → Option (Option Ptr)
  | none => some none
  | some node => (heap.read node).map field

def jsonParent (node : Option Ptr) : Option (Option Ptr) := link heap (·.parent) node

def jsonNext (node : Option Ptr) : Option (Option Ptr) := link heap (·.right) node

/-- A loop over the children. No chain is longer than there are cells. -/
def overChildren {γ : Type} (stop : Nat → Ptr → JsonCell → Option γ) (atEnd : Nat → γ)
    (node : Option Ptr) : Option γ :=
  (link heap (·.left) node).bind (chainLoop heap stop atEnd heap.next 0)

def jsonNode (root : Option Ptr) (name : Text) : Option (Option Ptr) :=
  overChildren heap (fun _ node cell => if cell.name = some name then some (some node) else none)
    (fun _ => none) root

/-- The first child of what `json_node` finds. -/
def jsonChild (node : Option Ptr) (name : Text) : Option (Option Ptr) :=
  overChildren heap (fun _ _ cell => if cell.name = some name then some cell.left else none)
    (fun _ => none) node

def jsonItem (root : Option Ptr) (item : Nat) : Option (Option Ptr) :=
  overChildren heap (fun count node _ => if count = item then some (some node) else none)
    (fun _ => none) root

def jsonItems (node : Option Ptr) : Option Nat :=
  overChildren heap (fun _ _ _ => none) (fun count => count) node

/-- `json_foreach`, with a bound on its depth. -/
def jsonForeach {σ ε : Type} (func : Ptr → σ → Except ε σ) :
    Nat → Option Ptr → σ → Option (Except ε σ)
  | _, none, data => some (.ok data)
  | 0, some _, _ => none
  | depth + 1, some node, data =>
    match func node data with
    | .error e => some (.error e)
    | .ok data =>
      (heap.read node).bind fun cell =>
        (jsonForeach func depth cell.left data).bind fun
          | .error e => some (.error e)
          | .ok data => jsonForeach func depth cell.right data

end Pointer

/-! ## From node to node -/

/-- A call that leads from a node to a node. -/
inductive Call
  | parent
  | next
  | node (name : Text)
  | child (name : Text)
  | item (item : Nat)

def Pointer.call (heap : Heap JsonCell) : Call → Option Ptr → Option (Option Ptr)
  | .parent, node => Pointer.jsonParent heap node
  | .next, node => Pointer.jsonNext heap node
  | .node name, node => Pointer.jsonNode heap node name
  | .child name, node => Pointer.jsonChild heap node name
  | .item item, node => Pointer.jsonItem heap node item

/-- Calls one after the other, each on what the one before it has returned. -/
def Pointer.calls (heap : Heap JsonCell) : List Call → Option Ptr → Option (Option Ptr)
  | [], node => some node
  | c :: cs, node => (Pointer.call heap c node).bind (Pointer.calls heap cs)

/-- A loop over the children of a node of a tree. -/
def overChildren {γ : Type} (stop : Nat → Focus JsonData → Option γ) (atEnd : Nat → γ)
    (f : Focus JsonData) : γ :=
  Focus.loop stop atEnd 0 (.left f.data f.right :: f.frames) f.left

/-- What a call gives on a tree. -/
def Call.on (f : Focus JsonData) : Call → Option (Focus JsonData)
  | .parent => f.parent
  | .next => f.next
  | .node name =>
    overChildren (fun _ g => if g.data.name = some name then some (some g) else none)
      (fun _ => none) f
  | .child name =>
    overChildren (fun _ g => if g.data.name = some name then some g.down else none)
      (fun _ => none) f
  | .item i =>
    overChildren (fun count g => if count = i then some (some g) else none) (fun _ => none) f

def calls : List Call → Option (Focus JsonData) → Option (Focus JsonData)
  | [], x => x
  | c :: cs, x => calls cs (x.bind fun f => c.on f)

/-- What a pointer to the node reaches. -/
def nodeOf : Option (Focus JsonData) → JsonTree
  | none => .nil
  | some f => f.node

/-! ## The accessors of a tree -/

section Access

variable (f : Focus JsonData)

theorem nodeOf_loop_name (name : Text) : ∀ (t : JsonTree) (n : Nat) (c : List (Frame JsonData)),
    nodeOf (Focus.loop (fun _ g => if g.data.name = some name then some (some g) else none)
      (fun _ => none) n c t) = jsonNodeLoop name t := by
  intro t
  induction t with
  | nil => intro n c; rfl
  | node a l r _ ih =>
    intro n c
    rw [Focus.loop, jsonNodeLoop]
    by_cases h : a.name = some name
    · rw [if_pos h, if_pos h]
      rfl
    · rw [if_neg h, if_neg h]
      exact ih (n + 1) _

theorem nodeOf_loop_item (item : Nat) : ∀ (t : JsonTree) (n : Nat) (c : List (Frame JsonData)),
    nodeOf (Focus.loop (fun count g => if count = item then some (some g) else none)
      (fun _ => none) n c t) = jsonItemLoop item n t := by
  intro t
  induction t with
  | nil => intro n c; rfl
  | node a l r _ ih =>
    intro n c
    rw [Focus.loop, jsonItemLoop]
    by_cases h : n = item
    · rw [if_pos h, if_pos h]
      rfl
    · rw [if_neg h, if_neg h]
      exact ih (n + 1) _

theorem loop_items : ∀ (t : JsonTree) (n : Nat) (c : List (Frame JsonData)),
    Focus.loop (fun _ _ => none) (fun count => count) n c t = jsonItemsLoop n t := by
  intro t
  induction t with
  | nil => intro n c; rfl
  | node a l r _ ih =>
    intro n c
    exact ih (n + 1) _

theorem nodeOf_on_node (name : Text) :
    nodeOf ((Call.node name).on f) = jsonNode f.node name :=
  nodeOf_loop_name name f.left 0 _

theorem nodeOf_on_item (item : Nat) :
    nodeOf ((Call.item item).on f) = jsonItem f.node item :=
  nodeOf_loop_item item f.left 0 _

end Access

/-! ## Both -/

section Refinement

variable {heap : Heap JsonCell} {w : BinaryTree (Ptr × JsonCell)}

/-- The pointer and the place are those of one node of the stored tree, or of none. -/
def Points (w : BinaryTree (Ptr × JsonCell)) (o : Option Ptr) (x : Option (Focus JsonData)) :
    Prop :=
  ∃ y : Option (Focus (Ptr × JsonCell)), (∀ f ∈ y, f.whole = w) ∧
    o = y.map (·.data.1) ∧ x = y.map (Focus.map dataOf)

theorem points_none : Points w none none := ⟨none, fun f hf => absurd hf (by simp), rfl, rfl⟩

theorem points_some {f : Focus (Ptr × JsonCell)} (hf : f.whole = w) :
    Points w (some f.data.1) (some (f.map dataOf)) :=
  ⟨some f, fun _ hg => Option.some.inj hg ▸ hf, rfl, rfl⟩

theorem points_of {y : Option (Focus (Ptr × JsonCell))} (hy : ∀ f, y = some f → f.whole = w) :
    Points w (y.map (·.data.1)) (y.map (Focus.map dataOf)) :=
  ⟨y, hy, rfl, rfl⟩

/-- The nodes below a place are no more than there are cells. -/
theorem numNodes_left_le (hs : Stored heap none w) (hn : (ptrs w).Nodup)
    {f : Focus (Ptr × JsonCell)} (hf : f.whole = w) : f.node.numNodes ≤ heap.next := by
  have hplug := numNodes_plug f.frames f.node .nil
  have hle := hs.numNodes_le hn
  rw [← hf, Focus.whole] at hle
  simp only [BinaryTree.numNodes, Nat.add_zero] at hplug
  rw [hplug] at hle
  exact Nat.le_trans (Nat.le_add_left _ _) hle

/-- A loop over the children, on the heap and on the tree. -/
theorem overChildren_refines {β γ : Type} (hs : Stored heap none w) (hn : (ptrs w).Nodup)
    {f : Focus (Ptr × JsonCell)} (hf : f.whole = w) (R : γ → β → Prop)
    {stop : Nat → Ptr → JsonCell → Option γ} {atEnd : Nat → γ}
    {stop' : Nat → Focus JsonData → Option β} {atEnd' : Nat → β}
    (hstop : ∀ n (g : Focus (Ptr × JsonCell)), g.whole = w →
      Option.Rel R (stop n g.data.1 g.data.2) (stop' n (g.map dataOf)))
    (hend : ∀ n, R (atEnd n) (atEnd' n)) :
    ∃ x, Pointer.overChildren heap stop atEnd (some f.data.1) = some x ∧
      R x (overChildren stop' atEnd' (f.map dataOf)) := by
  obtain ⟨hread, hleft, _, _⟩ := Focus.links (hf ▸ hs)
  have hle := numNodes_left_le hs hn hf
  have hnodes : f.left.numNodes ≤ heap.next := by
    rw [Focus.node, BinaryTree.numNodes] at hle
    exact Nat.le_trans (Nat.le_trans (Nat.le_add_right _ _) (Nat.le_succ _)) hle
  obtain ⟨x, hx, hR⟩ := chainLoop_refines hs dataOf R hstop hend heap.next 0
    (c := .left f.data f.right :: f.frames) hf hnodes
  refine ⟨x, ?_, hR⟩
  rw [Pointer.overChildren, Pointer.link, hread, Option.map_some, Option.bind_some]
  have hptr : f.data.2.left = rootPtr f.left := by
    rw [Focus.rootPtr_eq (.left f.data f.right :: f.frames) f.left]
    exact hleft
  rw [hptr]
  exact hx

/-- What a test on the name or the number of a node answers. -/
theorem rel_ite {p q : Prop} [Decidable p] [Decidable q] (hpq : p ↔ q) {o : Option Ptr}
    {x : Option (Focus JsonData)} (h : Points w o x) :
    Option.Rel (Points w) (if p then some o else none) (if q then some x else none) := by
  by_cases hp : p
  · rw [if_pos hp, if_pos (hpq.mp hp)]
    exact .some h
  · rw [if_neg hp, if_neg (mt hpq.mpr hp)]
    exact .none

/-- **One call**, on the heap and on the tree. -/
theorem Points.call (hs : Stored heap none w) (hn : (ptrs w).Nodup) {o : Option Ptr}
    {x : Option (Focus JsonData)} (h : Points w o x) (c : Call) :
    ∃ o', Pointer.call heap c o = some o' ∧ Points w o' (x.bind fun f => c.on f) := by
  obtain ⟨y, hy, rfl, rfl⟩ := h
  cases y with
  | none =>
    refine ⟨none, ?_, points_none⟩
    cases c with
    | parent => rfl
    | next => rfl
    | node name => exact chainLoop_none heap _ _ _ _
    | child name => exact chainLoop_none heap _ _ _ _
    | item i => exact chainLoop_none heap _ _ _ _
  | some f =>
    have hf : f.whole = w := hy f rfl
    obtain ⟨hread, _, hright, hparent⟩ := Focus.links (hf ▸ hs)
    cases c with
    | parent =>
      refine ⟨f.parent.map (·.data.1), ?_, ?_⟩
      · show (heap.read f.data.1).map (·.parent) = _
        rw [hread]
        exact congrArg some hparent
      · show Points w _ (f.map dataOf).parent
        rw [Focus.parent_map]
        exact points_of fun g hg => (Focus.whole_parent hg).trans hf
    | next =>
      refine ⟨f.next.map (·.data.1), ?_, ?_⟩
      · show (heap.read f.data.1).map (·.right) = _
        rw [hread]
        exact congrArg some hright
      · show Points w _ (f.map dataOf).next
        rw [Focus.next_map]
        exact points_of fun g hg => (Focus.whole_next hg).trans hf
    | node name =>
      exact overChildren_refines hs hn hf (Points w)
        (fun _ g hg => rel_ite Iff.rfl (points_some hg)) fun _ => points_none
    | child name =>
      refine overChildren_refines hs hn hf (Points w) (fun _ g hg => ?_) fun _ => points_none
      obtain ⟨_, hleft, _, _⟩ := Focus.links (hg ▸ hs)
      refine rel_ite Iff.rfl ?_
      have hdown : g.data.2.left = g.down.map (·.data.1) := hleft
      rw [hdown, Focus.down_map]
      exact points_of fun k hk => (Focus.whole_down hk).trans hg
    | item i =>
      exact overChildren_refines hs hn hf (Points w)
        (fun _ g hg => rel_ite Iff.rfl (points_some hg)) fun _ => points_none

theorem Points.calls (hs : Stored heap none w) (hn : (ptrs w).Nodup) : ∀ (cs : List Call)
    {o : Option Ptr} {x : Option (Focus JsonData)}, Points w o x →
    ∃ o', Pointer.calls heap cs o = some o' ∧ Points w o' (Json.calls cs x)
  | [], o, _, h => ⟨o, rfl, h⟩
  | c :: cs, _, _, h => by
    obtain ⟨o', ho', h'⟩ := h.call hs hn c
    obtain ⟨o'', ho'', h''⟩ := h'.calls hs hn cs
    exact ⟨o'', by rw [Pointer.calls, ho', Option.bind_some, ho''], h''⟩

/-- What a pointer reaches is what is at its place. -/
theorem Points.readBack_eq (hs : Stored heap none w) (hn : (ptrs w).Nodup) {o : Option Ptr}
    {x : Option (Focus JsonData)} (h : Points w o x) : readBack heap o = nodeOf x := by
  obtain ⟨y, hy, rfl, rfl⟩ := h
  cases y with
  | none =>
    show (load heap heap.next none).map _ = .nil
    cases heap.next <;> rfl
  | some f =>
    have hf : f.whole = w := hy f rfl
    have hfocus := ((stored_plug f.frames f.node).mp (hf ▸ hs)).2
    have hheight : f.node.height ≤ heap.next :=
      Nat.le_trans (height_le_numNodes _) (numNodes_left_le hs hn hf)
    show (load heap heap.next (rootPtr f.node)).map _ = f.node.map dataOf
    rw [hfocus.load_eq hheight, ← BinaryTree.comp_map]
    rfl

theorem Points.jsonItems (hs : Stored heap none w) (hn : (ptrs w).Nodup) {o : Option Ptr}
    {x : Option (Focus JsonData)} (h : Points w o x) :
    Pointer.jsonItems heap o = some (Json.jsonItems (nodeOf x)) := by
  obtain ⟨y, hy, rfl, rfl⟩ := h
  cases y with
  | none => exact chainLoop_none heap _ _ _ _
  | some f =>
    have hcount : ∃ n, Pointer.jsonItems heap (some f.data.1) = some n ∧
        n = overChildren (fun _ _ => none) (fun count => count) (f.map dataOf) :=
      overChildren_refines hs hn (hy f rfl) Eq (fun _ _ _ => .none) fun _ => rfl
    obtain ⟨n, hitems, rfl⟩ := hcount
    exact hitems.trans (congrArg some (loop_items _ 0 _))

/-- On the heap and on the tree the same nodes are visited. -/
theorem foreach_eq {σ ε : Type} (func : JsonTree → σ → Except ε σ) (hs : Stored heap none w)
    (hn : (ptrs w).Nodup) : ∀ {t : BinaryTree (Ptr × JsonCell)} {c : List (Frame (Ptr × JsonCell))}
    (depth : Nat) (data : σ), plug c t = w → t.height ≤ depth →
    Pointer.jsonForeach heap (fun node => func (readBack heap (some node))) depth (rootPtr t) data =
      some (jsonForeach func (t.map dataOf) data) := by
  intro t
  induction t with
  | nil =>
    intro c depth data _ _
    cases depth <;> rfl
  | node a l r ihl ihr =>
    intro c depth data hw hdepth
    cases depth with
    | zero => exact absurd hdepth (by simp)
    | succ depth =>
      rw [BinaryTree.height, Nat.add_le_add_iff_right, Nat.max_le] at hdepth
      have hfocus : (⟨c, a, l, r⟩ : Focus (Ptr × JsonCell)).whole = w := hw
      have hreached : readBack heap (some a.1) = (BinaryTree.node a l r).map dataOf :=
        (points_some hfocus).readBack_eq hs hn
      obtain ⟨hread, hleft, hright, _⟩ := Focus.links (hfocus ▸ hs)
      have hl : a.2.left = rootPtr l := by
        rw [Focus.rootPtr_eq (.left a r :: c) l]
        exact hleft
      have hr : a.2.right = rootPtr r := by
        rw [Focus.rootPtr_eq (.right a l :: c) r]
        exact hright
      have hmap : (BinaryTree.node a l r).map dataOf =
          .node (dataOf a) (l.map dataOf) (r.map dataOf) := rfl
      rw [hmap] at hreached ⊢
      dsimp only at hread
      rw [rootPtr_node, Pointer.jsonForeach, hreached, hread, jsonForeach]
      cases func (.node (dataOf a) (l.map dataOf) (r.map dataOf)) data with
      | error e => rfl
      | ok data' =>
        have hbelow := ihl depth data' (show plug (.left a r :: c) l = w from hw) hdepth.1
        dsimp only [Option.bind_some]
        rw [hl, hr, hbelow]
        show _ = some (jsonForeach func (l.map dataOf) data' >>= jsonForeach func (r.map dataOf))
        cases jsonForeach func (l.map dataOf) data' with
        | error e => rfl
        | ok data'' =>
          exact ihr depth data'' (show plug (.right a l :: c) r = w from hw) hdepth.2

end Refinement

/-! ## At any point of the run -/

theorem points_root {heap : Heap JsonCell} {p : Ptr} {z : Cursor} (hz : Represents heap p z) :
    ∃ w, Stored heap none w ∧ (ptrs w).Nodup ∧ rootPtr w = some 0 ∧
      w.map dataOf = readBack heap (some 0) ∧
      Points w (some 0) (Focus.on [] (readBack heap (some 0))) := by
  rw [hz.readBack_eq]
  obtain ⟨c, a, l, hr⟩ := hz
  refine ⟨_, hr.focused.stored, hr.focused.nodup, hr.root, hr.tree_eq, ?_⟩
  rw [← hr.tree_eq]
  have hroot := hr.root
  generalize plug c (.node (p, a) l .nil) = w at hroot
  cases w with
  | nil => exact absurd hroot (by simp)
  | node b l r =>
    have hb : b.1 = 0 := Option.some.inj hroot
    rw [← hb]
    exact points_some (f := ⟨[], b, l, r⟩) rfl

/-- **The accessors do on the heap what they do on the tree.** From the root, at any point of the
run and in particular when `json_parse` returns, calls of `json_parent`, `json_next`, `json_node`,
`json_child` and `json_item` may follow one another in any order. None of them reads through a
pointer that leads nowhere and none runs in a circle; the pointer they end with reaches what the
same calls lead to in the tree; and from there the three loops over the children find what they find
in it. -/
theorem calls_refine (text : Text) (n : Nat) (cs : List Call) :
    ∃ o, Pointer.calls (jsonBuildAfter text n).state.heap cs (some 0) = some o ∧
      readBack (jsonBuildAfter text n).state.heap o =
        nodeOf (calls cs (Focus.on [] (readBack (jsonBuildAfter text n).state.heap (some 0)))) ∧
      Pointer.jsonItems (jsonBuildAfter text n).state.heap o =
        some (jsonItems (readBack (jsonBuildAfter text n).state.heap o)) ∧
      (∀ name, ∃ o', Pointer.jsonNode (jsonBuildAfter text n).state.heap o name = some o' ∧
        readBack (jsonBuildAfter text n).state.heap o' =
          jsonNode (readBack (jsonBuildAfter text n).state.heap o) name) ∧
      ∀ item, ∃ o', Pointer.jsonItem (jsonBuildAfter text n).state.heap o item = some o' ∧
        readBack (jsonBuildAfter text n).state.heap o' =
          jsonItem (readBack (jsonBuildAfter text n).state.heap o) item := by
  obtain ⟨z, hz⟩ := represents_after text n
  generalize (jsonBuildAfter text n).state = b at hz ⊢
  obtain ⟨w, hs, hn, _, _, hroot⟩ := points_root hz
  obtain ⟨o, ho, hpoints⟩ := hroot.calls hs hn cs
  generalize calls cs (Focus.on [] (readBack b.heap (some 0))) = x at hpoints
  have hread := hpoints.readBack_eq hs hn
  refine ⟨o, ho, hread, hread ▸ hpoints.jsonItems hs hn, ?_, ?_⟩
  · intro name
    obtain ⟨o', ho', hpoints'⟩ := hpoints.call hs hn (.node name)
    refine ⟨o', ho', ?_⟩
    rw [hpoints'.readBack_eq hs hn, hread]
    cases x with
    | none => rfl
    | some f => exact nodeOf_on_node f name
  · intro item
    obtain ⟨o', ho', hpoints'⟩ := hpoints.call hs hn (.item item)
    refine ⟨o', ho', ?_⟩
    rw [hpoints'.readBack_eq hs hn, hread]
    cases x with
    | none => rfl
    | some f => exact nodeOf_on_item f item

/-- **`json_foreach` visits on the heap what it visits on the tree**, in the same order, whatever
the callback makes of the node it is handed; and the depth of the recursion is at most the number of
cells. -/
theorem foreach_refines {σ ε : Type} (text : Text) (n : Nat) (func : JsonTree → σ → Except ε σ)
    (data : σ) :
    Pointer.jsonForeach (jsonBuildAfter text n).state.heap
        (fun node => func (readBack (jsonBuildAfter text n).state.heap (some node)))
        (jsonBuildAfter text n).state.heap.next (some 0) data =
      some (jsonForeach func (readBack (jsonBuildAfter text n).state.heap (some 0)) data) := by
  obtain ⟨z, hz⟩ := represents_after text n
  generalize (jsonBuildAfter text n).state = b at hz ⊢
  obtain ⟨w, hs, hn, hroot, hread, _⟩ := points_root hz
  have hheight : w.height ≤ b.heap.next := Nat.le_trans (height_le_numNodes w) (hs.numNodes_le hn)
  rw [← hread, ← hroot]
  exact foreach_eq func hs hn (c := []) b.heap.next data rfl hheight

end Json
end TsnController

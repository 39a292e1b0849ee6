import TsnController.Lib.Dismantle
import TsnController.Json.Build

/-!
# `json.c`: giving a tree back

`json_free` comes twice in the source: as the loop that is compiled, and, in a comment below it, as
the recursion it replaced. Both are here, statement by statement on the heap of nodes, and both are
instances of the two ways of dismantling a linked tree.

A node's name and value are blocks of their own in the source, freed right before the node. They
are part of the cell here, so that they are freed with it.
-/

set_option autoImplicit false

namespace TsnController
namespace Json

open Lib

/-- One iteration of the `while`. -/
def jsonFreeStep : Sweep JsonCell → Sweep JsonCell
  | .running heap node freed =>
    match heap.read node with
    | none => .fault
    | some cell =>
      -- `next = node->left; node->left = NULL;`
      let heap := heap.write node { cell with left := none }
      match cell.left with
      | some next => .running heap next freed
      | none =>
        let next := if cell.right ≠ none then cell.right else cell.parent
        .goto (heap.free node) (freed ++ [node]) next
  | .done heap freed => .done heap freed
  | .fault => .fault

/-- The recursion in the comment. The node is read once for each argument and once more for the
two blocks freed with it; `none` is a read of a freed node, or a tree deeper than the fuel. -/
def jsonFreeRecursive : Nat → Heap JsonCell → Option Ptr → Option (Heap JsonCell × List Ptr)
  | _, heap, none => some (heap, [])
  | 0, _, some _ => none
  | depth + 1, heap, some node => do
    let cell ← heap.read node
    let (heap, left) ← jsonFreeRecursive depth heap cell.left
    let cell ← heap.read node
    let (heap, right) ← jsonFreeRecursive depth heap cell.right
    let _ ← heap.read node
    return (heap.free node, left ++ right ++ [node])

/-- `node->left = NULL`. -/
def clearLeft (cell : JsonCell) : JsonCell := { cell with left := none }

theorem cuts_clearLeft : Cuts clearLeft := ⟨fun _ => rfl, fun _ => rfl, fun _ => rfl⟩

theorem jsonFreeStep_eq : jsonFreeStep = sweepStep clearLeft := by
  funext s
  cases s with
  | running heap node freed =>
    rw [jsonFreeStep, sweepStep]
    cases heap.read node with
    | none => rfl
    | some cell =>
      obtain ⟨data, left, right, parent⟩ := cell
      cases left with
      | some next => rfl
      | none => cases right <;> rfl
  | done heap freed => rfl
  | fault => rfl

theorem jsonFreeRecursive_eq (depth : Nat) : ∀ (heap : Heap JsonCell) (node : Option Ptr),
    jsonFreeRecursive depth heap node = freeBelow depth heap node := by
  induction depth with
  | zero => intro heap node; cases node <;> rfl
  | succ depth ih =>
    intro heap node
    cases node with
    | none => rfl
    | some node =>
      rw [jsonFreeRecursive, freeBelow]
      simp only [ih]
      rfl

/-- **The loop and the recursion free the same nodes.** On a tree whose links agree and whose root
has neither a parent nor a sibling, the loop returns; it has freed every node that the links reach
from the root, each once, and nothing else; it never went through a pointer to a freed node; and
what it freed is what the recursion frees. -/
theorem jsonFree_eq_recursive {heap : Heap JsonCell} {c : Ptr × JsonCell}
    {l : BinaryTree (Ptr × JsonCell)} (hs : Stored heap none (.node c l .nil))
    (hn : (ptrs (.node c l .nil)).Nodup) :
    ∃ n heap' freed, jsonFreeStep^[n] (.running heap c.1 []) = .done heap' freed ∧
      (∀ m, jsonFreeStep^[m] (.running heap c.1 []) ≠ .fault) ∧
      freed.Nodup ∧ (∀ q, q ∈ freed ↔ ∃ ds, follow heap (some c.1) ds = some q) ∧
      Freed heap heap' freed ∧
      ∃ heap'' freed', jsonFreeRecursive heap.next heap (some c.1) = some (heap'', freed') ∧
        freed.Perm freed' ∧ Freed heap heap'' freed := by
  have hperm := sweepOrder_perm (.node c l .nil : BinaryTree (Ptr × JsonCell))
  obtain ⟨heap', hfreed, n, hrun⟩ := sweep cuts_clearLeft [] hs hn
  obtain ⟨heap'', hfreed', hrec⟩ := freeBelow_eq (n := heap.next) hs hn
    (Nat.le_trans (height_le_numNodes _) (hs.numNodes_le hn))
  rw [jsonFreeStep_eq]
  refine ⟨n, heap', sweepOrder (.node c l .nil), hrun, ?_, hperm.nodup_iff.mpr hn, ?_,
    hfreed.perm hperm.symm, heap'', postorder (.node c l .nil), ?_, ?_, hfreed'.perm hperm.symm⟩
  · exact Leads.ne_fault ⟨n, hrun⟩ rfl (by simp [Sweep.goto])
  · intro q
    rw [hperm.mem_iff]
    constructor
    · intro hq
      obtain ⟨ds, hds⟩ := exists_subtreeAt_of_mem hq
      exact ⟨ds, (hs.follow_eq ds).trans hds⟩
    · rintro ⟨ds, hds⟩
      exact rootPtr_subtreeAt_mem ds ((hs.follow_eq ds).symm.trans hds)
  · rw [jsonFreeRecursive_eq]
    exact hrec
  · exact hperm.trans (postorder_perm _).symm

/-- The heap of an array with two elements. -/
def twoElements : Heap JsonCell :=
  ((Heap.empty.alloc { type := .array, left := some 1 }).alloc
    { type := .null, right := some 2, parent := some 0 }).alloc { type := .null, parent := some 0 }

/-- On it the loop returns, and has freed what the recursion frees. -/
theorem jsonFree_eq_recursive_two :
    ∃ n heap' freed, jsonFreeStep^[n] (.running twoElements 0 []) = .done heap' freed ∧
      (∀ m, jsonFreeStep^[m] (.running twoElements 0 []) ≠ .fault) ∧ freed.Nodup ∧
      (∀ q, q ∈ freed ↔ ∃ ds, follow twoElements (some 0) ds = some q) ∧
      Freed twoElements heap' freed ∧
      ∃ heap'' freed', jsonFreeRecursive 3 twoElements (some 0) = some (heap'', freed') ∧
        freed.Perm freed' ∧ Freed twoElements heap'' freed :=
  @jsonFree_eq_recursive twoElements (0, { type := .array, left := some 1 })
    (.node (1, { type := .null, right := some 2, parent := some 0 }) .nil
      (.node (2, { type := .null, parent := some 0 }) .nil .nil))
    ⟨rfl, rfl, rfl, rfl, ⟨rfl, rfl, rfl, rfl, trivial, rfl, rfl, rfl, rfl, trivial, trivial⟩,
      trivial⟩ (by decide)

end Json
end TsnController

import TsnController.Lib.Dismantle
import TsnController.Lib.Zipper

/-!
# Counting cells

Where pointers are never used twice, whether a program has lost a cell can be told by counting. As
many cells have been handed out as the heap's `next` says, and a tree stored in the heap holds as
many of them as it has nodes; it holds all of them exactly if the two numbers are the same
(`Stored.forall_mem_iff`). Then, and only then, nothing is left when the tree has been freed
(`Freed.empty_iff`).
-/

set_option autoImplicit false

namespace TsnController
namespace Lib

open Heap

variable {α β : Type}

/-! ## The heap -/

/-- Every pointer that was handed out leads to a cell: nothing has been freed. -/
def Heap.Full (h : Heap α) : Prop := ∀ p < h.next, ∃ a, h.read p = some a

theorem Heap.full_empty : (Heap.empty : Heap α).Full := fun p hp => absurd hp (Nat.not_lt_zero p)

theorem Heap.Full.alloc {h : Heap α} (hfull : h.Full) (a : α) : (h.alloc a).Full := by
  intro p hp
  by_cases hnext : p = h.next
  · exact ⟨a, hnext ▸ read_alloc_self h a⟩
  · obtain ⟨b, hb⟩ := hfull p (Nat.lt_of_le_of_ne (Nat.le_of_lt_succ hp) hnext)
    exact ⟨b, (read_alloc_of_ne hnext).trans hb⟩

theorem Heap.Full.write {h : Heap α} (hfull : h.Full) (q : Ptr) (a : α) : (h.write q a).Full := by
  intro p hp
  obtain ⟨b, hb⟩ := hfull p hp
  by_cases hq : p = q
  · subst hq
    exact ⟨a, read_write_self hb⟩
  · exact ⟨b, (read_write_of_ne hq).trans hb⟩

/-! ## The tree -/

theorem numNodes_map (f : α → β) (t : BinaryTree α) : (t.map f).numNodes = t.numNodes := by
  induction t with
  | nil => rfl
  | node a l r ihl ihr => simp only [BinaryTree.map, BinaryTree.numNodes, ihl, ihr]

/-- The nodes of a focus are counted in the whole tree once. -/
theorem numNodes_plug : ∀ (c : List (Frame α)) (t u : BinaryTree α),
    (plug c t).numNodes + u.numNodes = (plug c u).numNodes + t.numNodes
  | [], t, u => Nat.add_comm _ _
  | .left a r :: c, t, u => by
    have h := numNodes_plug c (.node a t r) (.node a u r)
    simp only [BinaryTree.numNodes] at h
    simp only [plug]
    omega
  | .right a l :: c, t, u => by
    have h := numNodes_plug c (.node a l t) (.node a l u)
    simp only [BinaryTree.numNodes] at h
    simp only [plug]
    omega

theorem Spine.map (f : α → β) : ∀ {c : List (Frame α)}, Spine c → Spine (c.map (Frame.map f))
  | [], _ => trivial
  | .left _ _ :: _, ⟨hr, hc⟩ => ⟨by rw [hr]; rfl, Spine.map f hc⟩
  | .right _ _ :: c, ⟨hp, hc⟩ => by
    refine ⟨?_, Spine.map f hc⟩
    rw [parentOf_map, ne_eq, Option.map_eq_none_iff]
    exact hp

/-! ## Both -/

section Stored

variable [Links α] {h h' : Heap α} {par : Option Ptr} {t : BinaryTree (Ptr × α)}

/-- **The tree has all the cells** exactly if it has as many nodes as cells were handed out. -/
theorem Stored.forall_mem_iff (hs : Stored h par t) (hn : (ptrs t).Nodup) :
    (∀ p < h.next, p ∈ ptrs t) ↔ t.numNodes = h.next := by
  have hsub : ptrs t ⊆ List.range h.next := by
    intro q hq
    obtain ⟨a, ha⟩ := hs.read_of_mem q hq
    exact List.mem_range.mpr (lt_next_of_read ha)
  rw [← length_ptrs]
  constructor
  · intro hall
    have hle : (List.range h.next).length ≤ (ptrs t).length :=
      (List.subperm_of_subset List.nodup_range fun p hp => hall p (List.mem_range.mp hp)).length_le
    rw [List.length_range] at hle
    exact Nat.le_antisymm (length_ptrs t ▸ hs.numNodes_le hn) hle
  · intro hlength p hp
    have hperm : (ptrs t).Perm (List.range h.next) :=
      (List.subperm_of_subset hn hsub).perm_of_length_le
        (Nat.le_of_eq (List.length_range.trans hlength.symm))
    exact hperm.mem_iff.mpr (List.mem_range.mpr hp)

/-- **Nothing is left** of a heap when a tree has been freed exactly if the tree had all of it. -/
theorem Freed.empty_iff (hf : Freed h h' (ptrs t)) (hfull : h.Full) (hs : Stored h par t)
    (hn : (ptrs t).Nodup) : (∀ p, h'.read p = none) ↔ t.numNodes = h.next := by
  rw [← hs.forall_mem_iff hn]
  constructor
  · intro hempty p hp
    by_contra hnot
    obtain ⟨a, ha⟩ := hfull p hp
    rw [← hf.kept p hnot, hempty p] at ha
    exact absurd ha (by simp)
  · intro hall p
    by_cases hp : p < h.next
    · exact hf.gone p (hall p hp)
    · have hnone : h.read p = none := h.fresh p (Nat.le_of_not_lt hp)
      rw [hf.kept p fun hmem => ?_, hnone]
      obtain ⟨a, ha⟩ := hs.read_of_mem p hmem
      rw [hnone] at ha
      exact absurd ha (by simp)

end Stored

end Lib
end TsnController

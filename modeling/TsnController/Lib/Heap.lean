import Mathlib.Tactic.Common

/-!
# Cells behind pointers

The heap the C sources allocate from, reduced to what their data structures need of it: a
pointer names a cell, `alloc` hands out a pointer no cell had before, `write` stores through
a pointer that is already allocated. Nothing here knows what a cell holds.

`fresh` is the allocator's contract and it is a *field*, so a heap that could hand out a
pointer twice cannot be written down. Everything downstream that says "the new node is not one
of the old ones" is an application of it.
-/

set_option autoImplicit false

namespace TsnController
namespace Lib

/-- A pointer that is not `NULL`. A pointer that may be is an `Option Ptr`. -/
abbrev Ptr := Nat

/-- Allocated cells by pointer. From `next` on nothing has been handed out yet. -/
structure Heap (α : Type) where
  cell : Ptr → Option α
  next : Ptr
  fresh : ∀ p, next ≤ p → cell p = none

namespace Heap

variable {α : Type}

def empty : Heap α where
  cell _ := none
  next := 0
  fresh _ _ := rfl

def read (h : Heap α) (p : Ptr) : Option α := h.cell p

/-- `malloc` and an initialising store. The pointer handed out is `h.next`. -/
def alloc (h : Heap α) (a : α) : Heap α where
  cell q := if q = h.next then some a else h.cell q
  next := h.next + 1
  fresh q hq := by
    have hne : q ≠ h.next := Nat.ne_of_gt hq
    simp only [hne, if_false]
    exact h.fresh q (Nat.le_of_succ_le hq)

/-- A store through `p`. Through a pointer that was never handed out it does nothing. -/
def write (h : Heap α) (p : Ptr) (a : α) : Heap α where
  cell q := if q = p then (h.cell p).map (fun _ => a) else h.cell q
  next := h.next
  fresh q hq := by
    by_cases hqp : q = p
    · subst hqp; simp [h.fresh q hq]
    · simp only [hqp, if_false]; exact h.fresh q hq

/-- `free(p)`. The pointer is not handed out again. -/
def free (h : Heap α) (p : Ptr) : Heap α where
  cell q := if q = p then none else h.cell q
  next := h.next
  fresh q hq := by
    by_cases hqp : q = p
    · simp only [hqp, if_true]
    · simp only [hqp, if_false]; exact h.fresh q hq

/-! ## What each operation does to a read -/

@[simp] theorem read_empty (p : Ptr) : (empty : Heap α).read p = none := rfl

@[simp] theorem next_alloc (h : Heap α) (a : α) : (h.alloc a).next = h.next + 1 := rfl

@[simp] theorem next_write (h : Heap α) (p : Ptr) (a : α) : (h.write p a).next = h.next := rfl

@[simp] theorem read_next (h : Heap α) : h.read h.next = none := h.fresh h.next (Nat.le_refl _)

theorem lt_next_of_read {h : Heap α} {p : Ptr} {a : α} (hp : h.read p = some a) : p < h.next := by
  by_contra hge
  have hnone : h.read p = none := h.fresh p (Nat.le_of_not_lt hge)
  rw [hnone] at hp
  exact absurd hp (by simp)

theorem ne_next_of_read {h : Heap α} {p : Ptr} {a : α} (hp : h.read p = some a) : p ≠ h.next :=
  Nat.ne_of_lt (lt_next_of_read hp)

@[simp] theorem read_alloc_self (h : Heap α) (a : α) : (h.alloc a).read h.next = some a := by
  simp [read, alloc]

theorem read_alloc_of_ne {h : Heap α} {p : Ptr} {a : α} (hp : p ≠ h.next) :
    (h.alloc a).read p = h.read p := by
  simp [read, alloc, hp]

theorem read_write_self {h : Heap α} {p : Ptr} {a b : α} (hp : h.read p = some b) :
    (h.write p a).read p = some a := by
  unfold read at hp
  simp [read, write, hp]

theorem read_write_of_ne {h : Heap α} {p q : Ptr} {a : α} (hq : q ≠ p) :
    (h.write p a).read q = h.read q := by
  simp [read, write, hq]

@[simp] theorem read_free_self (h : Heap α) (p : Ptr) : (h.free p).read p = none := by
  simp [read, free]

theorem read_free_of_ne {h : Heap α} {p q : Ptr} (hq : q ≠ p) : (h.free p).read q = h.read q := by
  simp [read, free, hq]

/-! ## Something that holds of every cell -/

def All (P : α → Prop) (h : Heap α) : Prop := ∀ p a, h.read p = some a → P a

variable {P : α → Prop}

theorem all_empty : (empty : Heap α).All P := fun p a ha => absurd ha (by simp)

theorem All.alloc {h : Heap α} (hall : h.All P) {a : α} (ha : P a) : (h.alloc a).All P := by
  intro p b hb
  by_cases hp : p = h.next
  · rw [hp, read_alloc_self] at hb
    exact Option.some.inj hb ▸ ha
  · rw [read_alloc_of_ne hp] at hb
    exact hall p b hb

theorem All.write {h : Heap α} (hall : h.All P) {q : Ptr} {a : α} (ha : P a) :
    (h.write q a).All P := by
  intro p b hb
  by_cases hp : p = q
  · subst hp
    cases hread : h.read p with
    | none =>
      have hcell : h.cell p = none := hread
      simp [read, Heap.write, hcell] at hb
    | some c =>
      rw [read_write_self hread] at hb
      exact Option.some.inj hb ▸ ha
  · rw [read_write_of_ne hp] at hb
    exact hall p b hb

end Heap

end Lib
end TsnController

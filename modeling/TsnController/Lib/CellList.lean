import Mathlib.Tactic.Common

/-!
# A list that starts with an empty cell

A linked list whose first cell is allocated together with the list, before there is anything to
put into it. Every cell has a counter; `0` in the first cell says that it holds nothing, and what
it then has in the place of a value is whatever was in memory. The first push fills that cell,
every later one appends a cell at the end.

A program can look at such a list in two ways. `held` respects the counter. `values` follows the
links from the first cell to the last and does not look at it, so that on a list nobody has pushed
to it finds one value that was never stored. `values_eq_held` says when the two agree.
-/

set_option autoImplicit false

namespace TsnController
namespace Lib

structure ListCell (α : Type) where
  value : α
  size : Nat

/-- Only a list that holds something has a second cell. -/
structure CellList (α : Type) where
  head : ListCell α
  next : List (ListCell α)
  fresh : head.size = 0 → next = []

namespace CellList

variable {α : Type}

/-- A new list; `junk` is what the memory of its first cell held before. -/
def create (junk : α) : CellList α := ⟨⟨junk, 0⟩, [], fun _ => rfl⟩

def push (list : CellList α) (data : α) : CellList α :=
  if h : list.head.size = 0 then ⟨⟨data, 1⟩, [], fun _ => rfl⟩
  else
    let last := list.next.getLastD list.head
    ⟨list.head, list.next ++ [⟨data, last.size + 1⟩], fun h' => absurd h' h⟩

/-- What a loop over the links sees. -/
def values (list : CellList α) : List α := (list.head :: list.next).map (·.value)

/-- What has been pushed. -/
def held (list : CellList α) : List α := if list.head.size = 0 then [] else list.values

@[simp] theorem held_create (junk : α) : (create junk).held = [] := rfl

@[simp] theorem held_push (list : CellList α) (data : α) :
    (list.push data).held = list.held ++ [data] := by
  unfold push held
  by_cases h : list.head.size = 0
  · rw [dif_pos h, if_pos h, if_neg (by simp)]
    rfl
  · rw [dif_neg h, if_neg h, if_neg h]
    simp [values]

theorem values_eq_held {list : CellList α} (h : list.held ≠ []) : list.values = list.held := by
  unfold held at h ⊢
  by_cases h0 : list.head.size = 0
  · rw [if_pos h0] at h
    exact absurd rfl h
  · rw [if_neg h0]

theorem values_ne_nil (list : CellList α) : list.values ≠ [] := by
  unfold values
  simp

/-- Any number of pushes. -/
theorem held_foldl_push {β : Type} (f : β → α) (xs : List β) : ∀ list : CellList α,
    (xs.foldl (fun list x => list.push (f x)) list).held = list.held ++ xs.map f := by
  induction xs with
  | nil => intro list; simp
  | cons x xs ih =>
    intro list
    rw [List.foldl_cons, ih (list.push (f x)), held_push, List.map_cons, List.append_assoc]
    rfl

/-- **A loop over the links sees what was pushed exactly if something was.** -/
theorem values_foldl_push_iff (junk : α) (xs : List α) :
    (xs.foldl push (create junk)).values = xs ↔ xs ≠ [] := by
  have hheld : (xs.foldl push (create junk)).held = xs := by
    have h := held_foldl_push id xs (create junk)
    rw [List.map_id, held_create, List.nil_append] at h
    exact h
  constructor
  · intro hvalues hnil
    exact values_ne_nil _ (hvalues.trans hnil)
  · intro hne
    rw [values_eq_held (by rw [hheld]; exact hne), hheld]

end CellList

end Lib
end TsnController

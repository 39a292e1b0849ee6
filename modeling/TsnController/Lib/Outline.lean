import TsnController.Lib.LinkedTree

/-!
# Outlines

A tree whose left branch is a first child and whose right branch is a next sibling, written down as
a list: every node with its level, in the order in which a walk comes to them. The levels are all
that is needed to put the tree together again (`assemble_outline`).
-/

set_option autoImplicit false

namespace TsnController
namespace Lib

variable {α : Type}

def outline (level : Nat) : BinaryTree α → List (Nat × α)
  | .nil => []
  | .node a l r => (level, a) :: (outline (level + 1) l ++ outline level r)

/-- The tree that starts at this level, and what follows it. -/
def assemble : Nat → Nat → List (Nat × α) → BinaryTree α × List (Nat × α)
  | 0, _, xs => (.nil, xs)
  | _ + 1, _, [] => (.nil, [])
  | fuel + 1, level, (k, a) :: xs =>
    if k = level then
      let below := assemble fuel (level + 1) xs
      let beside := assemble fuel level below.2
      (.node a below.1 beside.1, beside.2)
    else (.nil, (k, a) :: xs)

theorem length_outline (t : BinaryTree α) : ∀ level, (outline level t).length = t.numNodes := by
  induction t with
  | nil => exact fun _ => rfl
  | node a l r ihl ihr =>
    intro level
    rw [outline, List.length_cons, List.length_append, ihl, ihr]
    rfl

/-- What comes behind a tree is on a lower level than the tree. -/
def Below (level : Nat) (xs : List (Nat × α)) : Prop := ∀ x ∈ xs.head?, x.1 < level

theorem below_outline {level : Nat} {xs : List (Nat × α)} (h : Below level xs) (t : BinaryTree α) :
    Below (level + 1) (outline level t ++ xs) := by
  cases t with
  | nil => exact fun x hx => Nat.lt_succ_of_lt (h x hx)
  | node a l r =>
    rintro x ⟨⟩
    exact Nat.lt_succ_self level

theorem assemble_outline : ∀ (t : BinaryTree α) {fuel level : Nat} {xs : List (Nat × α)},
    t.height ≤ fuel → Below level xs → assemble fuel level (outline level t ++ xs) = (t, xs)
  | .nil, fuel, level, xs, _, hxs => by
    rw [outline, List.nil_append]
    cases fuel with
    | zero => rfl
    | succ fuel =>
      cases xs with
      | nil => rfl
      | cons x xs =>
        have hne : x.1 ≠ level := Nat.ne_of_lt (hxs x rfl)
        rw [assemble, if_neg hne]
  | .node a l r, 0, _, _, hfuel, _ => absurd hfuel (Nat.not_succ_le_zero _)
  | .node a l r, fuel + 1, level, xs, hfuel, hxs => by
    have hmax := Nat.max_le.mp (Nat.le_of_succ_le_succ hfuel)
    have hbelow := assemble_outline l hmax.1 (below_outline hxs r)
    have hbeside := assemble_outline r hmax.2 hxs
    rw [outline, List.cons_append, List.append_assoc, assemble, if_pos rfl, hbelow]
    dsimp only
    rw [hbeside]

end Lib
end TsnController

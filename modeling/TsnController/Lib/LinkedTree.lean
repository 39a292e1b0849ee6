import Mathlib.Data.List.Nodup
import Mathlib.Data.List.Perm.Subperm
import Mathlib.Data.Tree.Basic
import TsnController.Lib.Heap

/-!
# Trees linked through a heap

A cell with a `left`, a `right` and a `parent` link, and what it means for a heap to hold a
binary tree of such cells. `left` is the first child, `right` the next sibling, and a `parent`
link therefore points at the cell whose *left* chain one is in: `Stored` passes the parent down
unchanged to the right and renews it to the left.

A tree is stored *at* pointers, so the trees here carry them: `BinaryTree (Ptr × α)`. That the
pointers are pairwise distinct is kept beside `Stored` and not inside it, because it is the
conjunct that must be renegotiated at every allocation while `Stored` only ever needs to be
framed.

Besides framing there are two ways to look at a stored tree from outside: `follow` walks its links,
and `load` reads it back. Both agree with the tree (`Stored.follow_eq`, `Stored.load_next`).
-/

set_option autoImplicit false

namespace TsnController
namespace Lib

open Heap

/-! ## Trees that know their pointers -/

section Trees

variable {α : Type}

/-- The pointer a tree hangs by: `NULL` for the empty tree. -/
def rootPtr : BinaryTree (Ptr × α) → Option Ptr
  | .nil => none
  | .node c _ _ => some c.1

@[simp] theorem rootPtr_nil : rootPtr (.nil : BinaryTree (Ptr × α)) = none := rfl

@[simp] theorem rootPtr_node (c : Ptr × α) (l r : BinaryTree (Ptr × α)) :
    rootPtr (.node c l r) = some c.1 := rfl

/-- The pointers of a tree in preorder. -/
def ptrs : BinaryTree (Ptr × α) → List Ptr
  | .nil => []
  | .node c l r => c.1 :: (ptrs l ++ ptrs r)

@[simp] theorem ptrs_nil : ptrs (.nil : BinaryTree (Ptr × α)) = [] := rfl

@[simp] theorem ptrs_node (c : Ptr × α) (l r : BinaryTree (Ptr × α)) :
    ptrs (.node c l r) = c.1 :: (ptrs l ++ ptrs r) := rfl

theorem length_ptrs (t : BinaryTree (Ptr × α)) : (ptrs t).length = t.numNodes := by
  induction t with
  | nil => rfl
  | node c l r ihl ihr => simp [ihl, ihr]

theorem height_le_numNodes (t : BinaryTree (Ptr × α)) : t.height ≤ t.numNodes := by
  induction t with
  | nil => exact Nat.le_refl _
  | node c l r ihl ihr => simp only [BinaryTree.height, BinaryTree.numNodes]; omega

/-- One link followed. -/
inductive Dir
  | left
  | right
  deriving DecidableEq, Repr

/-- The subtree a walk leads to. -/
def subtreeAt : BinaryTree α → List Dir → BinaryTree α
  | t, [] => t
  | .nil, _ :: _ => .nil
  | .node _ l _, .left :: ds => subtreeAt l ds
  | .node _ _ r, .right :: ds => subtreeAt r ds

@[simp] theorem subtreeAt_self (t : BinaryTree α) : subtreeAt t [] = t := by
  cases t <;> rfl

@[simp] theorem subtreeAt_nil (ds : List Dir) : subtreeAt (.nil : BinaryTree α) ds = .nil := by
  cases ds <;> rfl

theorem rootPtr_subtreeAt_mem : ∀ {t : BinaryTree (Ptr × α)} (ds : List Dir) {p : Ptr},
    rootPtr (subtreeAt t ds) = some p → p ∈ ptrs t
  | .nil, ds, _, hp => absurd hp (by simp)
  | .node c l r, [], p, hp => by
    simp only [subtreeAt, rootPtr_node, Option.some.injEq] at hp
    simp [hp]
  | .node _ _ _, .left :: ds, _, hp => by simp [rootPtr_subtreeAt_mem ds hp]
  | .node _ _ _, .right :: ds, _, hp => by simp [rootPtr_subtreeAt_mem ds hp]

/-- A cell of a tree is where some walk leads. -/
theorem exists_subtreeAt_of_mem {p : Ptr} : ∀ {t : BinaryTree (Ptr × α)}, p ∈ ptrs t →
    ∃ ds, rootPtr (subtreeAt t ds) = some p := by
  intro t
  induction t with
  | nil => intro hp; exact absurd hp (by simp)
  | node c l r ihl ihr =>
    intro hp
    rw [ptrs_node, List.mem_cons, List.mem_append] at hp
    rcases hp with rfl | hp | hp
    · exact ⟨[], rfl⟩
    · obtain ⟨ds, hds⟩ := ihl hp
      exact ⟨.left :: ds, hds⟩
    · obtain ⟨ds, hds⟩ := ihr hp
      exact ⟨.right :: ds, hds⟩

/-- **Distinct pointers, distinct walks**: with no pointer used twice, only one walk leads to
each. The three mixed cases are one and the same clash, a pointer at two places of the tree. -/
theorem subtreeAt_injective : ∀ {t : BinaryTree (Ptr × α)} (_ : (ptrs t).Nodup)
    (ds₁ ds₂ : List Dir) {p : Ptr}, rootPtr (subtreeAt t ds₁) = some p →
    rootPtr (subtreeAt t ds₂) = some p → ds₁ = ds₂
  | .nil, _, _, _, _, h₁, _ => absurd h₁ (by simp)
  | .node c l r, hn, ds₁, ds₂, p, h₁, h₂ => by
    simp only [ptrs_node, List.nodup_cons, List.mem_append, not_or, List.nodup_append] at hn
    obtain ⟨⟨hcl, hcr⟩, hnl, hnr, hdis⟩ := hn
    match ds₁, ds₂ with
    | [], [] => rfl
    | [], .left :: ds =>
      simp only [subtreeAt, rootPtr_node, Option.some.injEq] at h₁ h₂
      exact absurd (rootPtr_subtreeAt_mem ds h₂) (h₁ ▸ hcl)
    | [], .right :: ds =>
      simp only [subtreeAt, rootPtr_node, Option.some.injEq] at h₁ h₂
      exact absurd (rootPtr_subtreeAt_mem ds h₂) (h₁ ▸ hcr)
    | .left :: ds, [] =>
      simp only [subtreeAt, rootPtr_node, Option.some.injEq] at h₁ h₂
      exact absurd (rootPtr_subtreeAt_mem ds h₁) (h₂ ▸ hcl)
    | .right :: ds, [] =>
      simp only [subtreeAt, rootPtr_node, Option.some.injEq] at h₁ h₂
      exact absurd (rootPtr_subtreeAt_mem ds h₁) (h₂ ▸ hcr)
    | .left :: ds, .left :: ds' => rw [subtreeAt_injective hnl ds ds' h₁ h₂]
    | .right :: ds, .right :: ds' => rw [subtreeAt_injective hnr ds ds' h₁ h₂]
    | .left :: ds, .right :: ds' =>
      exact absurd rfl (hdis p (rootPtr_subtreeAt_mem ds h₁) p (rootPtr_subtreeAt_mem ds' h₂))
    | .right :: ds, .left :: ds' =>
      exact absurd rfl (hdis p (rootPtr_subtreeAt_mem ds' h₂) p (rootPtr_subtreeAt_mem ds h₁))

end Trees

/-! ## A heap that holds a tree -/

/-- The links of a cell. -/
class Links (α : Type) where
  left : α → Option Ptr
  right : α → Option Ptr
  parent : α → Option Ptr

section Stored

variable {α : Type} [Links α]

/-- `h` holds `t`, cell by cell, in a chain whose parent is `par`. -/
def Stored (h : Heap α) : Option Ptr → BinaryTree (Ptr × α) → Prop
  | _, .nil => True
  | par, .node c l r =>
      h.read c.1 = some c.2 ∧ Links.left c.2 = rootPtr l ∧ Links.right c.2 = rootPtr r ∧
      Links.parent c.2 = par ∧ Stored h (some c.1) l ∧ Stored h par r

/-- **Framing.** A heap that answers the same at the tree's own pointers holds the same tree. -/
theorem Stored.congr {h h' : Heap α} : ∀ {par : Option Ptr} {t : BinaryTree (Ptr × α)},
    (∀ q ∈ ptrs t, h'.read q = h.read q) → Stored h par t → Stored h' par t
  | _, .nil, _, _ => trivial
  | par, .node c l r, hag, ⟨hc, hl, hr, hp, hsl, hsr⟩ => by
    refine ⟨?_, hl, hr, hp, ?_, ?_⟩
    · rw [hag c.1 (by simp)]; exact hc
    · exact Stored.congr (fun q hq => hag q (by simp [hq])) hsl
    · exact Stored.congr (fun q hq => hag q (by simp [hq])) hsr

theorem Stored.read_of_mem {h : Heap α} : ∀ {par : Option Ptr} {t : BinaryTree (Ptr × α)},
    Stored h par t → ∀ q ∈ ptrs t, ∃ a, h.read q = some a
  | _, .nil, _, q, hq => absurd hq (by simp)
  | par, .node c l r, ⟨hc, _, _, _, hsl, hsr⟩, q, hq => by
    simp only [ptrs_node, List.mem_cons, List.mem_append] at hq
    rcases hq with rfl | hq | hq
    · exact ⟨c.2, hc⟩
    · exact hsl.read_of_mem q hq
    · exact hsr.read_of_mem q hq

theorem Stored.next_notMem {h : Heap α} {par : Option Ptr} {t : BinaryTree (Ptr × α)}
    (hs : Stored h par t) : h.next ∉ ptrs t := by
  intro hmem
  obtain ⟨a, ha⟩ := hs.read_of_mem _ hmem
  exact absurd ha (by simp)

def Dir.link : Dir → α → Option Ptr
  | .left, a => Links.left a
  | .right, a => Links.right a

/-- Where a walk over the links of `h` ends; `none` once it meets `NULL`. -/
def follow (h : Heap α) : Option Ptr → List Dir → Option Ptr
  | o, [] => o
  | none, _ :: _ => none
  | some p, d :: ds => follow h ((h.read p).bind d.link) ds

@[simp] theorem follow_none (h : Heap α) (ds : List Dir) : follow h none ds = none := by
  cases ds <;> rfl

/-- Walking the heap is walking the tree. -/
theorem Stored.follow_eq {h : Heap α} : ∀ {par : Option Ptr} {t : BinaryTree (Ptr × α)}
    (ds : List Dir), Stored h par t → follow h (rootPtr t) ds = rootPtr (subtreeAt t ds)
  | _, t, [], _ => by simp [follow]
  | _, .nil, _ :: _, _ => by simp
  | par, .node c l r, d :: ds, ⟨hc, hl, hr, _, hsl, hsr⟩ => by
    cases d with
    | left => simp only [rootPtr_node, follow, hc, Option.bind_some, Dir.link, hl, subtreeAt,
        hsl.follow_eq ds]
    | right => simp only [rootPtr_node, follow, hc, Option.bind_some, Dir.link, hr, subtreeAt,
        hsr.follow_eq ds]

/-- What a walk leads to is stored too, in some chain. -/
theorem Stored.subtreeAt {h : Heap α} : ∀ {par : Option Ptr} {t : BinaryTree (Ptr × α)}
    (ds : List Dir), Stored h par t → ∃ par', Stored h par' (subtreeAt t ds)
  | par, t, [], hs => ⟨par, by simpa using hs⟩
  | _, .nil, _ :: _, _ => ⟨none, trivial⟩
  | _, .node c _ _, .left :: ds, ⟨_, _, _, _, hsl, _⟩ => hsl.subtreeAt ds
  | _, .node _ _ _, .right :: ds, ⟨_, _, _, _, _, hsr⟩ => hsr.subtreeAt ds

/-! ## Reading a tree back -/

/-- The cells below `p`, as far down as the fuel goes. -/
def load (h : Heap α) : Nat → Option Ptr → BinaryTree α
  | 0, _ => .nil
  | _ + 1, none => .nil
  | n + 1, some p =>
    match h.read p with
    | none => .nil
    | some a => .node a (load h n (Links.left a)) (load h n (Links.right a))

theorem Stored.load_eq {h : Heap α} : ∀ {par : Option Ptr} {t : BinaryTree (Ptr × α)} {n : Nat},
    Stored h par t → t.height ≤ n → load h n (rootPtr t) = t.map Prod.snd
  | _, .nil, 0, _, _ => rfl
  | _, .nil, _ + 1, _, _ => rfl
  | _, .node c l r, 0, _, hn => absurd hn (by simp)
  | _, .node c l r, n + 1, ⟨hc, hl, hr, _, hsl, hsr⟩, hn => by
    simp only [BinaryTree.height, Nat.add_le_add_iff_right, Nat.max_le] at hn
    simp only [rootPtr_node, load, hc, hl, hr, hsl.load_eq hn.1, hsr.load_eq hn.2]
    rfl

/-- A stored tree without repeated pointers has at most as many nodes as were ever allocated. -/
theorem Stored.numNodes_le {h : Heap α} {par : Option Ptr} {t : BinaryTree (Ptr × α)}
    (hs : Stored h par t) (hn : (ptrs t).Nodup) : t.numNodes ≤ h.next := by
  rw [← length_ptrs]
  have hsub : ptrs t ⊆ List.range h.next := by
    intro q hq
    obtain ⟨a, ha⟩ := hs.read_of_mem q hq
    exact List.mem_range.mpr (lt_next_of_read ha)
  exact List.length_range (n := h.next) ▸ (List.subperm_of_subset hn hsub).length_le

/-- **A stored tree is read back whole** with the heap's own size as fuel. -/
theorem Stored.load_next {h : Heap α} {par : Option Ptr} {t : BinaryTree (Ptr × α)}
    (hs : Stored h par t) (hn : (ptrs t).Nodup) : load h h.next (rootPtr t) = t.map Prod.snd :=
  hs.load_eq (Nat.le_trans (height_le_numNodes t) (hs.numNodes_le hn))

end Stored

end Lib
end TsnController

import TsnController.Lib.Zipper

/-!
# Walking about in a stored tree

A node of a tree, with what is around it, is a `Focus`: from there one can go down to the first
child, on to the next sibling and up to the parent, and whatever one does the whole tree stays the
same. In a heap that holds the tree these three are the three links of the cell
(`Focus.links`).

Code that looks for something among the children of a node is a loop along their chain. `chainLoop`
is that loop on the heap, over pointers, with a bound on its iterations; `Focus.loop` is what it
computes on the tree. If what the one does at a cell and the other at a node agree, so do the two
loops, and the bound is not reached (`chainLoop_refines`).
-/

set_option autoImplicit false

namespace TsnController
namespace Lib

open Heap

/-- A node of a tree: the frames above it, what it says and what hangs by it. -/
structure Focus (α : Type) where
  frames : List (Frame α)
  data : α
  left : BinaryTree α
  right : BinaryTree α

namespace Focus

variable {α β : Type}

def node (f : Focus α) : BinaryTree α := .node f.data f.left f.right

/-- The tree it is a node of. -/
def whole (f : Focus α) : BinaryTree α := plug f.frames f.node

def map (g : α → β) (f : Focus α) : Focus β :=
  ⟨f.frames.map (Frame.map g), g f.data, f.left.map g, f.right.map g⟩

/-- The root of what hangs there, if anything does. -/
def on (c : List (Frame α)) : BinaryTree α → Option (Focus α)
  | .nil => none
  | .node a l r => some ⟨c, a, l, r⟩

/-- The first child. -/
def down (f : Focus α) : Option (Focus α) := on (.left f.data f.right :: f.frames) f.left

/-- The next sibling. -/
def next (f : Focus α) : Option (Focus α) := on (.right f.data f.left :: f.frames) f.right

/-- Back over the siblings to the node they hang below. -/
def upFrom : List (Frame α) → BinaryTree α → Option (Focus α)
  | [], _ => none
  | .left a r :: c, t => some ⟨c, a, t, r⟩
  | .right a l :: c, t => upFrom c (.node a l t)

def parent (f : Focus α) : Option (Focus α) := upFrom f.frames f.node

/-! ## The whole tree -/

theorem whole_on {c : List (Frame α)} {t : BinaryTree α} {g : Focus α} (h : on c t = some g) :
    g.whole = plug c t := by
  cases t with
  | nil => exact absurd h (by simp [on])
  | node a l r =>
    obtain rfl := Option.some.inj h
    rfl

theorem whole_down {f g : Focus α} (h : f.down = some g) : g.whole = f.whole := by
  rw [down] at h
  rw [whole_on h]
  rfl

theorem whole_next {f g : Focus α} (h : f.next = some g) : g.whole = f.whole := by
  rw [next] at h
  rw [whole_on h]
  rfl

theorem whole_upFrom : ∀ {c : List (Frame α)} {t : BinaryTree α} {g : Focus α},
    upFrom c t = some g → g.whole = plug c t
  | [], _, _, h => absurd h (by simp [upFrom])
  | .left _ _ :: _, _, _, h => by
    obtain rfl := Option.some.inj h
    rfl
  | .right a l :: c, t, g, h => whole_upFrom (t := .node a l t) h

theorem whole_parent {f g : Focus α} (h : f.parent = some g) : g.whole = f.whole := whole_upFrom h

/-! ## The same places in another tree -/

section Map

variable (g : α → β)

theorem on_map (c : List (Frame α)) (t : BinaryTree α) :
    on (c.map (Frame.map g)) (t.map g) = (on c t).map (map g) := by
  cases t with
  | nil => rfl
  | node a l r => rfl

theorem down_map (f : Focus α) : (f.map g).down = f.down.map (map g) :=
  on_map g (.left f.data f.right :: f.frames) f.left

theorem next_map (f : Focus α) : (f.map g).next = f.next.map (map g) :=
  on_map g (.right f.data f.left :: f.frames) f.right

theorem upFrom_map : ∀ (c : List (Frame α)) (t : BinaryTree α),
    upFrom (c.map (Frame.map g)) (t.map g) = (upFrom c t).map (map g)
  | [], _ => rfl
  | .left _ _ :: _, _ => rfl
  | .right a l :: c, t => upFrom_map c (.node a l t)

theorem parent_map (f : Focus α) : (f.map g).parent = f.parent.map (map g) :=
  upFrom_map g f.frames f.node

end Map

/-! ## On a heap -/

section Stored

theorem rootPtr_eq (c : List (Frame (Ptr × α))) (t : BinaryTree (Ptr × α)) :
    rootPtr t = (on c t).map (·.data.1) := by
  cases t with
  | nil => rfl
  | node a l r => rfl

theorem parentOf_eq : ∀ (c : List (Frame (Ptr × α))) (t : BinaryTree (Ptr × α)),
    (parentOf c).map Prod.fst = (upFrom c t).map (·.data.1)
  | [], _ => rfl
  | .left _ _ :: _, _ => rfl
  | .right a l :: c, t => parentOf_eq c (.node a l t)

/-- **The links of a cell lead where the focus goes.** -/
theorem links [Links α] {h : Heap α} {f : Focus (Ptr × α)} (hs : Stored h none f.whole) :
    h.read f.data.1 = some f.data.2 ∧ Links.left f.data.2 = f.down.map (·.data.1) ∧
      Links.right f.data.2 = f.next.map (·.data.1) ∧
      Links.parent f.data.2 = f.parent.map (·.data.1) := by
  obtain ⟨_, hread, hleft, hright, hparent, _, _⟩ := (stored_plug f.frames f.node).mp hs
  refine ⟨hread, ?_, ?_, ?_⟩
  · rw [hleft]
    exact rootPtr_eq _ _
  · rw [hright]
    exact rootPtr_eq _ _
  · rw [hparent]
    exact parentOf_eq _ _

end Stored

/-- Along a chain, until `stop` has an answer. -/
def loop {γ : Type} (stop : Nat → Focus α → Option γ) (atEnd : Nat → γ) :
    Nat → List (Frame α) → BinaryTree α → γ
  | count, _, .nil => atEnd count
  | count, c, .node a l r =>
    (stop count ⟨c, a, l, r⟩).getD (loop stop atEnd (count + 1) (.right a l :: c) r)

end Focus

/-! ## The loop on the heap -/

section Loop

variable {α β γ δ : Type} [Links α]

/-- `while (node != NULL)` along the `right` links, with a counter. `none` is a pointer that leads
nowhere, or a chain longer than the bound. -/
def chainLoop (h : Heap α) (stop : Nat → Ptr → α → Option γ) (atEnd : Nat → γ) :
    Nat → Nat → Option Ptr → Option γ
  | _, count, none => some (atEnd count)
  | 0, _, some _ => none
  | fuel + 1, count, some p =>
    (h.read p).bind fun a =>
      (stop count p a).or (chainLoop h stop atEnd fuel (count + 1) (Links.right a))

theorem chainLoop_none (h : Heap α) (stop : Nat → Ptr → α → Option γ) (atEnd : Nat → γ)
    (fuel count : Nat) : chainLoop h stop atEnd fuel count none = some (atEnd count) := by
  cases fuel <;> rfl

/-- What the two loops answer is related if what they do at a node is. -/
theorem chainLoop_refines {h : Heap α} {w : BinaryTree (Ptr × α)} (hs : Stored h none w)
    (g : Ptr × α → δ) (R : γ → β → Prop) {stop : Nat → Ptr → α → Option γ} {atEnd : Nat → γ}
    {stop' : Nat → Focus δ → Option β} {atEnd' : Nat → β}
    (hstop : ∀ n (f : Focus (Ptr × α)), f.whole = w →
      Option.Rel R (stop n f.data.1 f.data.2) (stop' n (f.map g)))
    (hend : ∀ n, R (atEnd n) (atEnd' n)) : ∀ {t : BinaryTree (Ptr × α)}
    {c : List (Frame (Ptr × α))} (fuel count : Nat), plug c t = w → t.numNodes ≤ fuel →
    ∃ x, chainLoop h stop atEnd fuel count (rootPtr t) = some x ∧
      R x (Focus.loop stop' atEnd' count (c.map (Frame.map g)) (t.map g)) := by
  intro t
  induction t with
  | nil =>
    intro c fuel count _ _
    exact ⟨atEnd count, chainLoop_none h stop atEnd fuel count, hend count⟩
  | node a l r _ ih =>
    intro c fuel count hw hfuel
    obtain ⟨fuel, rfl⟩ : ∃ k, fuel = k + 1 :=
      Nat.exists_eq_add_one_of_ne_zero (by rintro rfl; exact absurd hfuel (by simp))
    obtain ⟨hread, _, hright, _⟩ := Focus.links (f := ⟨c, a, l, r⟩) (hw ▸ hs)
    have hrel := hstop count ⟨c, a, l, r⟩ hw
    rw [rootPtr_node, chainLoop, hread, Option.bind_some, hright,
      Focus.next, ← Focus.rootPtr_eq (.right a l :: c) r]
    show ∃ x, _ ∧ R x ((stop' count (Focus.map g ⟨c, a, l, r⟩)).getD
      (Focus.loop stop' atEnd' (count + 1) ((Frame.right a l :: c).map (Frame.map g)) (r.map g)))
    dsimp only at hrel
    cases hx : stop count a.1 a.2 with
    | some x =>
      cases hy : stop' count (Focus.map g ⟨c, a, l, r⟩) with
      | some y =>
        rw [hx, hy] at hrel
        cases hrel with
        | some hxy => exact ⟨x, rfl, hxy⟩
      | none =>
        rw [hx, hy] at hrel
        exact absurd hrel (by simp)
    | none =>
      cases hy : stop' count (Focus.map g ⟨c, a, l, r⟩) with
      | some y =>
        rw [hx, hy] at hrel
        exact absurd hrel (by simp)
      | none => exact ih fuel (count + 1) hw (by simp only [BinaryTree.numNodes] at hfuel; omega)

end Loop

end Lib
end TsnController

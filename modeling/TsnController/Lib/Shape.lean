import Mathlib.Logic.Relation
import TsnController.Lib.Zipper

/-!
# What may be relied on about a linked tree

Code that walks a linked tree never sees the `BinaryTree` a proof about it speaks of; it sees
cells and links. This module turns one into the other. `TreeShaped` is the tree property in terms
of links alone, and `Focused.treeShaped` gives it for every state a focused program can be in.

`Everywhere P` is a property checked node by node, where `P` may look at the parent, at whether
the node is the first of its chain, and at whether anything hangs by its links. It is cut at a
focus like `Stored` is (`everywhere_plug`) and read off the cells by `Stored.everywhere`.
-/

set_option autoImplicit false

namespace TsnController
namespace Lib

open Heap

/-! ## Links alone -/

section Links

variable {α : Type} [Links α] {h : Heap α}

theorem follow_append (h : Heap α) : ∀ (o : Option Ptr) (ds es : List Dir),
    follow h o (ds ++ es) = follow h (follow h o ds) es
  | o, [], es => by cases o <;> rfl
  | none, _ :: _, es => by simp
  | some p, d :: ds, es => follow_append h ((h.read p).bind d.link) ds es

/-- A chain shares its parent. -/
theorem Stored.chain_parent : ∀ {par : Option Ptr} {t : BinaryTree (Ptr × α)} (n : Nat) {q : Ptr},
    Stored h par t → follow h (rootPtr t) (List.replicate n .right) = some q →
    ∃ a, h.read q = some a ∧ Links.parent a = par
  | _, .nil, _, _, _, hq => absurd hq (by simp)
  | _, .node c l r, 0, q, ⟨hc, _, _, hp, _⟩, hq => by
    simp only [List.replicate_zero, rootPtr_node, follow, Option.some.injEq] at hq
    exact ⟨c.2, hq ▸ hc, hp⟩
  | _, .node c l r, n + 1, q, ⟨hc, _, hr, _, _, hsr⟩, hq => by
    simp only [List.replicate_succ, rootPtr_node, follow, hc, Option.bind_some, Dir.link, hr] at hq
    exact hsr.chain_parent n hq

/-- A children chain is the chain to the left of its parent. -/
theorem Stored.child_parent {par : Option Ptr} {t : BinaryTree (Ptr × α)} (hs : Stored h par t)
    {ds : List Dir} {n : Nat} {p q : Ptr} (hp : follow h (rootPtr t) ds = some p)
    (hq : follow h (rootPtr t) (ds ++ .left :: List.replicate n .right) = some q) :
    ∃ a, h.read q = some a ∧ Links.parent a = some p := by
  obtain ⟨par', hsub⟩ := hs.subtreeAt ds
  rw [hs.follow_eq] at hp
  rw [follow_append, hs.follow_eq] at hq
  generalize Lib.subtreeAt t ds = u at hsub hp hq
  cases u with
  | nil => exact absurd hp (by simp)
  | node c l r =>
    obtain ⟨hc, hl, _, _, hsl, _⟩ := hsub
    simp only [rootPtr_node, Option.some.injEq] at hp
    simp only [rootPtr_node, follow, hc, Option.bind_some, Dir.link, hl] at hq
    exact hp ▸ hsl.chain_parent n hq

/-- One step along a `parent` link. -/
def ParentStep (h : Heap α) (p q : Ptr) : Prop :=
  ∃ a, h.read p = some a ∧ Links.parent a = some q

/-- The cells reachable from `root` form a tree, and the node `cur` of it and all its ancestors
are last in their sibling chains. -/
structure TreeShaped (h : Heap α) (root cur : Ptr) : Prop where
  /-- every link leads to a cell -/
  cell : ∀ ds p, follow h (some root) ds = some p → ∃ a, h.read p = some a
  /-- no cell is reached twice -/
  once : ∀ ds₁ ds₂ p, follow h (some root) ds₁ = some p → follow h (some root) ds₂ = some p →
    ds₁ = ds₂
  /-- every child has the cell it hangs below as its parent -/
  parent : ∀ ds n p q, follow h (some root) ds = some p →
    follow h (some root) (ds ++ .left :: List.replicate n .right) = some q →
    ∃ a, h.read q = some a ∧ Links.parent a = some p
  rootCell : ∃ a, h.read root = some a ∧ Links.parent a = none ∧ Links.right a = none
  current : ∃ ds, follow h (some root) ds = some cur
  last : ∀ p, Relation.ReflTransGen (ParentStep h) cur p →
    ∃ a, h.read p = some a ∧ Links.right a = none

end Links

/-! ## From a focused tree -/

section Focused

variable {α : Type} [Links α] {h : Heap α} {c : List (Frame (Ptr × α))} {p root : Ptr} {a : α}
  {l : BinaryTree (Ptr × α)}

/-- The way from the root down to the focus. -/
def pathTo {β : Type} : List (Frame β) → List Dir
  | [] => []
  | .left _ _ :: c => pathTo c ++ [.left]
  | .right _ _ :: c => pathTo c ++ [.right]

theorem subtreeAt_append {β : Type} : ∀ (t : BinaryTree β) (ds es : List Dir),
    subtreeAt t (ds ++ es) = subtreeAt (subtreeAt t ds) es
  | _, [], _ => by simp
  | .nil, _ :: _, _ => by simp
  | .node _ l _, .left :: ds, es => subtreeAt_append l ds es
  | .node _ _ r, .right :: ds, es => subtreeAt_append r ds es

theorem subtreeAt_pathTo {β : Type} : ∀ (c : List (Frame β)) (t : BinaryTree β),
    subtreeAt (plug c t) (pathTo c) = t
  | [], _ => by simp [plug, pathTo]
  | .left a r :: c, t => by
    rw [plug, pathTo, subtreeAt_append, subtreeAt_pathTo c]
    simp [subtreeAt]
  | .right a l :: c, t => by
    rw [plug, pathTo, subtreeAt_append, subtreeAt_pathTo c]
    simp [subtreeAt]

/-- The parent links from the focus stay on the spine. -/
theorem Focused.ancestor (hf : Focused h c (.node (p, a) l .nil)) (hs : Spine c) {q : Ptr}
    (hq : Relation.ReflTransGen (ParentStep h) p q) :
    ∃ c' a' l', Focused h c' (.node (q, a') l' .nil) ∧ Spine c' := by
  induction hq with
  | refl => exact ⟨c, a, l, hf, hs⟩
  | tail _ hstep ih =>
    obtain ⟨c', a', l', hf', hs'⟩ := ih
    obtain ⟨x, hread, hpar⟩ := hstep
    obtain rfl : a' = x := Option.some.inj (hf'.read_focus.symm.trans hread)
    rw [hf'.parent_focus] at hpar
    cases hup : up c' (.node (_, a') l' .nil) with
    | none => rw [(up_eq_none_iff c' _).mp hup] at hpar; exact absurd hpar (by simp)
    | some y =>
      obtain ⟨c'', y, l''⟩ := y
      obtain ⟨hpo, hs'', hplug⟩ := hs'.up_eq hup
      simp only [hpo, Option.map_some, Option.some.injEq] at hpar
      subst hpar
      exact ⟨c'', y.2, l'', ⟨hplug ▸ hf'.stored, hplug ▸ hf'.nodup⟩, hs''⟩

theorem Focused.right_none (hf : Focused h c (.node (p, a) l .nil)) : Links.right a = none :=
  hf.focus.2.2.1

/-- Over a spine the outermost frame is one descended to the left of, and has no sibling. -/
theorem StoredFrames.root_cell : ∀ {hole : Option Ptr} {c : List (Frame (Ptr × α))}
    {t : BinaryTree (Ptr × α)}, StoredFrames h hole c → Spine c → c ≠ [] →
    rootPtr (plug c t) = some root →
    ∃ a, h.read root = some a ∧ Links.parent a = none ∧ Links.right a = none
  | _, [], _, _, _, hne, _ => absurd rfl hne
  | _, [.left a r], t, ⟨ha, _, hr, hp, _⟩, ⟨hnil, _⟩, _, hroot => by
    simp only [plug, rootPtr_node, Option.some.injEq] at hroot
    subst hroot hnil
    exact ⟨a.2, ha, hp, hr⟩
  | _, .left a r :: f :: c, t, ⟨_, _, _, _, _, hf⟩, ⟨_, hs⟩, _, hroot =>
    StoredFrames.root_cell (t := .node a t r) hf hs (by simp) hroot
  | _, .right a l :: c, t, ⟨_, _, _, _, _, hf⟩, ⟨hpar, hs⟩, _, hroot =>
    StoredFrames.root_cell (t := .node a l t) hf hs (fun hc => hpar (by rw [hc]; rfl)) hroot

/-- **A focused tree over a spine is tree-shaped in its links.** -/
theorem Focused.treeShaped (hf : Focused h c (.node (p, a) l .nil)) (hs : Spine c)
    (hroot : rootPtr (plug c (.node (p, a) l .nil)) = some root) : TreeShaped h root p where
  cell ds q hq := by
    rw [← hroot, hf.stored.follow_eq] at hq
    exact hf.stored.read_of_mem q (rootPtr_subtreeAt_mem ds hq)
  once ds₁ ds₂ q h₁ h₂ := by
    rw [← hroot, hf.stored.follow_eq] at h₁ h₂
    exact subtreeAt_injective hf.nodup ds₁ ds₂ h₁ h₂
  parent ds n q q' hq hq' := by
    rw [← hroot] at hq hq'
    exact hf.stored.child_parent hq hq'
  rootCell := by
    by_cases hc : c = []
    · subst hc
      obtain rfl : p = root := by simpa [plug] using hroot
      exact ⟨a, hf.read_focus, hf.parent_focus, hf.right_none⟩
    · exact hf.frames.root_cell hs hc hroot
  current := ⟨pathTo c, by rw [← hroot, hf.stored.follow_eq, subtreeAt_pathTo]; rfl⟩
  last q hq := by
    obtain ⟨c', a', l', hf', _⟩ := hf.ancestor hs hq
    exact ⟨a', hf'.read_focus, hf'.right_none⟩

end Focused

/-! ## Node by node -/

section Everywhere

variable {α β : Type}

def hasRoot : BinaryTree α → Bool
  | .nil => false
  | .node _ _ _ => true

theorem hasRoot_up : ∀ {c c' : List (Frame α)} {t l : BinaryTree α} {a : α}, hasRoot t = true →
    up c t = some (c', a, l) → hasRoot l = true
  | [], _, _, _, _, _, h => absurd h (by simp [up])
  | .left _ _ :: _, _, _, _, _, ht, h => by
    simp only [up, Option.some.injEq, Prod.mk.injEq] at h
    rw [← h.2.2]
    exact ht
  | .right a l₀ :: _, _, t, _, _, _, h => hasRoot_up (t := .node a l₀ t) rfl h

/-- `P parent first a hasLeft hasRight` at every node `a` of a chain below `parent`. -/
def Everywhere (P : Option α → Bool → α → Bool → Bool → Prop) :
    Option α → Bool → BinaryTree α → Prop
  | _, _, .nil => True
  | par, first, .node a l r =>
      P par first a (hasRoot l) (hasRoot r) ∧ Everywhere P (some a) true l ∧
        Everywhere P par false r

/-- The same of the frames around a focus that is a node. -/
def EverywhereFrames (P : Option α → Bool → α → Bool → Bool → Prop) : List (Frame α) → Prop
  | [] => True
  | .left a r :: c =>
      P (parentOf c) (isFirst c) a true (hasRoot r) ∧ Everywhere P (parentOf c) false r ∧
      EverywhereFrames P c
  | .right a l :: c =>
      P (parentOf c) (isFirst c) a (hasRoot l) true ∧ Everywhere P (some a) true l ∧
      EverywhereFrames P c

variable {P Q : Option α → Bool → α → Bool → Bool → Prop}

/-- The root is nobody's first child. -/
theorem everywhere_plug : ∀ (c : List (Frame α)) {t : BinaryTree α}, hasRoot t = true →
    (Everywhere P none false (plug c t) ↔
      EverywhereFrames P c ∧ Everywhere P (parentOf c) (isFirst c) t)
  | [], _, _ => by simp [plug, EverywhereFrames, parentOf, isFirst]
  | .left a r :: c, t, ht => by
    rw [plug, everywhere_plug c rfl]
    simp only [Everywhere, EverywhereFrames, parentOf, isFirst, ht]
    constructor
    · rintro ⟨hc, ha, hl, hr⟩
      exact ⟨⟨ha, hr, hc⟩, hl⟩
    · rintro ⟨⟨ha, hr, hc⟩, hl⟩
      exact ⟨hc, ha, hl, hr⟩
  | .right a l :: c, t, ht => by
    rw [plug, everywhere_plug c rfl]
    simp only [Everywhere, EverywhereFrames, parentOf, isFirst, ht]
    constructor
    · rintro ⟨hc, ha, hl, hr⟩
      exact ⟨⟨ha, hl, hc⟩, hr⟩
    · rintro ⟨⟨ha, hl, hc⟩, hr⟩
      exact ⟨hc, ha, hl, hr⟩

theorem Everywhere.mono (hPQ : ∀ par first a l r, P par first a l r → Q par first a l r) :
    ∀ {par : Option α} {first : Bool} {t : BinaryTree α},
    Everywhere P par first t → Everywhere Q par first t
  | _, _, .nil, _ => trivial
  | _, _, .node _ _ _, ⟨ha, hl, hr⟩ => ⟨hPQ _ _ _ _ _ ha, hl.mono hPQ, hr.mono hPQ⟩

/-- A property of the nodes alone does not depend on where the tree hangs. -/
theorem Everywhere.elsewhere {R : α → Prop} : ∀ {par par' : Option α} {first first' : Bool}
    {t : BinaryTree α}, Everywhere (fun _ _ a _ _ => R a) par first t →
    Everywhere (fun _ _ a _ _ => R a) par' first' t
  | _, _, _, _, .nil, _ => trivial
  | _, _, _, _, .node _ _ _, ⟨ha, hl, hr⟩ => ⟨ha, hl, hr.elsewhere⟩

theorem EverywhereFrames.mono (hPQ : ∀ par first a l r, P par first a l r → Q par first a l r) :
    ∀ {c : List (Frame α)}, EverywhereFrames P c → EverywhereFrames Q c
  | [], _ => trivial
  | .left _ _ :: _, ⟨ha, hr, hc⟩ => ⟨hPQ _ _ _ _ _ ha, hr.mono hPQ, hc.mono hPQ⟩
  | .right _ _ :: _, ⟨ha, hl, hc⟩ => ⟨hPQ _ _ _ _ _ ha, hl.mono hPQ, hc.mono hPQ⟩

theorem hasRoot_map (f : Ptr × α → β) (t : BinaryTree (Ptr × α)) :
    hasRoot (t.map f) = (rootPtr t).isSome := by
  cases t <;> rfl

/-- **Read off the cells**: at every cell a walk reaches, with the parent its own link names. A
first child is the one its parent's `left` points at. -/
theorem Stored.everywhere [Links α] {h : Heap α} {f : α → β}
    {R : Option β → Bool → β → Bool → Bool → Prop} :
    ∀ {o : Option (Ptr × α)} {first : Bool} {t : BinaryTree (Ptr × α)} (ds : List Dir) {p : Ptr},
    Stored h (o.map Prod.fst) t →
    (∀ x, o = some x → h.read x.1 = some x.2 ∧ (first = true → Links.left x.2 = rootPtr t)) →
    Everywhere R (o.map fun x => f x.2) first (t.map fun x => f x.2) →
    follow h (rootPtr t) ds = some p →
    ∃ a first, h.read p = some a ∧
      R (((Links.parent a).bind h.read).map f) first (f a) (Links.left a).isSome
        (Links.right a).isSome ∧
      (first = true → ∀ c, (Links.parent a).bind h.read = some c → Links.left c = some p)
  | _, _, .nil, ds, _, _, _, _, hp => absurd hp (by simp)
  | o, first, .node c l r, [], p, ⟨hc, hl, hr, hpa, _, _⟩, hpar, ⟨hR, _, _⟩, hp => by
    simp only [follow, rootPtr_node, Option.some.injEq] at hp
    subst hp
    have hparent : (Links.parent c.2).bind h.read = o.map Prod.snd := by
      rw [hpa]
      cases o with
      | none => rfl
      | some x => simp [(hpar x rfl).1]
    rw [hasRoot_map, hasRoot_map, ← hl, ← hr] at hR
    refine ⟨c.2, first, hc, ?_, ?_⟩
    · rw [hparent, Option.map_map]
      exact hR
    · intro hf x hx
      rw [hparent, Option.map_eq_some_iff] at hx
      obtain ⟨y, hy, rfl⟩ := hx
      exact (hpar y hy).2 hf
  | o, first, .node c l r, .left :: ds, p, ⟨hc, hl, _, _, hsl, _⟩, _, ⟨_, hR, _⟩, hp => by
    simp only [follow, rootPtr_node, hc, Option.bind_some, Dir.link, hl] at hp
    exact Stored.everywhere (o := some c) ds hsl (fun x hx => by
      obtain rfl : c = x := Option.some.inj hx
      exact ⟨hc, fun _ => hl⟩) hR hp
  | o, first, .node c l r, .right :: ds, p, ⟨hc, _, hr, _, _, hsr⟩, hpar, ⟨_, _, hR⟩, hp => by
    simp only [follow, rootPtr_node, hc, Option.bind_some, Dir.link, hr] at hp
    exact Stored.everywhere (o := o) ds hsr (fun x hx => ⟨(hpar x hx).1, by simp⟩) hR hp

end Everywhere

end Lib
end TsnController

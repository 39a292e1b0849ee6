import Mathlib.Logic.Function.Iterate
import TsnController.Lib.LinkedTree

/-!
# Freeing a linked tree

Two ways of handing a stored tree back to the allocator. The obvious one recurses: children first,
then the cell. The other one keeps no stack. It goes down by `left` and cuts that link behind
itself; at a cell without a `left` link it frees the cell and leaves it to the right, or, at the
end of a chain, to the parent, which by then has no `left` link either and is freed on this second
visit. The parent links are the stack.

A loop that frees what it stands on is only right if it has read everything it will ever need from
there. That is why a freed cell is *gone* from the heap: reading it is a fault, and so is freeing it
again, and the whole of "never touches a freed cell" is that the fault is not reached.

The invariant is the tree itself. The loop enters a subtree at its root and leaves it for the
parent with all of it freed and the rest of the heap as it was (`sweep`); inside, the same holds
of the two subtrees, and nothing else is needed.
-/

set_option autoImplicit false

namespace TsnController
namespace Lib

open Heap

variable {α : Type}

/-- Where the loop is: at a cell, returned, or through a pointer to nothing. -/
inductive Sweep (α : Type)
  | running (h : Heap α) (p : Ptr) (freed : List Ptr)
  | done (h : Heap α) (freed : List Ptr)
  | fault

/-- `while (p != NULL)`. -/
def Sweep.goto (h : Heap α) (freed : List Ptr) : Option Ptr → Sweep α
  | none => .done h freed
  | some p => .running h p freed

/-- The cells in the order the loop frees them: the children of a cell, the cell, its siblings. -/
def sweepOrder : BinaryTree (Ptr × α) → List Ptr
  | .nil => []
  | .node c l r => sweepOrder l ++ c.1 :: sweepOrder r

/-- … and in the order the recursion does. -/
def postorder : BinaryTree (Ptr × α) → List Ptr
  | .nil => []
  | .node c l r => postorder l ++ postorder r ++ [c.1]

theorem sweepOrder_perm (t : BinaryTree (Ptr × α)) : (sweepOrder t).Perm (ptrs t) := by
  induction t with
  | nil => exact .refl _
  | node c l r ihl ihr =>
    rw [sweepOrder, ptrs_node]
    exact List.perm_middle.trans ((ihl.append ihr).cons c.1)

theorem postorder_perm (t : BinaryTree (Ptr × α)) : (postorder t).Perm (ptrs t) := by
  induction t with
  | nil => exact .refl _
  | node c l r ihl ihr =>
    rw [postorder, ptrs_node]
    exact (List.perm_append_singleton _ _).trans ((ihl.append ihr).cons c.1)

/-! ## What freeing a tree leaves -/

/-- Exactly the cells of `ps` are gone. -/
structure Freed (h h' : Heap α) (ps : List Ptr) : Prop where
  gone : ∀ q ∈ ps, h'.read q = none
  kept : ∀ q, q ∉ ps → h'.read q = h.read q

theorem freed_nil (h : Heap α) : Freed h h [] :=
  ⟨fun q hq => absurd hq (by simp), fun _ _ => rfl⟩

theorem Freed.perm {h h' : Heap α} {ps qs : List Ptr} (hf : Freed h h' ps) (hp : ps.Perm qs) :
    Freed h h' qs :=
  ⟨fun q hq => hf.gone q (hp.mem_iff.mpr hq), fun q hq => hf.kept q fun h => hq (hp.mem_iff.mp h)⟩

theorem Freed.trans {h₁ h₂ h₃ : Heap α} {ps qs : List Ptr} (h : Freed h₁ h₂ ps)
    (h' : Freed h₂ h₃ qs) : Freed h₁ h₃ (ps ++ qs) := by
  constructor
  case gone =>
    intro q hq
    by_cases hqs : q ∈ qs
    · exact h'.gone q hqs
    · rw [h'.kept q hqs]
      exact h.gone q ((List.mem_append.mp hq).resolve_right hqs)
  case kept =>
    intro q hq
    rw [List.mem_append, not_or] at hq
    rw [h'.kept q hq.2, h.kept q hq.1]

theorem freed_free (h : Heap α) (p : Ptr) : Freed h (h.free p) [p] := by
  constructor
  case gone =>
    intro q hq
    rw [List.mem_singleton.mp hq, read_free_self]
  case kept =>
    intro q hq
    exact read_free_of_ne fun heq => hq (by simp [heq])

/-- What was stored into the freed cells before does not matter. -/
theorem Freed.of_agree {h h₁ h₂ : Heap α} {ps : List Ptr} (hf : Freed h₁ h₂ ps)
    (hag : ∀ q, q ∉ ps → h₁.read q = h.read q) : Freed h h₂ ps :=
  ⟨hf.gone, fun q hq => (hf.kept q hq).trans (hag q hq)⟩

/-! ## The loop -/

section Loop

variable [Links α]

/-- One iteration. `cut` clears the `left` link of a cell. -/
def sweepStep (cut : α → α) : Sweep α → Sweep α
  | .running h p freed =>
    match h.read p with
    | none => .fault
    | some a =>
      match Links.left a with
      | some q => .running (h.write p (cut a)) q freed
      | none =>
        .goto ((h.write p (cut a)).free p) (freed ++ [p]) ((Links.right a).or (Links.parent a))
  | .done h freed => .done h freed
  | .fault => .fault

/-- `cut` clears the one link and leaves the others. -/
structure Cuts (cut : α → α) : Prop where
  left : ∀ a, Links.left (cut a) = none
  right : ∀ a, Links.right (cut a) = Links.right a
  parent : ∀ a, Links.parent (cut a) = Links.parent a

/-- Some number of iterations lead from `s` to `s'`. -/
def Leads (cut : α → α) (s s' : Sweep α) : Prop := ∃ n, (sweepStep cut)^[n] s = s'

variable {cut : α → α} {h : Heap α} {p : Ptr} {a : α}

theorem Leads.refl (s : Sweep α) : Leads cut s s := ⟨0, rfl⟩

theorem Leads.trans {s₁ s₂ s₃ : Sweep α} (h₁ : Leads cut s₁ s₂) (h₂ : Leads cut s₂ s₃) :
    Leads cut s₁ s₃ := by
  obtain ⟨n, rfl⟩ := h₁
  obtain ⟨m, rfl⟩ := h₂
  exact ⟨m + n, Function.iterate_add_apply _ m n _⟩

/-- Down, cutting the link. -/
theorem leads_down {q : Ptr} (freed : List Ptr) (ha : h.read p = some a)
    (hl : Links.left a = some q) :
    Leads cut (.running h p freed) (.running (h.write p (cut a)) q freed) :=
  ⟨1, by rw [Function.iterate_one, sweepStep, ha]; simp only [hl]⟩

/-- A cell without a `left` link is freed and left. -/
theorem leads_leave (cut : α → α) (freed : List Ptr) (ha : h.read p = some a)
    (hl : Links.left a = none) :
    ∃ h', Freed h h' [p] ∧ Leads cut (.running h p freed)
      (.goto h' (freed ++ [p]) ((Links.right a).or (Links.parent a))) := by
  refine ⟨(h.write p (cut a)).free p, ?_, 1, ?_⟩
  · apply (freed_free _ p).of_agree
    intro q hq
    exact read_write_of_ne fun heq => hq (by simp [heq])
  · rw [Function.iterate_one, sweepStep, ha]
    simp only [hl]

/-- From the first visit of a cell to where it has been left for good: its children are freed and
so is the cell. -/
theorem leads_node {c : Ptr × α} {l : BinaryTree (Ptr × α)} (freed : List Ptr) (hcut : Cuts cut)
    (ihl : ∀ {h : Heap α} (freed : List Ptr), Stored h (some c.1) l → (ptrs l).Nodup →
      ∃ h', Freed h h' (ptrs l) ∧ Leads cut (.goto h freed ((rootPtr l).or (some c.1)))
        (.goto h' (freed ++ sweepOrder l) (some c.1)))
    (hc : h.read c.1 = some c.2) (hleft : Links.left c.2 = rootPtr l)
    (hs : Stored h (some c.1) l) (hn : (ptrs l).Nodup) (hnot : c.1 ∉ ptrs l) :
    ∃ h', Freed h h' (ptrs l ++ [c.1]) ∧ Leads cut (.running h c.1 freed)
      (.goto h' (freed ++ sweepOrder l ++ [c.1])
        ((Links.right c.2).or (Links.parent c.2))) := by
  cases l with
  | nil =>
    obtain ⟨h', hfreed, hleads⟩ := leads_leave cut freed hc hleft
    exact ⟨h', hfreed, by simpa [sweepOrder] using hleads⟩
  | node d l₁ l₂ =>
    -- Down into the children with the link behind cut, and back to the cell when they are gone.
    let h₁ := h.write c.1 (cut c.2)
    have hag : ∀ q, q ≠ c.1 → h₁.read q = h.read q := fun q hq => read_write_of_ne hq
    have hs₁ : Stored h₁ (some c.1) (.node d l₁ l₂) :=
      Stored.congr (fun q hq => hag q fun heq => hnot (heq ▸ hq)) hs
    obtain ⟨h₂, hfreed, hback⟩ := ihl freed hs₁ hn
    have hc₂ : h₂.read c.1 = some (cut c.2) :=
      (hfreed.kept c.1 hnot).trans (read_write_self hc)
    obtain ⟨h₃, hfreed', hleave⟩ :=
      leads_leave cut (freed ++ sweepOrder (.node d l₁ l₂)) hc₂ (hcut.left c.2)
    refine ⟨h₃, ?_, ?_⟩
    · apply (hfreed.trans hfreed').of_agree
      intro q hq
      exact hag q fun heq => hq (by simp [heq])
    · rw [hcut.right, hcut.parent] at hleave
      exact ((leads_down freed hc hleft).trans hback).trans hleave

/-- **The loop dismantles a subtree.** It enters at the root and comes out at the parent, with
every cell of the subtree freed once and no other cell changed. -/
theorem sweep (hcut : Cuts cut) : ∀ {t : BinaryTree (Ptr × α)} {h : Heap α} {par : Option Ptr}
    (freed : List Ptr), Stored h par t → (ptrs t).Nodup →
      ∃ h', Freed h h' (ptrs t) ∧ Leads cut (.goto h freed ((rootPtr t).or par))
        (.goto h' (freed ++ sweepOrder t) par) := by
  intro t
  induction t with
  | nil =>
    intro h par freed _ _
    exact ⟨h, freed_nil h, by simpa [sweepOrder] using Leads.refl _⟩
  | node c l r ihl ihr =>
    intro h par freed hs hn
    obtain ⟨hc, hleft, hright, hpar, hsl, hsr⟩ := hs
    rw [ptrs_node, List.nodup_cons, List.mem_append, not_or, List.nodup_append'] at hn
    obtain ⟨⟨hcl, hcr⟩, hnl, hnr, hdisj⟩ := hn
    obtain ⟨h₁, hfreed, hnode⟩ := leads_node freed hcut ihl hc hleft hsl hnl hcl
    rw [hright, hpar] at hnode
    have hsr₁ : Stored h₁ par r := by
      refine Stored.congr ?_ hsr
      intro q hq
      apply hfreed.kept
      rw [List.mem_append, List.mem_singleton, not_or]
      exact ⟨fun hql => hdisj hql hq, fun heq => hcr (heq ▸ hq)⟩
    obtain ⟨h₂, hfreed', hrest⟩ := ihr (freed ++ sweepOrder l ++ [c.1]) hsr₁ hnr
    refine ⟨h₂, ?_, ?_⟩
    · apply (hfreed.trans hfreed').perm
      rw [ptrs_node, List.append_assoc]
      exact List.perm_middle
    · have horder : freed ++ sweepOrder (.node c l r)
          = freed ++ sweepOrder l ++ [c.1] ++ sweepOrder r := by simp [sweepOrder]
      rw [horder]
      exact hnode.trans hrest

/-- What has once been reached by some iterations is not reached through a fault. -/
theorem Leads.ne_fault {s s' : Sweep α} (hl : Leads cut s s')
    (hdone : sweepStep cut s' = s') (hne : s' ≠ .fault) (m : Nat) :
    (sweepStep cut)^[m] s ≠ .fault := by
  obtain ⟨n, rfl⟩ := hl
  intro hm
  have hfix : ∀ k, (sweepStep cut)^[k] (.fault : Sweep α) = .fault :=
    fun k => Function.iterate_fixed rfl k
  have hstay : ∀ k, (sweepStep cut)^[k] ((sweepStep cut)^[n] s) = (sweepStep cut)^[n] s :=
    fun k => Function.iterate_fixed hdone k
  apply hne
  rw [← hstay m, ← Function.iterate_add_apply, Nat.add_comm, Function.iterate_add_apply, hm, hfix]

end Loop

/-! ## The recursion -/

section Recursion

variable [Links α]

/-- Children, siblings, then the cell. `none` is a fault, or a tree deeper than the fuel. -/
def freeBelow : Nat → Heap α → Option Ptr → Option (Heap α × List Ptr)
  | _, h, none => some (h, [])
  | 0, _, some _ => none
  | n + 1, h, some p =>
    (h.read p).bind fun a =>
    (freeBelow n h (Links.left a)).bind fun x =>
    (x.1.read p).bind fun a =>
    (freeBelow n x.1 (Links.right a)).bind fun y =>
    (y.1.read p).bind fun _ => some (y.1.free p, x.2 ++ y.2 ++ [p])

/-- **So does the recursion**, with fuel for the height of the tree. -/
theorem freeBelow_eq : ∀ {t : BinaryTree (Ptr × α)} {h : Heap α} {par : Option Ptr} {n : Nat},
    Stored h par t → (ptrs t).Nodup → t.height ≤ n →
      ∃ h', Freed h h' (ptrs t) ∧ freeBelow n h (rootPtr t) = some (h', postorder t) := by
  intro t
  induction t with
  | nil =>
    intro h par n _ _ _
    refine ⟨h, freed_nil h, ?_⟩
    cases n <;> rfl
  | node c l r ihl ihr =>
    intro h par n hs hn hheight
    obtain ⟨hc, hleft, hright, _, hsl, hsr⟩ := hs
    rw [ptrs_node, List.nodup_cons, List.mem_append, not_or, List.nodup_append'] at hn
    obtain ⟨⟨hcl, hcr⟩, hnl, hnr, hdisj⟩ := hn
    cases n with
    | zero => exact absurd hheight (by simp)
    | succ n =>
      simp only [BinaryTree.height, Nat.add_le_add_iff_right, Nat.max_le] at hheight
      obtain ⟨h₁, hfreed₁, hrec₁⟩ := ihl hsl hnl hheight.1
      have hc₁ : h₁.read c.1 = some c.2 := (hfreed₁.kept c.1 hcl).trans hc
      have hsr₁ : Stored h₁ par r :=
        Stored.congr (fun q hq => hfreed₁.kept q fun hql => hdisj hql hq) hsr
      obtain ⟨h₂, hfreed₂, hrec₂⟩ := ihr hsr₁ hnr hheight.2
      have hc₂ : h₂.read c.1 = some c.2 := (hfreed₂.kept c.1 hcr).trans hc₁
      refine ⟨h₂.free c.1, ?_, ?_⟩
      · apply ((hfreed₁.trans hfreed₂).trans (freed_free h₂ c.1)).perm
        exact List.perm_append_singleton _ _
      · rw [rootPtr_node, freeBelow, hc, Option.bind_some, hleft, hrec₁, Option.bind_some, hc₁,
          Option.bind_some, hright, hrec₂, Option.bind_some, hc₂, Option.bind_some]
        rfl

end Recursion

end Lib
end TsnController

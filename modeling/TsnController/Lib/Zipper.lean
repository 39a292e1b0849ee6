import TsnController.Lib.LinkedTree

/-!
# A pointer into the middle of a stored tree

A program that grows a linked tree holds one pointer into it. The zipper says where: `Frame`
lists what is passed on the way from the focus up to the root, `plug` puts the tree back
together, and `parentOf` finds what the focus's `parent` link points at, which is the nearest
frame one descended to the *left* of.

`Focused h c t` is the whole invariant such a program maintains: the plugged tree is stored and
no pointer is used twice. The operations of the program are `Focused.rewrite` (store into the
focused cell), `Focused.growLeft` (hang a fresh first child, dropping whatever hung there) and
`Focused.growRight` (hang a fresh next sibling). Moving the focus costs nothing: `plug` of a
longer context is `plug` of a shorter one by definition.
-/

set_option autoImplicit false

namespace TsnController
namespace Lib

open Heap

/-- One node passed on the way up: descended from to the `left`, or to the `right`. -/
inductive Frame (α : Type)
  | left (a : α) (right : BinaryTree α)
  | right (a : α) (left : BinaryTree α)

section Frames

variable {α β : Type}

def plug : List (Frame α) → BinaryTree α → BinaryTree α
  | [], t => t
  | .left a r :: c, t => plug c (.node a t r)
  | .right a l :: c, t => plug c (.node a l t)

/-- The node whose left chain the focus is in. -/
def parentOf : List (Frame α) → Option α
  | [] => none
  | .left a _ :: _ => some a
  | .right _ _ :: c => parentOf c

/-- The focus is the first of its chain. -/
def isFirst : List (Frame α) → Bool
  | .left _ _ :: _ => true
  | _ => false

/-- Nothing hangs to the right of the nodes one descended to the left of, and the outermost node
has no sibling: the focus's ancestors are last in their chains. -/
def Spine : List (Frame α) → Prop
  | [] => True
  | .left _ r :: c => r = .nil ∧ Spine c
  | .right _ _ :: c => parentOf c ≠ none ∧ Spine c

/-- The parent in focus, over the chain that ends with `t`; what hung to its right is dropped. -/
def up : List (Frame α) → BinaryTree α → Option (List (Frame α) × α × BinaryTree α)
  | [], _ => none
  | .left a _ :: c, t => some (c, a, t)
  | .right a l :: c, t => up c (.node a l t)

theorem up_eq_none_iff : ∀ (c : List (Frame α)) (t : BinaryTree α),
    up c t = none ↔ parentOf c = none
  | [], _ => by simp [up, parentOf]
  | .left _ _ :: _, _ => by simp [up, parentOf]
  | .right a l :: c, t => up_eq_none_iff c (.node a l t)

/-- Over a spine nothing is dropped. -/
theorem Spine.up_eq : ∀ {c c' : List (Frame α)} {t l : BinaryTree α} {a : α}, Spine c →
    up c t = some (c', a, l) → parentOf c = some a ∧ Spine c' ∧ plug c t = plug c' (.node a l .nil)
  | [], _, _, _, _, _, h => absurd h (by simp [up])
  | .left b r :: c, c', t, l, a, ⟨hr, hs⟩, h => by
    simp only [up, Option.some.injEq, Prod.mk.injEq] at h
    obtain ⟨rfl, rfl, rfl⟩ := h
    exact ⟨rfl, hs, by rw [plug, hr]⟩
  | .right b l₀ :: c, _, t, _, _, ⟨_, hs⟩, h => Spine.up_eq (t := .node b l₀ t) hs h

def Frame.map (f : α → β) : Frame α → Frame β
  | .left a r => .left (f a) (r.map f)
  | .right a l => .right (f a) (l.map f)

theorem plug_map (f : α → β) : ∀ (c : List (Frame α)) (t : BinaryTree α),
    (plug c t).map f = plug (c.map (Frame.map f)) (t.map f)
  | [], _ => rfl
  | .left a r :: c, t => by simp only [plug, List.map_cons, Frame.map, plug_map f c]; rfl
  | .right a l :: c, t => by simp only [plug, List.map_cons, Frame.map, plug_map f c]; rfl

theorem parentOf_map (f : α → β) : ∀ c : List (Frame α),
    parentOf (c.map (Frame.map f)) = (parentOf c).map f
  | [] => rfl
  | .left _ _ :: _ => rfl
  | .right _ _ :: c => parentOf_map f c

theorem isFirst_map (f : α → β) (c : List (Frame α)) :
    isFirst (c.map (Frame.map f)) = isFirst c := by
  match c with
  | [] => rfl
  | .left _ _ :: _ => rfl
  | .right _ _ :: _ => rfl

theorem up_map (f : α → β) : ∀ (c : List (Frame α)) (t : BinaryTree α),
    up (c.map (Frame.map f)) (t.map f)
      = (up c t).map fun z => (z.1.map (Frame.map f), f z.2.1, z.2.2.map f)
  | [], _ => rfl
  | .left _ _ :: _, _ => rfl
  | .right a l :: c, t => up_map f c (.node a l t)

def framePtrs : List (Frame (Ptr × α)) → List Ptr
  | [] => []
  | .left a r :: c => a.1 :: (ptrs r ++ framePtrs c)
  | .right a l :: c => a.1 :: (ptrs l ++ framePtrs c)

theorem ptrs_plug_perm : ∀ (c : List (Frame (Ptr × α))) (t : BinaryTree (Ptr × α)),
    (ptrs (plug c t)).Perm (framePtrs c ++ ptrs t)
  | [], t => by simp [plug, framePtrs]
  | .left a r :: c, t => by
    refine (ptrs_plug_perm c _).trans ?_
    simp only [framePtrs, ptrs_node, List.cons_append, List.append_assoc]
    refine List.perm_middle.trans (List.Perm.cons _ ?_)
    refine List.perm_append_comm.trans ?_
    rw [List.append_assoc]
    refine List.perm_append_comm.trans ?_
    simp
  | .right a l :: c, t => by
    refine (ptrs_plug_perm c _).trans ?_
    simp only [framePtrs, ptrs_node, List.cons_append, List.append_assoc]
    refine List.perm_middle.trans (List.Perm.cons _ ?_)
    rw [← List.append_assoc, ← List.append_assoc]
    exact List.Perm.append_right _ List.perm_append_comm

end Frames

/-- What hangs by the root pointer is decided by what hangs by the focus. -/
theorem rootPtr_plug {α : Type} : ∀ (c : List (Frame (Ptr × α))) {t t' : BinaryTree (Ptr × α)},
    rootPtr t' = rootPtr t → rootPtr (plug c t') = rootPtr (plug c t)
  | [], _, _, h => h
  | .left _ _ :: c, _, _, _ => rootPtr_plug c rfl
  | .right _ _ :: c, _, _, _ => rootPtr_plug c rfl

section Focused

variable {α : Type} [Links α]

/-- The frames are stored around a hole that hangs by `hole`. -/
def StoredFrames (h : Heap α) : Option Ptr → List (Frame (Ptr × α)) → Prop
  | _, [] => True
  | hole, .left a r :: c =>
      h.read a.1 = some a.2 ∧ Links.left a.2 = hole ∧ Links.right a.2 = rootPtr r ∧
      Links.parent a.2 = (parentOf c).map Prod.fst ∧
      Stored h ((parentOf c).map Prod.fst) r ∧ StoredFrames h (some a.1) c
  | hole, .right a l :: c =>
      h.read a.1 = some a.2 ∧ Links.left a.2 = rootPtr l ∧ Links.right a.2 = hole ∧
      Links.parent a.2 = (parentOf c).map Prod.fst ∧
      Stored h (some a.1) l ∧ StoredFrames h (some a.1) c

/-- **The cut**: a plugged tree is stored iff its two parts are, and the frames only ever see
the pointer the focus hangs by. -/
theorem stored_plug {h : Heap α} : ∀ (c : List (Frame (Ptr × α))) (t : BinaryTree (Ptr × α)),
    Stored h none (plug c t) ↔
      StoredFrames h (rootPtr t) c ∧ Stored h ((parentOf c).map Prod.fst) t
  | [], t => by simp [plug, StoredFrames, parentOf]
  | .left a r :: c, t => by
    rw [plug, stored_plug c]
    simp only [StoredFrames, Stored, rootPtr_node, parentOf, Option.map_some]
    constructor
    · rintro ⟨hf, ha, hl, hr, hp, ht, hsr⟩
      exact ⟨⟨ha, hl, hr, hp, hsr, hf⟩, ht⟩
    · rintro ⟨⟨ha, hl, hr, hp, hsr, hf⟩, ht⟩
      exact ⟨hf, ha, hl, hr, hp, ht, hsr⟩
  | .right a l :: c, t => by
    rw [plug, stored_plug c]
    simp only [StoredFrames, Stored, rootPtr_node, parentOf]
    constructor
    · rintro ⟨hf, ha, hl, hr, hp, hsl, ht⟩
      exact ⟨⟨ha, hl, hr, hp, hsl, hf⟩, ht⟩
    · rintro ⟨⟨ha, hl, hr, hp, hsl, hf⟩, ht⟩
      exact ⟨hf, ha, hl, hr, hp, hsl, ht⟩

theorem StoredFrames.congr {h h' : Heap α} : ∀ {hole : Option Ptr} {c : List (Frame (Ptr × α))},
    (∀ q ∈ framePtrs c, h'.read q = h.read q) → StoredFrames h hole c → StoredFrames h' hole c
  | _, [], _, _ => trivial
  | _, .left a r :: c, hag, ⟨ha, hl, hr, hp, hsr, hf⟩ =>
    ⟨by rw [hag a.1 (by simp [framePtrs])]; exact ha, hl, hr, hp,
      hsr.congr (fun q hq => hag q (by simp [framePtrs, hq])),
      hf.congr (fun q hq => hag q (by simp [framePtrs, hq]))⟩
  | _, .right a l :: c, hag, ⟨ha, hl, hr, hp, hsl, hf⟩ =>
    ⟨by rw [hag a.1 (by simp [framePtrs])]; exact ha, hl, hr, hp,
      hsl.congr (fun q hq => hag q (by simp [framePtrs, hq])),
      hf.congr (fun q hq => hag q (by simp [framePtrs, hq]))⟩

theorem StoredFrames.read_of_mem {h : Heap α} : ∀ {hole : Option Ptr}
    {c : List (Frame (Ptr × α))}, StoredFrames h hole c →
    ∀ q ∈ framePtrs c, ∃ a, h.read q = some a
  | _, [], _, q, hq => absurd hq (by simp [framePtrs])
  | _, .left a r :: c, ⟨ha, _, _, _, hsr, hf⟩, q, hq => by
    simp only [framePtrs, List.mem_cons, List.mem_append] at hq
    rcases hq with rfl | hq | hq
    · exact ⟨_, ha⟩
    · exact hsr.read_of_mem q hq
    · exact hf.read_of_mem q hq
  | _, .right a l :: c, ⟨ha, _, _, _, hsl, hf⟩, q, hq => by
    simp only [framePtrs, List.mem_cons, List.mem_append] at hq
    rcases hq with rfl | hq | hq
    · exact ⟨_, ha⟩
    · exact hsl.read_of_mem q hq
    · exact hf.read_of_mem q hq

/-- The parent's cell, and which chain it starts: the focus itself if it is the first, one of
the passed siblings otherwise. -/
theorem StoredFrames.parent_cell {h : Heap α} : ∀ {hole : Option Ptr}
    {c : List (Frame (Ptr × α))} {b : Ptr × α}, StoredFrames h hole c → parentOf c = some b →
    h.read b.1 = some b.2 ∧ (isFirst c = true → Links.left b.2 = hole) ∧
      (isFirst c = false → ∃ s ∈ framePtrs c, Links.left b.2 = some s)
  | _, [], _, _, hb => absurd hb (by simp [parentOf])
  | hole, .left a r :: c, b, ⟨ha, hl, _⟩, hb => by
    simp only [parentOf, Option.some.injEq] at hb
    subst hb
    exact ⟨ha, fun _ => hl, fun hf => absurd hf (by simp [isFirst])⟩
  | hole, .right a l :: c, b, ⟨_, _, _, _, _, hf⟩, hb => by
    obtain ⟨hread, hfirst, hnot⟩ := hf.parent_cell hb
    refine ⟨hread, fun h1 => absurd h1 (by simp [isFirst]), fun _ => ?_⟩
    cases hc : isFirst c with
    | true => exact ⟨a.1, by simp [framePtrs], hfirst hc⟩
    | false =>
      obtain ⟨s, hs, hls⟩ := hnot hc
      exact ⟨s, by simp [framePtrs, hs], hls⟩

/-- A stored tree with no pointer used twice, cut at the focus `t`. -/
structure Focused (h : Heap α) (c : List (Frame (Ptr × α))) (t : BinaryTree (Ptr × α)) : Prop where
  stored : Stored h none (plug c t)
  nodup : (ptrs (plug c t)).Nodup

namespace Focused

variable {h h' : Heap α} {c : List (Frame (Ptr × α))} {t t' : BinaryTree (Ptr × α)}

theorem frames (hf : Focused h c t) : StoredFrames h (rootPtr t) c :=
  ((stored_plug c t).mp hf.stored).1

theorem focus (hf : Focused h c t) : Stored h ((parentOf c).map Prod.fst) t :=
  ((stored_plug c t).mp hf.stored).2

theorem nodup_append (hf : Focused h c t) : (framePtrs c ++ ptrs t).Nodup :=
  (ptrs_plug_perm c t).nodup_iff.mp hf.nodup

theorem nodup_focus (hf : Focused h c t) : (ptrs t).Nodup :=
  (List.nodup_append.mp hf.nodup_append).2.1

theorem notMem_frames (hf : Focused h c t) {p : Ptr} (hp : p ∈ ptrs t) : p ∉ framePtrs c :=
  fun hc => absurd rfl ((List.nodup_append.mp hf.nodup_append).2.2 p hc p hp)

theorem next_notMem_frames (hf : Focused h c t) : h.next ∉ framePtrs c := by
  intro hmem
  obtain ⟨a, ha⟩ := hf.frames.read_of_mem _ hmem
  exact absurd ha (by simp)

/-- A focus may be replaced by anything that hangs by the same pointer, is stored in the same
chain and shares no pointer with the frames, in any heap that left the frames alone. -/
theorem replace (hf : Focused h c t) (hroot : rootPtr t' = rootPtr t)
    (hag : ∀ q ∈ framePtrs c, h'.read q = h.read q)
    (hst : Stored h' ((parentOf c).map Prod.fst) t') (hnd : (ptrs t').Nodup)
    (hdis : ∀ q ∈ ptrs t', q ∉ framePtrs c) : Focused h' c t' where
  stored := (stored_plug c t').mpr ⟨by rw [hroot]; exact hf.frames.congr hag, hst⟩
  nodup := by
    refine (ptrs_plug_perm c t').nodup_iff.mpr (List.nodup_append.mpr ⟨?_, hnd, ?_⟩)
    · exact (List.nodup_append.mp hf.nodup_append).1
    · intro q hq q' hq' heq
      exact hdis q' hq' (heq ▸ hq)

variable {p : Ptr} {a d b : α} {l r : BinaryTree (Ptr × α)}

theorem read_focus (hf : Focused h c (.node (p, a) l r)) : h.read p = some a := hf.focus.1

theorem parent_focus (hf : Focused h c (.node (p, a) l r)) :
    Links.parent a = (parentOf c).map Prod.fst := hf.focus.2.2.2.1

/-- A store into the focused cell that leaves its links alone. -/
theorem rewrite (hf : Focused h c (.node (p, a) l r)) (hl : Links.left d = Links.left a)
    (hr : Links.right d = Links.right a) (hp : Links.parent d = Links.parent a) :
    Focused (h.write p d) c (.node (p, d) l r) := by
  obtain ⟨hread, hla, hra, hpa, hsl, hsr⟩ := hf.focus
  have hnd := hf.nodup_focus
  simp only [ptrs_node, List.nodup_cons, List.mem_append, not_or] at hnd
  have hframe : ∀ q, q ≠ p → (h.write p d).read q = h.read q := fun q hq => read_write_of_ne hq
  refine hf.replace rfl ?_ ?_ hf.nodup_focus (fun q hq => hf.notMem_frames hq)
  · exact fun q hq => hframe q (fun he => hf.notMem_frames (by simp) (he ▸ hq))
  · refine ⟨read_write_self hread, hl.trans hla, hr.trans hra, hp.trans hpa, ?_, ?_⟩
    · exact hsl.congr (fun q hq => hframe q (fun he => hnd.1.1 (he ▸ hq)))
    · exact hsr.congr (fun q hq => hframe q (fun he => hnd.1.2 (he ▸ hq)))

/-- A store that cuts off what hangs below the focus. -/
theorem prune (hf : Focused h c (.node (p, a) l r)) (hl : Links.left d = none)
    (hr : Links.right d = Links.right a) (hp : Links.parent d = Links.parent a) :
    Focused (h.write p d) c (.node (p, d) .nil r) := by
  obtain ⟨hread, hla, hra, hpa, hsl, hsr⟩ := hf.focus
  have hnd := hf.nodup_focus
  simp only [ptrs_node, List.nodup_cons, List.mem_append, not_or, List.nodup_append] at hnd
  have hframe : ∀ q, q ≠ p → (h.write p d).read q = h.read q := fun q hq => read_write_of_ne hq
  refine hf.replace rfl ?_ ?_ ?_ ?_
  · exact fun q hq => hframe q (fun he => hf.notMem_frames (by simp) (he ▸ hq))
  · refine ⟨read_write_self hread, hl, hr.trans hra, hp.trans hpa, trivial, ?_⟩
    exact hsr.congr (fun q hq => hframe q (fun he => hnd.1.2 (he ▸ hq)))
  · simp only [ptrs_node, ptrs_nil, List.nil_append, List.nodup_cons]
    exact ⟨hnd.1.2, hnd.2.2.1⟩
  · intro q hq
    simp only [ptrs_node, ptrs_nil, List.nil_append, List.mem_cons] at hq
    exact hf.notMem_frames (by simp; tauto)

/-- A fresh first child, in the place of whatever hung there. -/
theorem growLeft (hf : Focused h c (.node (p, a) l r)) (hl : Links.left d = some h.next)
    (hr : Links.right d = Links.right a) (hp : Links.parent d = Links.parent a)
    (hbl : Links.left b = none) (hbr : Links.right b = none) (hbp : Links.parent b = some p) :
    Focused ((h.alloc b).write p d) c (.node (p, d) (.node (h.next, b) .nil .nil) r) := by
  obtain ⟨hread, hla, hra, hpa, hsl, hsr⟩ := hf.focus
  have hnd := hf.nodup_focus
  simp only [ptrs_node, List.nodup_cons, List.mem_append, not_or, List.nodup_append] at hnd
  have hpn : p ≠ h.next := ne_next_of_read hread
  have hframe : ∀ q, q ≠ p → q ≠ h.next → ((h.alloc b).write p d).read q = h.read q :=
    fun q hq hn => by rw [read_write_of_ne hq, read_alloc_of_ne hn]
  refine hf.replace rfl ?_ ?_ ?_ ?_
  · intro q hq
    exact hframe q (fun he => hf.notMem_frames (by simp) (he ▸ hq))
      (fun he => hf.next_notMem_frames (he ▸ hq))
  · refine ⟨read_write_self (by rw [read_alloc_of_ne hpn]; exact hread), hl, hr.trans hra,
      hp.trans hpa, ⟨?_, hbl, hbr, hbp, trivial, trivial⟩, ?_⟩
    · rw [read_write_of_ne (Ne.symm hpn), read_alloc_self]
    · exact hsr.congr (fun q hq => hframe q (fun he => hnd.1.2 (he ▸ hq))
        (fun he => hsr.next_notMem (he ▸ hq)))
  · simp only [ptrs_node, ptrs_nil, List.append_nil, List.cons_append, List.nil_append,
      List.nodup_cons, List.mem_cons, not_or]
    exact ⟨⟨hpn, hnd.1.2⟩, hsr.next_notMem, hnd.2.2.1⟩
  · intro q hq
    simp only [ptrs_node, ptrs_nil, List.append_nil, List.cons_append, List.nil_append,
      List.mem_cons] at hq
    rcases hq with rfl | rfl | hq
    · exact hf.notMem_frames (by simp)
    · exact hf.next_notMem_frames
    · exact hf.notMem_frames (by simp [hq])

/-- A fresh next sibling for the last of a chain. -/
theorem growRight (hf : Focused h c (.node (p, a) l .nil)) (hl : Links.left d = Links.left a)
    (hr : Links.right d = some h.next) (hp : Links.parent d = Links.parent a)
    (hbl : Links.left b = none) (hbr : Links.right b = none)
    (hbp : Links.parent b = Links.parent a) :
    Focused ((h.alloc b).write p d) c (.node (p, d) l (.node (h.next, b) .nil .nil)) := by
  obtain ⟨hread, hla, hra, hpa, hsl, _⟩ := hf.focus
  have hnd := hf.nodup_focus
  simp only [ptrs_node, ptrs_nil, List.append_nil, List.nodup_cons] at hnd
  have hpn : p ≠ h.next := ne_next_of_read hread
  have hframe : ∀ q, q ≠ p → q ≠ h.next → ((h.alloc b).write p d).read q = h.read q :=
    fun q hq hn => by rw [read_write_of_ne hq, read_alloc_of_ne hn]
  refine hf.replace rfl ?_ ?_ ?_ ?_
  · intro q hq
    exact hframe q (fun he => hf.notMem_frames (by simp) (he ▸ hq))
      (fun he => hf.next_notMem_frames (he ▸ hq))
  · refine ⟨read_write_self (by rw [read_alloc_of_ne hpn]; exact hread), hl.trans hla, hr,
      hp.trans hpa, ?_, ?_, hbl, hbr, hbp.trans hpa, trivial, trivial⟩
    · exact hsl.congr (fun q hq => hframe q (fun he => hnd.1 (he ▸ hq))
        (fun he => hsl.next_notMem (he ▸ hq)))
    · rw [read_write_of_ne (Ne.symm hpn), read_alloc_self]
  · simp only [ptrs_node, ptrs_nil, List.append_nil, List.nodup_cons, List.mem_append,
      List.mem_singleton, not_or]
    refine ⟨⟨hnd.1, hpn⟩, List.nodup_append.mpr ⟨hnd.2, List.nodup_singleton _, ?_⟩⟩
    intro q hq q' hq'
    rw [List.mem_singleton.mp hq']
    exact fun he => hsl.next_notMem (he ▸ hq)
  · intro q hq
    simp only [ptrs_node, ptrs_nil, List.append_nil, List.mem_cons, List.mem_append,
      List.not_mem_nil, or_false] at hq
    rcases hq with rfl | hq | rfl
    · exact hf.notMem_frames (by simp)
    · exact hf.notMem_frames (by simp [hq])
    · exact hf.next_notMem_frames

end Focused

end Focused

end Lib
end TsnController

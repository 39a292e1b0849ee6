import Mathlib.Data.List.Perm.Subperm
import TsnController.Lib.CellList
import TsnController.Lib.Heap

/-!
# Lists in the heap

What `CellList` is an abstraction of: cells behind pointers, each with the pointer to the next one.
`create`, `push` and the two loops are written over the heap as a program has them, and fail where a
program would read through a pointer that leads nowhere; `push` finds the end by walking there.

`Seg` says that the cells of a list stand at given pointers, up to a pointer behind the last. A
list that is being built by a program that frees nothing stands at the newest pointers of its heap
(`Newest`): pushing keeps it there and changes nothing below it. One that is gone through and freed
behind the loop (`drain`) leaves a hole (`Cleared`) where it stood.
-/

set_option autoImplicit false

namespace TsnController
namespace Lib

open Heap

variable {α σ : Type}

namespace CellList

/-- The cells of the list, first to last. -/
def cells (list : CellList α) : List (ListCell α) := list.head :: list.next

/-- The list after these pushes. -/
def ofPushes (junk : α) (xs : List α) : CellList α := xs.foldl push (create junk)

theorem ofPushes_concat (junk : α) (xs : List α) (x : α) :
    ofPushes junk (xs ++ [x]) = (ofPushes junk xs).push x := by
  unfold ofPushes
  rw [List.foldl_append]
  rfl

theorem held_ofPushes (junk : α) (xs : List α) : (ofPushes junk xs).held = xs := by
  have h := held_foldl_push id xs (create junk)
  rwa [List.map_id, held_create, List.nil_append] at h

theorem values_ofPushes (junk : α) {xs : List α} (hne : xs ≠ []) : (ofPushes junk xs).values = xs :=
  (values_foldl_push_iff junk xs).mpr hne

/-- The number of cells is that of the pushes, or one where there was none. -/
theorem length_cells (list : CellList α) : list.cells.length = max 1 list.held.length := by
  unfold held
  by_cases h0 : list.head.size = 0
  · rw [if_pos h0, cells, list.fresh h0]
    rfl
  · rw [if_neg h0, values, List.length_map]
    exact (Nat.max_eq_right (Nat.le_add_left 1 _)).symm

end CellList

/-- A list's cell in memory. -/
structure ChainCell (α : Type) where
  value : α
  size : Nat
  next : Option Ptr

namespace HeapList

/-! ## The programs -/

/-- A new list; `junk` is what the memory of its first cell held before. -/
def create (h : Heap (ChainCell α)) (junk : α) : Ptr × Heap (ChainCell α) :=
  (h.next, h.alloc ⟨junk, 0, none⟩)

/-- `while (current->next != NULL) current = current->next;` -/
def last (h : Heap (ChainCell α)) : Nat → Ptr → Option Ptr
  | 0, _ => none
  | fuel + 1, current =>
    (h.read current).bind fun cell =>
      match cell.next with
      | none => some current
      | some next => last h fuel next

def push (h : Heap (ChainCell α)) (head : Ptr) (data : α) : Option (Heap (ChainCell α)) :=
  (h.read head).bind fun cell =>
    if cell.size = 0 then some (h.write head ⟨data, 1, none⟩)
    else
      (last h h.next head).bind fun current =>
        (h.read current).map fun cell =>
          (h.alloc ⟨data, cell.size + 1, none⟩).write current { cell with next := some h.next }

/-- A loop over the links that leaves them as they are. -/
def loop (h : Heap (ChainCell α)) (body : α → σ → Option σ) : Nat → Option Ptr → σ → Option σ
  | _, none, s => some s
  | 0, some _, _ => none
  | fuel + 1, some current, s =>
    (h.read current).bind fun cell => (body cell.value s).bind (loop h body fuel cell.next)

/-- A loop that frees the cell it has stood on; the body works on what else there is. -/
def drain (body : α → σ → Option σ) :
    Nat → Option Ptr → Heap (ChainCell α) × σ → Option (Heap (ChainCell α) × σ)
  | _, none, s => some s
  | 0, some _, _ => none
  | fuel + 1, some current, (h, s) =>
    (h.read current).bind fun cell =>
      (body cell.value s).bind fun s => drain body fuel cell.next (h.free current, s)

/-! ## Segments -/

/-- These cells stand at these pointers, each leading to the next and the last to `stop`. -/
def Seg (h : Heap (ChainCell α)) : List Ptr → List (ListCell α) → Option Ptr → Prop
  | [], [], _ => True
  | p :: ps, c :: cs, stop =>
    h.read p = some ⟨c.value, c.size, ps.head?.or stop⟩ ∧ Seg h ps cs stop
  | _, _, _ => False

section Seg

variable {h h' : Heap (ChainCell α)} {stop : Option Ptr}

theorem Seg.read_of_mem : ∀ {ps : List Ptr} {cs : List (ListCell α)}, Seg h ps cs stop →
    ∀ p ∈ ps, ∃ cell, h.read p = some cell
  | p :: ps, c :: cs, hs, q, hq => by
    rcases List.mem_cons.mp hq with rfl | hq
    · exact ⟨_, hs.1⟩
    · exact hs.2.read_of_mem q hq

/-- Only the cells at its pointers matter. -/
theorem Seg.congr : ∀ {ps : List Ptr} {cs : List (ListCell α)},
    (∀ p ∈ ps, h'.read p = h.read p) → Seg h ps cs stop → Seg h' ps cs stop
  | [], [], _, _ => trivial
  | _ :: _, _ :: _, hsame, hs =>
    ⟨(hsame _ List.mem_cons_self).trans hs.1,
      hs.2.congr fun q hq => hsame q (List.mem_cons_of_mem _ hq)⟩

theorem seg_append_iff : ∀ {ps qs : List Ptr} {cs ds : List (ListCell α)},
    ps.length = cs.length →
    (Seg h (ps ++ qs) (cs ++ ds) stop ↔ Seg h ps cs (qs.head?.or stop) ∧ Seg h qs ds stop)
  | [], _, [], _, _ => (iff_of_eq (true_and _)).symm
  | p :: ps, qs, c :: cs, ds, hlen => by
    have ih : Seg h (ps ++ qs) (cs ++ ds) stop ↔ _ := seg_append_iff (Nat.succ.inj hlen)
    have hhead : (ps ++ qs).head?.or stop = ps.head?.or (qs.head?.or stop) := by
      cases ps <;> simp
    simp only [List.cons_append, Seg, ih, hhead, and_assoc]

/-- A list without repetition is not longer than the heap. -/
theorem Seg.length_le {ps : List Ptr} {cs : List (ListCell α)} (hs : Seg h ps cs stop)
    (hn : ps.Nodup) : ps.length ≤ h.next := by
  have hsub : ps ⊆ List.range h.next := by
    intro p hp
    obtain ⟨cell, hcell⟩ := hs.read_of_mem p hp
    exact List.mem_range.mpr (lt_next_of_read hcell)
  exact List.length_range (n := h.next) ▸ (List.subperm_of_subset hn hsub).length_le

/-- The walk to the end ends there. -/
theorem Seg.last_eq : ∀ {ps : List Ptr} {cs : List (ListCell α)} {q : Ptr} {fuel : Nat},
    Seg h (ps ++ [q]) cs none → ps.length < fuel →
    ∀ {head : Ptr}, (ps ++ [q]).head? = some head → last h fuel head = some q := by
  intro ps
  induction ps with
  | nil =>
    intro cs q fuel hs hfuel head hhead
    obtain ⟨fuel, rfl⟩ := Nat.exists_eq_add_of_lt hfuel
    cases cs with
    | nil => exact hs.elim
    | cons c cs =>
      obtain rfl : q = head := Option.some.inj hhead
      have hread : h.read q = some ⟨c.value, c.size, none⟩ := hs.1
      rw [last, hread]
      rfl
  | cons p ps ih =>
    intro cs q fuel hs hfuel head hhead
    cases fuel with
    | zero => exact absurd hfuel (Nat.not_lt_zero _)
    | succ fuel =>
      cases cs with
      | nil => exact hs.elim
      | cons c cs =>
        obtain rfl : p = head := Option.some.inj hhead
        obtain ⟨next, hnext⟩ : ∃ next, (ps ++ [q]).head? = some next := by
          cases ps with
          | nil => exact ⟨q, rfl⟩
          | cons x ps => exact ⟨x, rfl⟩
        have hread : h.read p = some ⟨c.value, c.size, (ps ++ [q]).head?.or none⟩ := hs.1
        rw [last, hread, hnext]
        exact ih hs.2 (Nat.lt_of_succ_lt_succ hfuel) hnext

/-- A loop that starts nowhere. -/
theorem loop_of_read_none {body : α → σ → Option σ} {p : Ptr} (hp : h.read p = none) (fuel : Nat)
    (s : σ) : loop h body fuel (some p) s = none := by
  cases fuel with
  | zero => rfl
  | succ fuel => rw [loop, hp]; rfl

/-- **A loop goes through the values.** -/
theorem Seg.loop_eq (body : α → σ → Option σ) : ∀ {ps : List Ptr} {cs : List (ListCell α)}
    {fuel : Nat} (s : σ), Seg h ps cs none → ps.length ≤ fuel →
    loop h body fuel ps.head? s = (cs.map (·.value)).foldlM (fun s a => body a s) s
  | [], [], fuel, _, _, _ => by cases fuel <;> rfl
  | p :: ps, c :: cs, 0, _, _, hfuel => absurd hfuel (by simp)
  | p :: ps, c :: cs, fuel + 1, s, hs, hfuel => by
    have hread : h.read p = some ⟨c.value, c.size, ps.head?⟩ := by
      rw [hs.1, Option.or_none]
    rw [List.head?_cons, loop, hread, List.map_cons, List.foldlM_cons]
    show (body c.value s).bind _ = (body c.value s).bind _
    congr 1
    funext s
    exact Seg.loop_eq body s hs.2 (Nat.le_of_succ_le_succ hfuel)

/-- What the loop has stood on is gone, and nothing else. -/
def Cleared (h h' : Heap (ChainCell α)) (ps : List Ptr) : Prop :=
  h'.next = h.next ∧ (∀ p ∈ ps, h'.read p = none) ∧ ∀ p, p ∉ ps → h'.read p = h.read p

theorem Cleared.nil (h : Heap (ChainCell α)) : Cleared h h [] :=
  ⟨rfl, fun _ hp => absurd hp List.not_mem_nil, fun _ _ => rfl⟩

theorem Cleared.append {h'' : Heap (ChainCell α)} {ps qs : List Ptr} (hp : Cleared h h' ps)
    (hq : Cleared h' h'' qs) : Cleared h h'' (ps ++ qs) := by
  refine ⟨hq.1.trans hp.1, ?_, ?_⟩
  · intro p hmem
    by_cases hin : p ∈ qs
    · exact hq.2.1 p hin
    · rw [hq.2.2 p hin]
      exact hp.2.1 p ((List.mem_append.mp hmem).resolve_right hin)
  · intro p hmem
    rw [List.mem_append, not_or] at hmem
    rw [hq.2.2 p hmem.2, hp.2.2 p hmem.1]

theorem cleared_free (h : Heap (ChainCell α)) (p : Ptr) : Cleared h (h.free p) [p] := by
  refine ⟨rfl, ?_, ?_⟩
  · intro q hq
    rw [List.mem_singleton.mp hq]
    exact read_free_self h p
  · intro q hq
    exact read_free_of_ne fun heq => hq (heq ▸ List.mem_singleton_self p)

/-- A list apart from what is cleared stays. -/
theorem Seg.of_cleared {ps qs : List Ptr} {cs : List (ListCell α)} (hc : Cleared h h' qs)
    (hdisj : ∀ p ∈ ps, p ∉ qs) (hs : Seg h ps cs stop) : Seg h' ps cs stop :=
  hs.congr fun p hp => hc.2.2 p (hdisj p hp)

/-- **A loop that frees goes through the values and leaves none of the cells.** -/
theorem Seg.drain_eq (body : α → σ → Option σ) : ∀ {ps : List Ptr} {cs : List (ListCell α)}
    {fuel : Nat} (h : Heap (ChainCell α)) (s : σ), Seg h ps cs none → ps.Nodup →
    ps.length ≤ fuel → ∃ h', Cleared h h' ps ∧
      drain body fuel ps.head? (h, s) =
        ((cs.map (·.value)).foldlM (fun s a => body a s) s).map fun s => (h', s)
  | [], [], fuel, h, s, _, _, _ => ⟨h, .nil h, by cases fuel <;> rfl⟩
  | p :: ps, c :: cs, 0, _, _, _, _, hfuel => absurd hfuel (by simp)
  | p :: ps, c :: cs, fuel + 1, h, s, hs, hn, hfuel => by
    obtain ⟨hp, hps⟩ := List.nodup_cons.mp hn
    have hrest : Seg (h.free p) ps cs none :=
      hs.2.of_cleared (cleared_free h p) fun q hq heq => hp (List.mem_singleton.mp heq ▸ hq)
    -- where the loop ends up does not depend on what the body has made of the rest
    have ih : ∀ s, ∃ h', Cleared (h.free p) h' ps ∧ drain body fuel ps.head? (h.free p, s) =
        ((cs.map (·.value)).foldlM (fun s a => body a s) s).map fun s => (h', s) :=
      fun s => Seg.drain_eq body (h.free p) s hrest hps (Nat.le_of_succ_le_succ hfuel)
    have hread : h.read p = some ⟨c.value, c.size, ps.head?⟩ := by
      rw [hs.1, Option.or_none]
    rw [List.head?_cons, drain, hread, List.map_cons, List.foldlM_cons]
    cases hbody : body c.value s with
    | none =>
      obtain ⟨h', hc, _⟩ := ih s
      refine ⟨h', (cleared_free h p).append hc, ?_⟩
      dsimp only [Option.bind_some]
      rw [hbody]
      rfl
    | some s' =>
      obtain ⟨h', hc, hdrain⟩ := ih s'
      refine ⟨h', (cleared_free h p).append hc, ?_⟩
      dsimp only [Option.bind_some]
      rw [hbody]
      exact hdrain

/-- Nothing is left from `a` to `b`, and everything else is. -/
def Hole (h h' : Heap (ChainCell α)) (a b : Ptr) : Prop :=
  h'.next = h.next ∧ ∀ p, h'.read p = if a ≤ p ∧ p < b then none else h.read p

theorem Hole.refl (h : Heap (ChainCell α)) (a : Ptr) : Hole h h a a :=
  ⟨rfl, fun _ => (if_neg fun hp => Nat.not_le_of_lt hp.2 hp.1).symm⟩

theorem Cleared.hole {a : Ptr} {n : Nat} (hc : Cleared h h' (List.range' a n)) :
    Hole h h' a (a + n) := by
  refine ⟨hc.1, fun p => ?_⟩
  by_cases hp : a ≤ p ∧ p < a + n
  · rw [if_pos hp]
    exact hc.2.1 p (List.mem_range'_1.mpr hp)
  · rw [if_neg hp]
    exact hc.2.2 p (mt List.mem_range'_1.mp hp)

/-- Two holes side by side. -/
theorem Hole.trans {h'' : Heap (ChainCell α)} {a b c : Ptr} (hab : Hole h h' a b)
    (hbc : Hole h' h'' b c) (hle : a ≤ b) (hle' : b ≤ c) : Hole h h'' a c := by
  refine ⟨hbc.1.trans hab.1, fun p => ?_⟩
  rw [hbc.2, hab.2]
  by_cases hlow : p < b
  · have hiff : (a ≤ p ∧ p < b) ↔ (a ≤ p ∧ p < c) :=
      and_congr_right fun _ => iff_of_true hlow (Nat.lt_of_lt_of_le hlow hle')
    rw [if_neg fun hp => Nat.not_le_of_lt hlow hp.1]
    exact if_congr hiff rfl rfl
  · have hb : b ≤ p := Nat.le_of_not_lt hlow
    have hiff : (b ≤ p ∧ p < c) ↔ (a ≤ p ∧ p < c) :=
      and_congr_left fun _ => iff_of_true hb (Nat.le_trans hle hb)
    have hmid : (if a ≤ p ∧ p < b then none else h.read p) = h.read p :=
      if_neg fun hp => hlow hp.2
    rw [hmid]
    exact if_congr hiff rfl rfl

/-- A list behind the hole stays. -/
theorem Seg.of_hole {a b c : Ptr} {n : Nat} {cs : List (ListCell α)} (hole : Hole h h' a b)
    (hle : b ≤ c) (hs : Seg h (List.range' c n) cs stop) : Seg h' (List.range' c n) cs stop := by
  refine hs.congr fun p hp => ?_
  rw [hole.2, if_neg fun hin => ?_]
  exact Nat.not_le_of_lt hin.2 (Nat.le_trans hle (List.mem_range'_1.mp hp).1)

end Seg

/-! ## A list under construction -/

/-- The list has the newest pointers of the heap, from `start` on. -/
structure Newest (h : Heap (ChainCell α)) (start : Ptr) (list : CellList α) : Prop where
  seg : Seg h (List.range' start list.cells.length) list.cells none
  next : h.next = start + list.cells.length

/-- What stands below a pointer. -/
def SameBelow (start : Ptr) (h h' : Heap (ChainCell α)) : Prop :=
  ∀ p < start, h'.read p = h.read p

theorem SameBelow.trans {start : Ptr} {h h' h'' : Heap (ChainCell α)} (hab : SameBelow start h h')
    (hbc : SameBelow start h' h'') : SameBelow start h h'' :=
  fun p hp => (hbc p hp).trans (hab p hp)

theorem SameBelow.mono {start start' : Ptr} {h h' : Heap (ChainCell α)} (hle : start' ≤ start)
    (hab : SameBelow start h h') : SameBelow start' h h' :=
  fun p hp => hab p (Nat.lt_of_lt_of_le hp hle)

/-- What has been stored stays where only new cells are written. -/
theorem Seg.of_sameBelow {h h' : Heap (ChainCell α)} {ps : List Ptr} {cs : List (ListCell α)}
    {stop : Option Ptr} (hb : SameBelow h.next h h') (hs : Seg h ps cs stop) :
    Seg h' ps cs stop := by
  refine hs.congr fun p hp => ?_
  obtain ⟨cell, hcell⟩ := hs.read_of_mem p hp
  exact hb p (lt_next_of_read hcell)

section Newest

variable {h : Heap (ChainCell α)} {start : Ptr} {list : CellList α}

theorem newest_create (h : Heap (ChainCell α)) (junk : α) :
    Newest (create h junk).2 h.next (.create junk) :=
  ⟨⟨read_alloc_self h _, trivial⟩, rfl⟩

theorem sameBelow_create (h : Heap (ChainCell α)) (junk : α) :
    SameBelow h.next h (create h junk).2 :=
  fun _ hp => read_alloc_of_ne (Nat.ne_of_lt hp)

theorem cells_push_of_eq {list : CellList α} (h0 : list.head.size = 0) (data : α) :
    (list.push data).cells = [⟨data, 1⟩] := by
  unfold CellList.push
  rw [dif_pos h0]
  rfl

theorem cells_push_of_ne {list : CellList α} (h0 : list.head.size ≠ 0) {before : List (ListCell α)}
    {last : ListCell α} (hcells : list.cells = before ++ [last]) (data : α) :
    (list.push data).cells = before ++ [last] ++ [⟨data, last.size + 1⟩] := by
  have hlast : list.next.getLastD list.head = last := by
    rw [← List.getLast_eq_getLastD (List.cons_ne_nil _ _)]
    exact (List.getLast_congr _ (by simp) hcells).trans (by simp)
  subst hlast
  unfold CellList.push
  rw [dif_neg h0, ← hcells]
  rfl

/-- **A push keeps the list where it is** and touches nothing below. -/
theorem Newest.push (hl : Newest h start list) (data : α) :
    ∃ h', HeapList.push h start data = some h' ∧ Newest h' start (list.push data) ∧
      SameBelow start h h' := by
  have hread : h.read start = some ⟨list.head.value, list.head.size, _⟩ := hl.seg.1
  unfold HeapList.push
  rw [hread]
  dsimp only [Option.bind_some]
  by_cases h0 : list.head.size = 0
  · rw [if_pos h0]
    have hone : list.cells.length = 1 := congrArg (List.length <| list.head :: ·) (list.fresh h0)
    refine ⟨_, rfl, ⟨?_, ?_⟩, fun p hp => read_write_of_ne (Nat.ne_of_lt hp)⟩
    · rw [cells_push_of_eq h0]
      exact ⟨read_write_self hread, trivial⟩
    · rw [cells_push_of_eq h0, next_write, hl.next, hone]
      rfl
  · rw [if_neg h0]
    -- the cells in front of the last one, and the last
    obtain ⟨before, last, hcells⟩ : ∃ before last, list.cells = before ++ [last] :=
      ⟨_, _, (List.dropLast_append_getLast (List.cons_ne_nil _ _)).symm⟩
    have hlength : list.cells.length = before.length + 1 := by rw [hcells]; simp
    obtain ⟨hseg, hnext⟩ := hl
    rw [hlength] at hseg hnext
    rw [List.range'_1_concat] at hseg
    have hwalk : HeapList.last h h.next start = some (start + before.length) := by
      refine hseg.last_eq ?_ ?_
      · rw [List.length_range', hnext]
        omega
      · rw [← List.range'_1_concat]
        rfl
    rw [hcells, seg_append_iff (by simp)] at hseg
    obtain ⟨hbefore, hlast, _⟩ := hseg
    rw [hwalk, Option.bind_some, hlast]
    have hlt : start + before.length < h.next := by
      rw [hnext]
      exact Nat.lt_succ_self _
    have hne : start + before.length ≠ h.next := Nat.ne_of_lt hlt
    have hlast' := (read_alloc_of_ne (a := ⟨data, last.size + 1, none⟩) hne).trans hlast
    refine ⟨_, rfl, ⟨?_, ?_⟩, ?_⟩
    · rw [cells_push_of_ne h0 hcells, List.length_append, List.length_append, List.length_singleton,
        List.length_singleton, List.range'_1_concat, List.range'_1_concat,
        seg_append_iff (by simp), seg_append_iff (by simp)]
      refine ⟨⟨hbefore.congr ?_, ?_, trivial⟩, ?_, trivial⟩
      · intro p hp
        rw [List.mem_range'_1] at hp
        rw [read_write_of_ne (Nat.ne_of_lt hp.2),
          read_alloc_of_ne (Nat.ne_of_lt (Nat.lt_trans hp.2 hlt))]
      · rw [read_write_self hlast', hnext]
        rfl
      · rw [← hnext]
        exact (read_write_of_ne hne.symm).trans (read_alloc_self h _)
    · rw [cells_push_of_ne h0 hcells, next_write, next_alloc, hnext, List.length_append,
        List.length_append]
      rfl
    · intro p hp
      have hp' : p < start + before.length := Nat.lt_add_right _ hp
      rw [read_write_of_ne (Nat.ne_of_lt hp'),
        read_alloc_of_ne (Nat.ne_of_lt (Nat.lt_trans hp' hlt))]

theorem Newest.loop_eq (hl : Newest h start list) (body : α → σ → Option σ) (s : σ) :
    loop h body h.next (some start) s = list.values.foldlM (fun s a => body a s) s :=
  hl.seg.loop_eq body s (by rw [List.length_range', hl.next]; exact Nat.le_add_left _ _)

end Newest

/-! ## Lists of lists

The records of a list may point to lists of their own, which have been built one after the other. A
record then tells where the list of its element starts, and the list of the next element starts
where that one ends. -/

section Layout

variable {Λ β : Type} (record : Λ → β → α) (advance : Λ → β → Λ)

/-- The records of elements that are laid out from `at` on. -/
def records : Λ → List β → List α
  | _, [] => []
  | l, x :: xs => record l x :: records (advance l x) xs

/-- What holds of every element where it stands. -/
def AllAt (P : Λ → β → Prop) : Λ → List β → Prop
  | _, [] => True
  | l, x :: xs => P l x ∧ AllAt P (advance l x) xs

variable {record advance}

theorem records_append : ∀ (l : Λ) (xs ys : List β),
    records record advance l (xs ++ ys) =
      records record advance l xs ++ records record advance (xs.foldl advance l) ys
  | _, [], _ => rfl
  | l, x :: xs, ys => congrArg (record l x :: ·) (records_append (advance l x) xs ys)

theorem records_eq_nil_iff {l : Λ} {xs : List β} : records record advance l xs = [] ↔ xs = [] := by
  cases xs with
  | nil => exact iff_of_true rfl rfl
  | cons x xs => exact iff_of_false (List.cons_ne_nil _ _) (List.cons_ne_nil _ _)

theorem allAt_append_iff {P : Λ → β → Prop} : ∀ {l : Λ} {xs ys : List β},
    AllAt advance P l (xs ++ ys) ↔
      AllAt advance P l xs ∧ AllAt advance P (xs.foldl advance l) ys
  | _, [], _ => (iff_of_eq (true_and _)).symm
  | _, _ :: _, _ => (and_congr_right fun _ => allAt_append_iff).trans and_assoc.symm

/-- Where all places have a property that going on keeps. -/
theorem AllAt.imp_from {P Q : Λ → β → Prop} {J : Λ → Prop} (hJ : ∀ l x, J l → J (advance l x)) :
    ∀ {l : Λ} {xs : List β}, J l → (∀ l, J l → ∀ x ∈ xs, P l x → Q l x) →
    AllAt advance P l xs → AllAt advance Q l xs
  | _, [], _, _, _ => trivial
  | l, x :: _, hl, himp, h => ⟨himp l hl x List.mem_cons_self h.1,
      h.2.imp_from hJ (hJ l x hl) fun l hl y hy => himp l hl y (List.mem_cons_of_mem x hy)⟩

theorem AllAt.imp {P Q : Λ → β → Prop} {l : Λ} {xs : List β}
    (himp : ∀ l, ∀ x ∈ xs, P l x → Q l x) (h : AllAt advance P l xs) : AllAt advance Q l xs :=
  h.imp_from (J := fun _ => True) (fun _ _ _ => trivial) trivial fun l _ => himp l

/-- A loop whose body does to the record of an element what `f` does with the element. -/
theorem AllAt.foldlM_eq {P : Λ → β → Prop} {body : α → σ → Option σ} {f : σ → β → σ}
    (hbody : ∀ l x s, P l x → body (record l x) s = some (f s x)) : ∀ {l : Λ} {xs : List β} (s : σ),
    AllAt advance P l xs →
      (records record advance l xs).foldlM (fun s a => body a s) s = some (xs.foldl f s)
  | _, [], _, _ => rfl
  | l, x :: xs, s, h => by
    rw [records, List.foldlM_cons, hbody l x s h.1]
    exact AllAt.foldlM_eq hbody (f s x) h.2

end Layout

end HeapList

end Lib
end TsnController

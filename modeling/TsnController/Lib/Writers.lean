import Mathlib.Data.List.Basic
import Mathlib.Logic.Function.Basic

/-!
# Writers of blocks

Several writers append rows to one table. Every row belongs to a group. What a writer writes comes
in blocks: a block is for one group, its rows are appended one after the other, and the first of
them only where the group is still empty. However the writers take turns, and wherever they stop, a
group then holds the beginning of one block and nothing else (`Guarded.groups`).

A row is what an item of a block comes to, if it comes to one (`row`).
-/

set_option autoImplicit false

namespace TsnController
namespace Lib

/-- A block in progress: what has been written of it and what is ahead. -/
structure BlockCursor (G A : Type) where
  group : G
  written : List A
  ahead : List A

theorem update_eq_some {C ι : Type} [DecidableEq ι] {cursor : ι → Option C} {i j : ι} {c : Option C}
    {d : C} (h : Function.update cursor i c j = some d) :
    (j = i ∧ c = some d) ∨ (j ≠ i ∧ cursor j = some d) := by
  by_cases hj : j = i
  · subst hj
    rw [Function.update_self] at h
    exact Or.inl ⟨rfl, h⟩
  · rw [Function.update_of_ne hj] at h
    exact Or.inr ⟨hj, h⟩

/-- The first item that several blocks have. -/
theorem exists_of_flatten_eq_cons {A : Type} {a : A} {as : List A} : ∀ {blocks : List (List A)},
    blocks.flatten = a :: as → ∃ (ahead : List A) (later : List (List A)),
      (a :: ahead) ∈ blocks ∧ as = ahead ++ later.flatten ∧ ∀ b ∈ later, b ∈ blocks
  | [], h => absurd h (by simp)
  | [] :: blocks, h => by
    have htail : blocks.flatten = a :: as := h
    obtain ⟨ahead, later, hmem, has, hlater⟩ := exists_of_flatten_eq_cons htail
    exact ⟨ahead, later, List.mem_cons_of_mem _ hmem, has,
      fun b hb => List.mem_cons_of_mem _ (hlater b hb)⟩
  | (b :: bs) :: blocks, h => by
    rw [List.flatten_cons, List.cons_append, List.cons.injEq] at h
    obtain ⟨rfl, rfl⟩ := h
    exact ⟨bs, blocks, List.mem_cons_self, rfl, fun b' hb' => List.mem_cons_of_mem _ hb'⟩

section Blocks

variable {R G A ι : Type} [DecidableEq G] (group : R → G) (row : A → Option R)
  (IsBlock : G → List A → Prop)

/-- The rows of a group. -/
def ofGroup (rows : List R) (g : G) : List R := rows.filter (group · = g)

/-- The table and the blocks in progress. What was in the table at the start is in no block. -/
structure Guarded (init rows : List R) (cursor : ι → Option (BlockCursor G A)) : Prop where
  written : ∀ i c, cursor i = some c →
    c.written ≠ [] ∧ (ofGroup group rows c.group).map some = c.written.map row
  block : ∀ i c, cursor i = some c →
    IsBlock c.group (c.written ++ c.ahead) ∧ ofGroup group init c.group = []
  apart : ∀ i j c d, i ≠ j → cursor i = some c → cursor j = some d → c.group ≠ d.group
  groups : ∀ g, ofGroup group rows g = ofGroup group init g ∨
    (ofGroup group init g = [] ∧ ∃ b, IsBlock g b ∧ (ofGroup group rows g).map some <+: b.map row)

variable {group row IsBlock}

theorem ofGroup_append_self {rows : List R} {r : R} {g : G} (h : group r = g) :
    ofGroup group (rows ++ [r]) g = ofGroup group rows g ++ [r] := by
  unfold ofGroup
  rw [List.filter_append, List.filter_singleton, decide_eq_true h]
  rfl

theorem ofGroup_append_of_ne {rows : List R} {r : R} {g : G} (h : group r ≠ g) :
    ofGroup group (rows ++ [r]) g = ofGroup group rows g := by
  unfold ofGroup
  rw [List.filter_append, List.filter_singleton, decide_eq_false h]
  exact List.append_nil _

theorem guarded_start (init : List R) :
    Guarded group row IsBlock init init fun _ : ι => none where
  written i c h := absurd h (by simp)
  block i c h := absurd h (by simp)
  apart i j c d _ h := absurd h (by simp)
  groups g := Or.inl rfl

section Turn

variable [DecidableEq ι] {init rows : List R} {cursor : ι → Option (BlockCursor G A)} {i : ι}

/-- A writer may leave its block at any time. -/
theorem Guarded.leave (h : Guarded group row IsBlock init rows cursor) (i : ι) :
    Guarded group row IsBlock init rows (Function.update cursor i none) := by
  have hold : ∀ {j c}, Function.update cursor i none j = some c → cursor j = some c := by
    intro j c hc
    rcases update_eq_some hc with ⟨_, hnone⟩ | ⟨_, hc⟩
    · exact absurd hnone (by simp)
    · exact hc
  exact ⟨fun j c hc => h.written j c (hold hc), fun j c hc => h.block j c (hold hc),
    fun j k c d hjk hc hd => h.apart j k c d hjk (hold hc) (hold hd), h.groups⟩

/-- One more row, for a group that is nobody else's. -/
theorem Guarded.append (h : Guarded group row IsBlock init rows cursor) {c : BlockCursor G A}
    {a : A} {r : R} {before : List A} (hrow : row a = some r) (hgroup : group r = c.group)
    (hwritten : c.written = before ++ [a])
    (hbefore : (ofGroup group rows c.group).map some = before.map row)
    (hblock : IsBlock c.group (c.written ++ c.ahead) ∧ ofGroup group init c.group = [])
    (hothers : ∀ j d, j ≠ i → cursor j = some d → d.group ≠ c.group) :
    Guarded group row IsBlock init (rows ++ [r]) (Function.update cursor i (some c)) := by
  have hself : (ofGroup group (rows ++ [r]) c.group).map some = c.written.map row := by
    rw [ofGroup_append_self hgroup, List.map_append, hbefore, hwritten, List.map_append,
      List.map_singleton, List.map_singleton, hrow]
  have hother : ∀ g, g ≠ c.group → ofGroup group (rows ++ [r]) g = ofGroup group rows g :=
    fun g hg => ofGroup_append_of_ne (hgroup ▸ Ne.symm hg)
  refine ⟨?_, ?_, ?_, ?_⟩
  · intro j d hd
    rcases update_eq_some hd with ⟨_, hd⟩ | ⟨hj, hd⟩
    · cases hd
      exact ⟨by rw [hwritten]; exact List.append_ne_nil_of_right_ne_nil _ (List.cons_ne_nil _ _),
        hself⟩
    · rw [hother d.group (hothers j d hj hd)]
      exact h.written j d hd
  · intro j d hd
    rcases update_eq_some hd with ⟨_, hd⟩ | ⟨_, hd⟩
    · cases hd
      exact hblock
    · exact h.block j d hd
  · intro j k d e hjk hd he
    rcases update_eq_some hd with ⟨hj, hd⟩ | ⟨hj, hd⟩
    · cases hd
      rcases update_eq_some he with ⟨hk, _⟩ | ⟨hk, he⟩
      · exact absurd (hj.trans hk.symm) hjk
      · exact Ne.symm (hothers k e hk he)
    · rcases update_eq_some he with ⟨_, he⟩ | ⟨_, he⟩
      · cases he
        exact hothers j d hj hd
      · exact h.apart j k d e hjk hd he
  · intro g
    by_cases hg : g = c.group
    · subst hg
      refine Or.inr ⟨hblock.2, _, hblock.1, ?_⟩
      rw [hself, List.map_append]
      exact List.prefix_append _ _
    · rw [hother g hg]
      exact h.groups g

/-- The first row of a block, where there is none of its group. -/
theorem Guarded.begin (h : Guarded group row IsBlock init rows cursor) {g : G} {a : A} {r : R}
    {ahead : List A} (hrow : row a = some r) (hgroup : group r = g)
    (hempty : ofGroup group rows g = []) (hblock : IsBlock g (a :: ahead)) :
    Guarded group row IsBlock init (rows ++ [r])
      (Function.update cursor i (some ⟨g, [a], ahead⟩)) := by
  have hinit : ofGroup group init g = [] := by
    rcases h.groups g with heq | ⟨hnil, _⟩
    · rw [← heq, hempty]
    · exact hnil
  have hnothing : (ofGroup group rows g).map some = ([] : List A).map row := by
    rw [hempty]
    rfl
  refine h.append (c := ⟨g, [a], ahead⟩) hrow hgroup (by rfl) hnothing ⟨hblock, hinit⟩ ?_
  intro j d _ hd heq
  obtain ⟨hne, hwritten⟩ := h.written j d hd
  rw [heq, hempty] at hwritten
  exact hne (List.map_eq_nil_iff.mp hwritten.symm)

/-- The next row of a block. -/
theorem Guarded.write (h : Guarded group row IsBlock init rows cursor) {g : G} {a : A} {r : R}
    {written ahead : List A} (hcursor : cursor i = some ⟨g, written, a :: ahead⟩)
    (hrow : row a = some r) (hgroup : group r = g) :
    Guarded group row IsBlock init (rows ++ [r])
      (Function.update cursor i (some ⟨g, written ++ [a], ahead⟩)) := by
  obtain ⟨_, hwritten⟩ := h.written i _ hcursor
  obtain ⟨hblock, hinit⟩ := h.block i _ hcursor
  refine h.append (c := ⟨g, written ++ [a], ahead⟩) hrow hgroup rfl hwritten ⟨?_, hinit⟩ ?_
  · rw [List.append_assoc]
    exact hblock
  · intro j d hj hd
    have hapart := h.apart j i d ⟨g, written, a :: ahead⟩ hj hd hcursor
    exact hapart

end Turn

end Blocks

end Lib
end TsnController

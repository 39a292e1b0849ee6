import TsnController.Json.Run

/-!
# `json.c`: what the cells say

The type of a cell and its value are stored together, by `json_set_value`, and the types of groups
by the brackets. So whatever the text is, at any point of the run and wherever a cell hangs, its
type is one of the seven, a scalar has its value, and the value of a literal is the literal
(`valued_after`).

The steps of the builder are gone through once, for any property of cells that its stores keep
(`Keeps`).
-/

set_option autoImplicit false

namespace TsnController
namespace Json

open CLib Lib

/-- A property of cells that every store of the builder keeps. Links do not matter to it. -/
structure Keeps (P : JsonData → Prop) : Prop where
  fresh : P {}
  opened : ∀ {d : JsonData} (c : Char), P d → P { d with type := jsonToken c }
  named : ∀ {d : JsonData} (name : Text), P d → P { d with name := some name }
  valued : ∀ {d : JsonData} {left right : Text} {type : JsonType},
    valueType left right = some type →
      P { d with type := type, value := some (jsonCopy left (spanSize left right)) }

section Step

variable {P : JsonData → Prop} {b : Builder} {node : JsonCell} {parent : Option JsonCell} {s : Scan}

/-- The property, of every cell. -/
abbrev Cells (P : JsonData → Prop) (heap : Heap JsonCell) : Prop := heap.All fun a => P a.toJsonData

theorem Keeps.setName (hP : Keeps P) {node' : JsonCell} (hnode : P node.toJsonData)
    (h : jsonSetName node s.left s.right = some node') : P node'.toJsonData := by
  unfold jsonSetName at h
  split at h
  · exact absurd h (by simp)
  · obtain rfl := Option.some.inj h
    exact hP.named _ hnode

theorem Keeps.setValue (hP : Keeps P) {node' : JsonCell}
    (h : jsonSetValue node s.left s.right = some node') : P node'.toJsonData := by
  obtain ⟨type, htype, rfl⟩ := Option.map_eq_some_iff.mp h
  exact hP.valued htype

theorem Keeps.openGroup (hP : Keeps P) (h : Cells P b.heap) (hnode : P node.toJsonData) :
    Cells P (openGroup b node parent s).state.heap := by
  unfold Json.openGroup
  split
  · exact h
  · split
    · exact h
    · exact (h.alloc hP.fresh).write (hP.opened _ hnode)

theorem Keeps.nameNode (hP : Keeps P) (h : Cells P b.heap) (hnode : P node.toJsonData) :
    Cells P (nameNode b node parent s).state.heap := by
  unfold Json.nameNode
  split
  · exact h
  · cases hset : jsonSetName node s.left s.right with
    | none => exact h
    | some node' => exact h.write (hP.setName hnode hset)

theorem Keeps.pushSibling (hP : Keeps P) (h : Cells P b.heap) (hnode : P node.toJsonData) :
    Cells P (pushSibling b s node).state.heap :=
  (h.alloc hP.fresh).write hnode

theorem Keeps.nextSibling (hP : Keeps P) (h : Cells P b.heap) (hnode : P node.toJsonData) :
    Cells P (nextSibling b node parent s).state.heap := by
  unfold Json.nextSibling
  split
  · exact h
  · split
    · split
      · exact h
      · cases hset : jsonSetValue node s.left s.right with
        | none => exact h
        | some node' => exact hP.pushSibling h (hP.setValue hset)
    · split
      · exact h
      · exact hP.pushSibling h hnode

theorem heap_climb (heap : Heap JsonCell) (up : Option Ptr) :
    (climb b s heap up).state.heap = heap := by
  cases up <;> rfl

theorem Keeps.closeGroup (hP : Keeps P) (h : Cells P b.heap) :
    Cells P (closeGroup b node parent s).state.heap := by
  unfold Json.closeGroup
  split
  · exact h
  · split
    · split
      · split
        · exact h
        · rwa [heap_climb]
      · split
        · exact h
        · cases hset : jsonSetValue node s.left s.right with
          | none => exact h
          | some node' =>
            dsimp only
            rw [heap_climb]
            exact h.write (hP.setValue hset)
    · split
      · exact h
      · rwa [heap_climb]

theorem heap_finish (heap : Heap JsonCell) : (finish b heap node).state.heap = heap := by
  unfold finish
  split
  · rfl
  · split <;> rfl

theorem Keeps.endOfText (hP : Keeps P) (h : Cells P b.heap) :
    Cells P (endOfText b node s).state.heap := by
  unfold Json.endOfText
  split
  · split
    · exact h
    · cases hset : jsonSetValue node s.left s.right with
      | none => exact h
      | some node' =>
        dsimp only
        rw [heap_finish]
        exact h.write (hP.setValue hset)
  · rwa [heap_finish]

theorem Keeps.step (hP : Keeps P) (h : Cells P b.heap) :
    Cells P (jsonBuildStep b).state.heap := by
  unfold jsonBuildStep
  cases hread : b.heap.read b.node with
  | none => exact h
  | some node =>
    have hnode := h _ _ hread
    cases jsonScan b.left with
    | none => exact h
    | some s =>
      dsimp only
      split
      · exact hP.openGroup h hnode
      split
      · exact hP.nameNode h hnode
      split
      · exact hP.nextSibling h hnode
      split
      · exact hP.closeGroup h
      · exact hP.endOfText h

end Step

theorem Keeps.after {P : JsonData → Prop} (hP : Keeps P) (text : Text) (n : Nat) :
    Cells P (jsonBuildAfter text n).state.heap := by
  refine jsonBuildAfter_induction (P := fun r => Cells P r.state.heap) ?_ ?_ n
  · exact Heap.all_empty.alloc hP.fresh
  · exact fun b h => hP.step h

/-! ## Types and values -/

/-- The value of a literal is the literal, and every other scalar has some value. -/
structure Valued (d : JsonData) : Prop where
  type : d.type ≠ .none
  boolean : d.type = .boolean → d.value = some "true".toList ∨ d.value = some "false".toList
  null : d.type = .null → d.value = some "null".toList
  scalar : d.type = .string ∨ d.type = .number → d.value ≠ none

theorem copy_literal {left w : Text} (hw : left.take w.length = w)
    (hchars : ∀ c ∈ w, numChar c = true) : jsonCopy left w.length = w := by
  conv_lhs => rw [← List.take_append_drop w.length left, hw]
  exact jsonCopy_word hchars

theorem keeps_valued : Keeps Valued where
  fresh := ⟨by simp, by simp, by simp, by simp⟩
  opened c _ := by
    have htype : jsonToken c = .object ∨ jsonToken c = .array ∨ jsonToken c = .empty := by
      unfold jsonToken
      split
      · exact .inl rfl
      · split
        · exact .inr (.inl rfl)
        · exact .inr (.inr rfl)
    constructor <;> rcases htype with h | h | h <;> simp [h]
  named name h := ⟨h.type, h.boolean, h.null, h.scalar⟩
  valued {d left right type} h := by
    have hcopy : ∀ w : Text, w.all numChar = true → spanSize left right = w.length ∧
        left.take (spanSize left right) = w →
        some (jsonCopy left (spanSize left right)) = some w := by
      rintro w hchars ⟨hsize, htake⟩
      rw [hsize] at htake ⊢
      rw [copy_literal htake (List.all_eq_true.mp hchars)]
    unfold valueType at h
    dsimp only at h
    split at h
    · obtain rfl := Option.some.inj h
      exact ⟨by simp, by simp, by simp, by simp⟩
    split at h
    · rename_i hnull
      obtain rfl := Option.some.inj h
      exact ⟨by simp, by simp, fun _ => hcopy "null".toList (by decide) hnull, by simp⟩
    split at h
    · rename_i htrue
      obtain rfl := Option.some.inj h
      exact ⟨by simp, fun _ => .inl (hcopy "true".toList (by decide) htrue), by simp, by simp⟩
    split at h
    · rename_i hfalse
      obtain rfl := Option.some.inj h
      exact ⟨by simp, fun _ => .inr (hcopy "false".toList (by decide) hfalse), by simp, by simp⟩
    split at h
    · exact absurd h (by simp)
    · obtain rfl := Option.some.inj h
      exact ⟨by simp, by simp, by simp, by simp⟩

theorem valued_after (text : Text) (n : Nat) : Cells Valued (jsonBuildAfter text n).state.heap :=
  keeps_valued.after text n

end Json
end TsnController

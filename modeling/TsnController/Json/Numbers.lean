import TsnController.CLib.Convert
import TsnController.Json.Invariant
import TsnController.Json.Access

/-!
# The numbers of a document

Three functions look at a number and none of them asks another. `json_set_value` lets `strtod`
decide what a number is, `json_is_real` and `json_is_integer` look for a point and a minus sign in
its text, and `json_real` and `json_integer` convert the text with `strtoul` and `strtol`.

The first is an invariant of the builder: a node of type number holds a text that `strtod` reads to
its end (`jsonParse_spelled`), and so one of the forms of `Numeral`. The other two are functions of
that text, and `CLib.Convert` says when they answer with its value.
-/

set_option autoImplicit false

namespace TsnController
namespace Json

open CLib Lib

/-! ## Every number is one -/

/-- A node of type number holds a number. -/
def Spelled (d : JsonData) : Prop := d.type = .number → ∃ w, d.value = some w ∧ IsNumeral w

/-- … at every node of a chain. -/
abbrev AllSpelled : Option JsonData → Bool → JsonTree → Prop :=
  Everywhere fun _ _ d _ _ => Spelled d

/-- A fresh node. -/
theorem spelled_fresh : Spelled {} := fun h => absurd h (by decide)

theorem spelled_of_ne {d : JsonData} (h : d.type ≠ .number) : Spelled d := fun hd => absurd hd h

/-- A content that is read as a scalar is spelled as one. -/
theorem spelled_of_reads {t content rest : Text} {c : Char} {type : JsonType}
    {name : Option Text} (h : Reads t content c rest) (hc : content ≠ [])
    (ht : scalarType content = some type) :
    Spelled ⟨type, name, some (jsonCopy content content.length)⟩ := by
  obtain ⟨s, _, rfl, hcopy⟩ := h.exists_scalar hc ht
  intro hnumber
  cases s with
  | number w hw => exact ⟨w, congrArg some hcopy, hw⟩
  | strings q => exact absurd hnumber (by simp [Scalar.type])
  | true => exact absurd hnumber (by simp [Scalar.type])
  | false => exact absurd hnumber (by simp [Scalar.type])
  | null => exact absurd hnumber (by simp [Scalar.type])

namespace Cursor

/-- Every number around, at and below the current node is spelled. -/
structure SpelledAt (z : Cursor) : Prop where
  frames : EverywhereFrames (fun _ _ d _ _ => Spelled d) z.frames
  node : Spelled z.data
  children : AllSpelled (some z.data) true z.left

variable {z z' : Cursor} {t content rest : Text} {c : Char}

theorem spelledAt_start : start.SpelledAt := ⟨trivial, spelled_fresh, trivial⟩

theorem SpelledAt.settle (h : z.SpelledAt) (hr : Reads t content c rest)
    (hs : z.settle content = some z') : z'.SpelledAt := by
  rcases settle_cases hs with ⟨_, hc, type, ht, rfl⟩ | ⟨_, _, rfl⟩
  · exact ⟨h.frames, spelled_of_reads hr hc ht, h.children.elsewhere⟩
  · exact h

theorem spelledAt_up : ∀ {c c' : List (Frame JsonData)} {t l : JsonTree} {a : JsonData},
    EverywhereFrames (fun _ _ d _ _ => Spelled d) c → AllSpelled (parentOf c) (isFirst c) t →
    up c t = some (c', a, l) → SpelledAt ⟨c', a, l⟩
  | [], _, _, _, _, _, _, h => absurd h (by simp [up])
  | .left b r :: c, c', t, l, a, ⟨hb, _, hc⟩, ht, h => by
    simp only [up, Option.some.injEq, Prod.mk.injEq] at h
    obtain ⟨rfl, rfl, rfl⟩ := h
    exact ⟨hc, hb, ht⟩
  | .right b l₀ :: c, _, t, _, _, ⟨hb, hl, hc⟩, ht, h =>
    spelledAt_up (t := .node b l₀ t) hc ⟨hb, hl, ht.elsewhere⟩ h

/-- Closing a group hands a spelled node back. -/
theorem SpelledAt.up (h : z.SpelledAt)
    (hup : Lib.up z.frames z.node = some (z'.frames, z'.data, z'.left)) : z'.SpelledAt := by
  have hnode : AllSpelled (parentOf z.frames) (isFirst z.frames) z.node :=
    ⟨h.node, h.children, trivial⟩
  exact spelledAt_up h.frames hnode hup

/-- **One iteration keeps the numbers spelled.** -/
theorem SpelledAt.next (h : z.SpelledAt) (hr : Reads t content c rest)
    (hm : z.Next content c z') : z'.SpelledAt := by
  cases hm with
  | opening k _ =>
    have hk : k.type ≠ .number := by cases k <;> decide
    exact ⟨⟨spelled_of_ne hk, trivial, h.frames⟩, spelled_fresh, trivial⟩
  | colon _ _ _ => exact ⟨h.frames, h.node, h.children.elsewhere⟩
  | comma _ _ hs =>
    have hy := h.settle hr hs
    exact ⟨⟨hy.node, hy.children, hy.frames⟩, spelled_fresh, trivial⟩
  | closeEmpty _ _ _ _ hup => exact h.up hup
  | closing _ _ _ hs hup => exact (h.settle hr hs).up hup

theorem spelledAt_of_walk {x : Cursor × Text} (hw : Walk Any (start, t) x) : x.1.SpelledAt := by
  induction hw with
  | refl => exact spelledAt_start
  | tail _ hstep ih =>
    obtain ⟨_, _, hreads, _, hm⟩ := hstep
    exact ih.next hreads (step_next hm)

end Cursor

theorem jsonParse_spelled {t : Text} {tree : JsonTree} (h : jsonParse t = some tree) :
    AllSpelled none false tree := by
  obtain ⟨x, content, c, rest, z, hwalk, hreads, hm, rfl⟩ :=
    (jsonParse_eq_some_iff.mp h).exists_walk
  obtain ⟨_, hs, _⟩ := Cursor.step_accept_cases hm
  have hz := (Cursor.spelledAt_of_walk hwalk).settle hreads hs
  exact (everywhere_plug z.frames rfl).mpr ⟨hz.frames, hz.node, hz.children, trivial⟩

/-- **Every number of an accepted document has one of the forms of a number.** -/
theorem exists_numeral_of_mem {t : Text} {tree node : JsonTree} (h : jsonParse t = some tree)
    (hn : node ∈ preorder tree) (htype : jsonType node = .number) :
    ∃ n : Numeral, jsonString node = some n.text := by
  cases node with
  | nil => exact absurd htype (by simp [jsonType])
  | node d l r =>
    obtain ⟨_, _, hspelled⟩ := everywhere_of_mem_preorder (jsonParse_spelled h) hn
    obtain ⟨w, hw, hnum⟩ := hspelled htype
    obtain ⟨n, rfl⟩ := hnum.exists_numeral
    exact ⟨n, hw⟩

/-! ## What the predicates look for -/

theorem jsonReal_eq {node : JsonTree} {w : Text} (h : jsonString node = some w) :
    jsonReal node = strtoul w := by
  cases node with
  | nil => exact absurd h (by simp [jsonString])
  | node d l r =>
    change d.value = some w at h
    simp only [jsonReal, h]

theorem jsonInteger_eq {node : JsonTree} {w : Text} (h : jsonString node = some w) :
    jsonInteger node = strtol w := by
  cases node with
  | nil => exact absurd h (by simp [jsonString])
  | node d l r =>
    change d.value = some w at h
    simp only [jsonInteger, h]

theorem number_of_jsonIsInteger {node : JsonTree} (h : jsonIsInteger node = true) :
    jsonType node = .number ∧ ∀ w, jsonString node = some w → '.' ∉ w := by
  cases node with
  | nil => exact absurd h (by simp [jsonIsInteger])
  | node d l r =>
    rw [jsonIsInteger] at h
    split at h
    · exact absurd h (by simp)
    · rename_i htype
      split at h
      · exact absurd h (by simp)
      · rename_i hpoint
        refine ⟨not_not.mp htype, ?_⟩
        intro w hw
        change d.value = some w at hw
        rwa [hw] at hpoint

/-- `json_is_real` asks for one thing more. -/
theorem jsonIsInteger_of_jsonIsReal {node : JsonTree} (h : jsonIsReal node = true) :
    jsonIsInteger node = true ∧ ∀ w, jsonString node = some w → '-' ∉ w := by
  cases node with
  | nil => exact absurd h (by simp [jsonIsReal])
  | node d l r =>
    rw [jsonIsReal] at h
    rw [jsonIsInteger]
    split at h
    · exact absurd h (by simp)
    · rename_i htype
      split at h
      · exact absurd h (by simp)
      · rename_i hpoint
        split at h
        · exact absurd h (by simp)
        · rename_i hminus
          rw [if_neg htype, if_neg hpoint]
          refine ⟨rfl, ?_⟩
          intro w hw
          change d.value = some w at hw
          rwa [hw] at hminus

/-! ## When a conversion answers with the value -/

/-- `text` is a number, and `x` is its value exactly under a condition on its form. -/
def ValueIff (text : Option Text) (x : ℚ) (condition : Numeral → Prop) : Prop :=
  (∃ n : Numeral, text = some n.text) ∧
  ∀ n : Numeral, text = some n.text → (n.value = some x ↔ condition n)

section Conversions

variable {t : Text} {tree node : JsonTree}

/-- What is made of `json_real`, by what is made of `strtoul`. -/
theorem valueIff_of_jsonIsReal {f : Nat → ℚ} {condition : Numeral → Prop}
    (hf : ∀ n : Numeral, '.' ∉ n.text → '-' ∉ n.text →
      (n.value = some (f (strtoul n.text)) ↔ condition n))
    (h : jsonParse t = some tree) (hn : node ∈ preorder tree) (hreal : jsonIsReal node = true) :
    ValueIff (jsonString node) (f (jsonReal node)) condition := by
  obtain ⟨hint, hminus⟩ := jsonIsInteger_of_jsonIsReal hreal
  obtain ⟨htype, hpoint⟩ := number_of_jsonIsInteger hint
  refine ⟨exists_numeral_of_mem h hn htype, ?_⟩
  intro n hw
  rw [jsonReal_eq hw]
  exact hf n (hpoint _ hw) (hminus _ hw)

theorem valueIff_jsonReal (h : jsonParse t = some tree) (hn : node ∈ preorder tree)
    (hreal : jsonIsReal node = true) :
    ValueIff (jsonString node) (jsonReal node) fun n => n.magnitude.Fits ulongMax :=
  valueIff_of_jsonIsReal (f := fun m => m) (fun _ hpoint => value_eq_strtoul_iff hpoint) h hn hreal

/-- The same behind the conversion to `int`. -/
theorem valueIff_toInt_jsonReal (h : jsonParse t = some tree) (hn : node ∈ preorder tree)
    (hreal : jsonIsReal node = true) :
    ValueIff (jsonString node) (toInt (jsonReal node)) fun n => n.magnitude.Fits intMax :=
  valueIff_of_jsonIsReal (f := fun m => toInt m) (fun _ hpoint => value_eq_toInt_iff hpoint) h hn
    hreal

theorem valueIff_jsonInteger (h : jsonParse t = some tree) (hn : node ∈ preorder tree)
    (hint : jsonIsInteger node = true) :
    ValueIff (jsonString node) (jsonInteger node)
      fun n => n.magnitude.FitsOrMeets n.sign.limit := by
  obtain ⟨htype, hpoint⟩ := number_of_jsonIsInteger hint
  refine ⟨exists_numeral_of_mem h hn htype, ?_⟩
  intro n hw
  rw [jsonInteger_eq hw]
  exact value_eq_strtol_iff (hpoint _ hw)

end Conversions

end Json
end TsnController

import TsnController.Json.ScanSpec
import TsnController.Lib.Zipper

/-!
# The builder without its heap

`json_build` keeps one pointer into a linked tree. `Cursor` is that pointer as a zipper over the
*contents* of the tree, `Cursor.step` is one iteration on it, and `step_refines` says that the
iteration on the heap is the iteration on the cursor. Everything about links and allocation is
spent in that one theorem: what is proved about `Cursor.step` afterwards, the invariant of the tree
and both directions of the grammar, never looks at a pointer again.

A step takes what a scan delivers, a content and the entity it stopped at (NUL at the end of the
text). A rejection keeps its cursor, as it does on the heap.
-/

set_option autoImplicit false

namespace TsnController
namespace Json

open CLib Lib

/-! ## What a content is a value of -/

/-- The type of the scalar a content writes, if it writes one. -/
def scalarType (content : Text) : Option JsonType :=
  if content.head? = some '"' then some .string
  else if content = "null".toList then some .null
  else if content = "true".toList then some .boolean
  else if content = "false".toList then some .boolean
  else if strtodEnd content = content.length then some .number
  else none

def JsonType.isGroup : JsonType → Bool
  | .object | .array => true
  | _ => false

def JsonType.isScalar : JsonType → Bool
  | .string | .number | .boolean | .null => true
  | _ => false

theorem JsonType.not_group_of_isScalar {type : JsonType} (h : type.isScalar = true) :
    type.isGroup = false ∧ type ≠ .empty := by
  cases type <;> simp_all [JsonType.isScalar, JsonType.isGroup]

theorem scalarType_isScalar {content : Text} {type : JsonType}
    (h : scalarType content = some type) : type.isScalar = true := by
  rw [scalarType] at h
  repeat' split at h
  all_goals cases h
  all_goals rfl

section Scanned

variable {t content token : Text} {s : Scan}

theorem Scanned.bare_iff (h : Scanned t content token s) : s.bare ↔ content = [] := by
  cases h with
  | bare => simp [Scan.bare]
  | found _ hf =>
    have hpos : 0 < content.length := List.length_pos_iff.mpr hf.1
    simp only [Scan.bare, List.length_append, hf.1, iff_false]
    omega

theorem Scanned.token_eq (h : Scanned t content token s) : s.token = token := by
  cases h <;> rfl

/-- The content is the span between the two marks. -/
theorem Scanned.content_eq (h : Scanned t content token s) :
    content = if s.bare then [] else s.left.take (spanSize s.left s.right) := by
  have hbare := h.bare_iff
  cases h with
  | bare => rw [if_pos (hbare.mpr rfl)]
  | @found pad _ pad' _ x _ hf _ _ _ _ =>
    have hpos : 0 < content.length := List.length_pos_iff.mpr hf.1
    have hsize : spanSize (content ++ (pad' ++ token)) (x :: (pad' ++ token)) = content.length := by
      simp only [spanSize, List.length_append, List.length_cons]; omega
    rw [if_neg (mt hbare.mp hf.1), hsize, List.take_left]

theorem Scanned.stop (h : Scanned t content token s) : Stop token := by
  cases h with
  | bare _ h => exact h
  | found _ _ _ _ h _ => exact h

theorem Scanned.flush (h : Scanned t content token s) (hc : content ≠ []) : Flush content := by
  cases h with
  | bare => exact absurd rfl hc
  | found _ hf => exact hf

theorem Scanned.exists_quoted (h : Scanned t content token s) (hq : content.head? = some '"') :
    ∃ q : Quoted, Padded q.tokens content := by
  cases h with
  | bare => exact absurd hq (by simp)
  | found _ _ _ _ _ hquote => exact (hquote hq).2

theorem numChar_head_of_stop {pad token : Text} (hp : Blank pad) (ht : Stop token) :
    ∀ c ∈ (pad ++ token).head?, numChar c = false := by
  intro c hc
  cases pad with
  | nil => exact (jsonIsToken_plain (ht c hc)).2.2.2
  | cons d ds =>
    obtain rfl : d = c := by simpa using hc
    exact (isspace_plain (hp d (by simp))).2.2.2

/-- Both ends of the span are quotes as soon as its first character is one. -/
theorem Scanned.quoted_iff (h : Scanned t content token s) (hc : content ≠ []) :
    (deref s.left = '"' ∧ deref s.right = '"') ↔ content.head? = some '"' := by
  cases h with
  | bare => exact absurd rfl hc
  | found _ _ _ _ _ hquote =>
    cases content with
    | nil => exact absurd rfl hc
    | cons d ds =>
      simp only [List.cons_append, deref, List.head?_cons, Option.some.injEq]
      exact ⟨fun hd => hd.1, fun hd => ⟨hd, (hquote (by simp [hd])).1⟩⟩

/-- `json_set_value` depends on the content alone. -/
theorem Scanned.valueType_eq (h : Scanned t content token s) (hc : content ≠ []) :
    valueType s.left s.right = scalarType content := by
  have hhead := h.quoted_iff hc
  cases h with
  | bare => exact absurd rfl hc
  | @found pad _ pad' _ x hb hf hlast hb' hstop hquote =>
    have hpos : 0 < content.length := List.length_pos_iff.mpr hc
    have hsize : spanSize (content ++ (pad' ++ token)) (x :: (pad' ++ token)) = content.length := by
      simp only [spanSize, List.length_append, List.length_cons]; omega
    have hnum : strtodEnd (content ++ (pad' ++ token)) ≤ (content ++ (pad' ++ token)).length
        - (x :: (pad' ++ token)).length ↔ ¬ strtodEnd content = content.length := by
      have hv := numChar_head_of_stop hb' hstop
      have hdiff : (content ++ (pad' ++ token)).length - (x :: (pad' ++ token)).length
          = content.length - 1 := by simp only [List.length_append, List.length_cons]; omega
      rw [hdiff]
      constructor
      · intro hle heq
        rw [IsNumeral.strtodEnd_append ⟨hf, heq⟩ hv] at hle
        omega
      · intro hne
        by_contra hlt
        exact hne (isNumeral_of_le_strtodEnd hf hv (by omega)).2
    have hword : ∀ (k : Nat) (w : Text), w.length = k → (content.length = k ∧
        (content ++ (pad' ++ token)).take content.length = w ↔ content = w) := by
      intro k w hw
      rw [List.take_left]
      exact ⟨fun h => h.2, fun h => ⟨h ▸ hw, h⟩⟩
    simp only [valueType, scalarType, hsize, hhead, hnum, hword 4 "null".toList rfl,
      hword 4 "true".toList rfl, hword 5 "false".toList rfl]
    split <;> [rfl; skip]
    split <;> [rfl; skip]
    split <;> [rfl; skip]
    split <;> [rfl; skip]
    split <;> simp_all

theorem numChar_of_all {w : Text} (h : w.all numChar = true) : ∀ c ∈ w, numChar c = true :=
  List.all_eq_true.mp h

/-- The words of the language are written with number characters. -/
theorem numChar_of_scalarType {type : JsonType} (hf : Flush content)
    (h : scalarType content = some type) (hq : content.head? ≠ some '"') :
    ∀ c ∈ content, numChar c = true := by
  rw [scalarType, if_neg hq] at h
  split at h
  · subst_vars; exact numChar_of_all rfl
  split at h
  · subst_vars; exact numChar_of_all rfl
  split at h
  · subst_vars; exact numChar_of_all rfl
  split at h
  · rename_i hn; exact IsNumeral.numChar ⟨hf, hn⟩
  · exact absurd h (by simp)

/-- `json_copy` sees the content alone, where there is a scalar to copy. -/
theorem Scanned.copy_eq (h : Scanned t content token s) {type : JsonType}
    (hc : content ≠ []) (ht : scalarType content = some type) :
    jsonCopy s.left (spanSize s.left s.right) = jsonCopy content content.length := by
  cases h with
  | bare => exact absurd rfl hc
  | @found pad _ pad' _ x hb hf hlast hb' hstop hquote =>
    have hpos : 0 < content.length := List.length_pos_iff.mpr hc
    have hsize : spanSize (content ++ (pad' ++ token)) (x :: (pad' ++ token)) = content.length := by
      simp only [spanSize, List.length_append, List.length_cons]; omega
    rw [hsize]
    by_cases hq : content.head? = some '"'
    · obtain ⟨_, q, hp⟩ := hquote hq
      have hself := jsonCopy_quoted (t := []) hp hq
      rw [List.append_nil] at hself
      rw [jsonCopy_quoted hp hq, hself]
    · have hw := numChar_of_scalarType hf ht hq
      have hself := jsonCopy_word (t := []) hw
      rw [List.append_nil] at hself
      rw [jsonCopy_word hw, hself]

end Scanned

/-! ## The cursor -/

/-- A pointer into a tree of nodes, last of its chain: the frames above it, what the node says,
and its children. -/
structure Cursor where
  frames : List (Frame JsonData)
  data : JsonData
  left : JsonTree

namespace Cursor

def node (z : Cursor) : JsonTree := .node z.data z.left .nil

/-- The whole tree. -/
def tree (z : Cursor) : JsonTree := plug z.frames z.node

def parentType (z : Cursor) : Option JsonType := (parentOf z.frames).map (·.type)

/-- A member of an object that has no name yet. -/
def Nameless (z : Cursor) : Prop := z.parentType = some .object ∧ z.data.name = none

instance (z : Cursor) : Decidable z.Nameless := inferInstanceAs (Decidable (_ ∧ _))

end Cursor

/-- Where an iteration leaves the cursor, and whether the loop goes on. -/
inductive Move
  | next (z : Cursor)
  | accept (z : Cursor)
  | reject (z : Cursor)

namespace Cursor

/-- An unused node becomes the scalar written before the entity; a used one admits nothing. -/
def settle (z : Cursor) (content : Text) : Option Cursor :=
  if z.data.type = .empty then
    if content = [] then none
    else (scalarType content).map fun type =>
      { z with data :=
        { z.data with type := type, value := some (jsonCopy content content.length) } }
  else if content = [] then some z else none

theorem settle_cases {z z' : Cursor} {content : Text} (h : z.settle content = some z') :
    (z.data.type = .empty ∧ content ≠ [] ∧ ∃ type, scalarType content = some type ∧
      z' = { z with data :=
        { z.data with type := type, value := some (jsonCopy content content.length) } }) ∨
    (z.data.type ≠ .empty ∧ content = [] ∧ z' = z) := by
  rw [settle] at h
  split at h
  · rename_i he
    split at h
    · exact absurd h (by simp)
    rename_i hc
    obtain ⟨type, ht, rfl⟩ := Option.map_eq_some_iff.mp h
    exact Or.inl ⟨he, hc, type, ht, rfl⟩
  · rename_i he
    split at h
    · rename_i hc
      exact Or.inr ⟨he, hc, (Option.some.inj h).symm⟩
    · exact absurd h (by simp)

/-- Settling changes neither the place of a node nor its name, and there is always something to
settle. -/
theorem settle_frame {z z' : Cursor} {content : Text} (h : z.settle content = some z') :
    z'.frames = z.frames ∧ z'.data.name = z.data.name ∧ z'.data.type ≠ .empty ∧
      ¬ (z.data.type = .empty ∧ content = []) := by
  rcases settle_cases h with ⟨he, hc, type, ht, rfl⟩ | ⟨he, hc, rfl⟩
  · exact ⟨rfl, rfl, (JsonType.not_group_of_isScalar (scalarType_isScalar ht)).2, fun h => hc h.2⟩
  · exact ⟨rfl, rfl, he, fun h => he h.1⟩

/-- `node = node->parent`: the chain is complete and becomes the parent's children. -/
def climb (z : Cursor) : Move :=
  match up z.frames z.node with
  | none => .reject z
  | some (c, a, l) => .next ⟨c, a, l⟩

theorem climb_cases {z z' : Cursor} (h : z.climb = .next z') :
    up z.frames z.node = some (z'.frames, z'.data, z'.left) := by
  rw [climb] at h
  cases hup : up z.frames z.node with
  | none => rw [hup] at h; exact absurd h (by simp)
  | some y =>
    rw [hup] at h
    obtain rfl := Move.next.inj h
    rfl

def openGroup (z : Cursor) (content : Text) (c : Char) : Move :=
  if content ≠ [] ∨ z.Nameless then .reject z
  else .next ⟨.left { z.data with type := jsonToken c } .nil :: z.frames, {}, .nil⟩

def nameNode (z : Cursor) (content : Text) : Move :=
  if z.parentType = some .object ∧ z.data.name = none ∧ content.head? = some '"' then
    .next { z with data := { z.data with name := some (jsonCopy content content.length) } }
  else .reject z

def nextSibling (z : Cursor) (content : Text) : Move :=
  if z.parentType = none ∨ z.Nameless then .reject z
  else match z.settle content with
    | none => .reject z
    | some z' => .next ⟨.right z'.data z'.left :: z'.frames, {}, .nil⟩

def closeGroup (z : Cursor) (content : Text) (c : Char) : Move :=
  if z.parentType ≠ some (jsonToken c) then .reject z
  else if z.data.type = .empty ∧ content = [] then
    if isFirst z.frames then z.climb else .reject z
  else if z.data.type = .empty ∧ z.Nameless then .reject z
  else match z.settle content with
    | none => .reject z
    | some z' => z'.climb

def endOfText (z : Cursor) (content : Text) : Move :=
  match z.settle content with
  | none => .reject z
  | some z' => if z'.parentType = none then .accept z' else .reject z'

/-- One iteration of `json_build`. -/
def step (z : Cursor) (content : Text) (c : Char) : Move :=
  if c = '{' ∨ c = '[' then z.openGroup content c
  else if c = ':' then z.nameNode content
  else if c = ',' then z.nextSibling content
  else if c = ']' ∨ c = '}' then z.closeGroup content c
  else z.endOfText content

/-- **What an iteration that goes on has done**, guards included. Everything proved of runs of the
builder is proved by cases on this. -/
inductive Next (z : Cursor) : Text → Char → Cursor → Prop
  | opening (k : Kind) : ¬ z.Nameless →
      Next z [] k.opening ⟨.left { z.data with type := k.type } .nil :: z.frames, {}, .nil⟩
  | colon {content : Text} : z.parentType = some .object → z.data.name = none →
      content.head? = some '"' →
      Next z content ':'
        { z with data := { z.data with name := some (jsonCopy content content.length) } }
  | comma {content : Text} {y : Cursor} : z.parentType ≠ none → ¬ z.Nameless →
      z.settle content = some y →
      Next z content ',' ⟨.right y.data y.left :: y.frames, {}, .nil⟩
  /-- an empty group: nothing stands between its brackets -/
  | closeEmpty (k : Kind) {z' : Cursor} : z.parentType = some k.type → z.data.type = .empty →
      isFirst z.frames = true → up z.frames z.node = some (z'.frames, z'.data, z'.left) →
      Next z [] k.closing z'
  | closing (k : Kind) {content : Text} {y z' : Cursor} : z.parentType = some k.type →
      ¬ (z.data.type = .empty ∧ z.Nameless) → z.settle content = some y →
      up y.frames y.node = some (z'.frames, z'.data, z'.left) → Next z content k.closing z'

theorem next_of_openGroup {z z' : Cursor} {content : Text} {k : Kind}
    (h : z.openGroup content k.opening = .next z') : z.Next content k.opening z' := by
  rw [openGroup, k.jsonToken_opening] at h
  split at h
  · exact absurd h (by simp)
  rename_i hn
  rw [not_or, not_not] at hn
  obtain ⟨rfl, hname⟩ := hn
  obtain rfl := Move.next.inj h
  exact .opening k hname

theorem next_of_closeGroup {z z' : Cursor} {content : Text} {k : Kind}
    (h : z.closeGroup content k.closing = .next z') : z.Next content k.closing z' := by
  rw [closeGroup, k.jsonToken_closing] at h
  split at h
  · exact absurd h (by simp)
  rename_i hp
  rw [not_not] at hp
  split at h
  · rename_i he
    obtain ⟨he, rfl⟩ := he
    split at h
    · exact .closeEmpty k hp he ‹_› (climb_cases h)
    · exact absurd h (by simp)
  split at h
  · exact absurd h (by simp)
  cases hs : z.settle content with
  | none => rw [hs] at h; exact absurd h (by simp)
  | some y => rw [hs] at h; exact .closing k hp ‹_› hs (climb_cases h)

theorem step_next {z z' : Cursor} {content : Text} {c : Char} (h : z.step content c = .next z') :
    z.Next content c z' := by
  rw [step] at h
  split at h
  · rename_i hc
    rcases hc with rfl | rfl
    · exact next_of_openGroup (k := .object) h
    · exact next_of_openGroup (k := .array) h
  split at h
  · rename_i hc
    subst hc
    rw [nameNode] at h
    split at h
    · rename_i hn
      obtain rfl := Move.next.inj h
      exact .colon hn.1 hn.2.1 hn.2.2
    · exact absurd h (by simp)
  split at h
  · rename_i hc
    subst hc
    rw [nextSibling] at h
    split at h
    · exact absurd h (by simp)
    rename_i hn
    rw [not_or] at hn
    cases hs : z.settle content with
    | none => rw [hs] at h; exact absurd h (by simp)
    | some y =>
      rw [hs] at h
      obtain rfl := Move.next.inj h
      exact .comma hn.1 hn.2 hs
  split at h
  · rename_i hc
    rcases hc with rfl | rfl
    · exact next_of_closeGroup (k := .array) h
    · exact next_of_closeGroup (k := .object) h
  · rw [endOfText] at h
    cases hs : z.settle content with
    | none => rw [hs] at h; exact absurd h (by simp)
    | some y => rw [hs] at h; simp only at h; split at h <;> exact absurd h (by simp)

theorem step_of_next {z z' : Cursor} {content : Text} {c : Char} (h : z.Next content c z') :
    z.step content c = .next z' := by
  cases h with
  | opening k hn =>
    rw [show z.step [] k.opening = z.openGroup [] k.opening by cases k <;> rfl, openGroup,
      k.jsonToken_opening, if_neg (by simpa using hn)]
  | colon hp hname hhead =>
    simp only [step, Char.reduceEq, or_self, if_false, if_true]
    rw [nameNode, if_pos ⟨hp, hname, hhead⟩]
  | comma hp hn hs =>
    simp only [step, Char.reduceEq, or_self, if_false, if_true]
    rw [nextSibling, if_neg (not_or.mpr ⟨hp, hn⟩), hs]
  | closeEmpty k hp he hfirst hup =>
    rw [show z.step [] k.closing = z.closeGroup [] k.closing by cases k <;> rfl, closeGroup,
      k.jsonToken_closing, if_neg (not_not_intro hp), if_pos ⟨he, rfl⟩, if_pos hfirst, climb, hup]
  | closing k hp hn hs hup =>
    rw [show z.step content k.closing = z.closeGroup content k.closing by cases k <;> rfl,
      closeGroup, k.jsonToken_closing, if_neg (not_not_intro hp), if_neg (settle_frame hs).2.2.2,
      if_neg hn, hs]
    simp only [climb, hup]

theorem climb_ne_accept (z z' : Cursor) : z.climb ≠ .accept z' := by
  rw [climb]
  cases up z.frames z.node <;> simp

/-- Only the end of the text accepts, and only a settled root. -/
theorem step_accept_cases {z z' : Cursor} {content : Text} {c : Char}
    (h : z.step content c = .accept z') :
    jsonIsToken c = false ∧ z.settle content = some z' ∧ z'.parentType = none := by
  rw [step] at h
  split at h
  · rw [openGroup] at h
    split at h <;> exact absurd h (by simp)
  rename_i hopen
  split at h
  · rw [nameNode] at h
    split at h <;> exact absurd h (by simp)
  rename_i hcolon
  split at h
  · rw [nextSibling] at h
    split at h
    · exact absurd h (by simp)
    cases hs : z.settle content with
    | none => rw [hs] at h; exact absurd h (by simp)
    | some y => rw [hs] at h; exact absurd h (by simp)
  rename_i hcomma
  split at h
  · rw [closeGroup] at h
    split at h
    · exact absurd h (by simp)
    split at h
    · split at h
      · exact absurd h (climb_ne_accept z z')
      · exact absurd h (by simp)
    split at h
    · exact absurd h (by simp)
    cases hs : z.settle content with
    | none => rw [hs] at h; exact absurd h (by simp)
    | some y => rw [hs] at h; exact absurd h (climb_ne_accept y z')
  rename_i hclose
  rw [endOfText] at h
  cases hs : z.settle content with
  | none => rw [hs] at h; exact absurd h (by simp)
  | some y =>
    rw [hs] at h
    simp only at h
    split at h
    · rename_i hp
      obtain rfl := Move.accept.inj h
      refine ⟨?_, rfl, hp⟩
      simp only [not_or] at hopen hclose
      simp [jsonIsToken, hopen, hcolon, hcomma, hclose]
    · exact absurd h (by simp)

end Cursor

/-! ## The heap holds the cursor -/

def dataOf (x : Ptr × JsonCell) : JsonData := x.2.toJsonData

/-- `h` holds the cursor's tree, rooted at pointer `0`, with the current node at `p`. -/
structure Holds (h : Heap JsonCell) (p : Ptr) (z : Cursor) (c : List (Frame (Ptr × JsonCell)))
    (a : JsonCell) (l : BinaryTree (Ptr × JsonCell)) : Prop where
  focused : Focused h c (.node (p, a) l .nil)
  root : rootPtr (plug c (.node (p, a) l .nil)) = some 0
  spine : Spine c
  frames : c.map (Frame.map dataOf) = z.frames
  data : a.toJsonData = z.data
  left : l.map dataOf = z.left

def Represents (h : Heap JsonCell) (p : Ptr) (z : Cursor) : Prop := ∃ c a l, Holds h p z c a l

/-- An iteration on the heap is that iteration on the cursor, and goes on at `rest`. -/
def Refines (rest : Text) : Build → Move → Prop
  | .running b, .next z => Represents b.heap b.node z ∧ b.left = rest
  | .accepted b, .accept z => Represents b.heap b.node z
  | .rejected b, .reject z => Represents b.heap b.node z
  | _, _ => False

section Refinement

variable {b : Builder} {z : Cursor} {c : List (Frame (Ptr × JsonCell))} {a : JsonCell}
  {l : BinaryTree (Ptr × JsonCell)}

/-- What `node->parent` is, read from the frames. -/
theorem Holds.parent_cell (hr : Holds b.heap b.node z c a l) :
    a.parent.bind b.heap.read = (parentOf c).map Prod.snd := by
  have hp : a.parent = (parentOf c).map Prod.fst := hr.focused.parent_focus
  rw [hp]
  cases hpo : parentOf c with
  | none => rfl
  | some x => simp [(hr.focused.frames.parent_cell hpo).1]

theorem Holds.parentType_eq (hr : Holds b.heap b.node z c a l) :
    z.parentType = (a.parent.bind b.heap.read).map (·.type) := by
  rw [hr.parent_cell, Cursor.parentType, ← hr.frames, parentOf_map, Option.map_map, Option.map_map]
  rfl

theorem Holds.parentOf_ne_none (hr : Holds b.heap b.node z c a l) (hp : z.parentType ≠ none) :
    parentOf c ≠ none := by
  intro h
  rw [Cursor.parentType, ← hr.frames, parentOf_map, h] at hp
  exact hp rfl

theorem Holds.parentIs_iff (hr : Holds b.heap b.node z c a l) (type : JsonType) :
    parentIs (a.parent.bind b.heap.read) type ↔ z.parentType = some type := by
  rw [hr.parentType_eq, parentIs]

theorem Holds.name_eq (hr : Holds b.heap b.node z c a l) : a.name = z.data.name := by
  rw [← hr.data]

theorem Holds.type_eq (hr : Holds b.heap b.node z c a l) : a.type = z.data.type := by
  rw [← hr.data]

theorem Holds.parent_none_iff (hr : Holds b.heap b.node z c a l) :
    a.parent.bind b.heap.read = none ↔ z.parentType = none := by
  rw [hr.parentType_eq, Option.map_eq_none_iff]

/-- `node->parent->left == node` tells the first child from the others. -/
theorem Holds.first_iff (hr : Holds b.heap b.node z c a l) (hp : z.parentType ≠ none) :
    (a.parent.bind b.heap.read).bind (·.left) = some b.node ↔ isFirst z.frames = true := by
  rw [hr.parent_cell, ← hr.frames, isFirst_map]
  cases hpo : parentOf c with
  | none => exact absurd (hr.parent_none_iff.mp (by rw [hr.parent_cell, hpo]; rfl)) hp
  | some x =>
    obtain ⟨_, hfirst, hnot⟩ := hr.focused.frames.parent_cell hpo
    simp only [Option.map_some, Option.bind_some]
    cases hf : isFirst c with
    | true =>
      have hl : x.2.left = some b.node := hfirst hf
      simpa using hl
    | false =>
      obtain ⟨s, hs, hls⟩ := hnot hf
      have hne : s ≠ b.node := fun he => hr.focused.notMem_frames (by simp) (he ▸ hs)
      have hls' : x.2.left = some s := hls
      simpa [hls'] using hne

/-- A store that changes no link leaves the cursor in place. -/
theorem Holds.store (hr : Holds b.heap b.node z c a l) (d : JsonData) :
    Holds (b.heap.write b.node { a with toJsonData := d }) b.node { z with data := d } c
      { a with toJsonData := d } l where
  focused := hr.focused.rewrite rfl rfl rfl
  root := by
    have h := hr.root
    rwa [show rootPtr (plug c (.node (b.node, { a with toJsonData := d }) l .nil))
      = rootPtr (plug c (.node (b.node, a) l .nil)) from rootPtr_plug c rfl]
  spine := hr.spine
  frames := hr.frames
  data := rfl
  left := hr.left

theorem Holds.represents (hr : Holds b.heap b.node z c a l) : Represents b.heap b.node z :=
  ⟨c, a, l, hr⟩

theorem Holds.nameless_iff (hr : Holds b.heap b.node z c a l) :
    (parentIs (a.parent.bind b.heap.read) .object ∧ a.name = none) ↔ z.Nameless := by
  rw [hr.parentIs_iff, hr.name_eq, Cursor.Nameless]

/-! ## The five cases -/

variable {t content token : Text} {s : Scan}

theorem openGroup_refines (hr : Holds b.heap b.node z c a l) (hs : Scanned t content token s) :
    Refines s.token.tail (openGroup b a (a.parent.bind b.heap.read) s)
      (z.openGroup content (deref s.token)) := by
  by_cases hc : content = []
  · by_cases hn : z.Nameless
    · rw [openGroup, if_neg (by simpa using hs.bare_iff.mpr hc), if_pos (hr.nameless_iff.mpr hn),
        Cursor.openGroup, if_pos (Or.inr hn)]
      exact hr.represents
    · rw [openGroup, if_neg (by simpa using hs.bare_iff.mpr hc),
        if_neg (mt hr.nameless_iff.mp hn), Cursor.openGroup, if_neg (by simp [hc, hn])]
      have hgrow := hr.focused.growLeft (b := { parent := some b.node })
        (d := { a with type := jsonToken (deref s.token), left := some b.heap.next })
        rfl rfl rfl rfl rfl rfl
      refine ⟨⟨.left (b.node, _) .nil :: c, _, .nil, ⟨hgrow.stored, hgrow.nodup⟩,
        ?_, ⟨rfl, hr.spine⟩, ?_, rfl, rfl⟩, rfl⟩
      · refine (rootPtr_plug c ?_).trans hr.root
        rfl
      · simp only [List.map_cons, hr.frames, Frame.map]
        simp [dataOf, ← hr.data, BinaryTree.map]
  · rw [openGroup, if_pos (mt hs.bare_iff.mp hc), Cursor.openGroup, if_pos (Or.inl hc)]
    exact hr.represents

/-- `json_set_name` on a scan: it is the content that must start with a quote. -/
theorem Scanned.setName_eq (hs : Scanned t content token s) :
    jsonSetName a s.left s.right =
      if content.head? = some '"' then
        some { a with name := some (jsonCopy content content.length) }
      else none := by
  by_cases hc : content = []
  · cases hs with
    | @bare pad _ hb hstop =>
      have hne : ¬ deref token = '"' := by
        cases token with
        | nil => decide
        | cons d ds => exact (jsonIsToken_plain (hstop d (by simp))).2.1
      simp [jsonSetName, hne]
    | found _ hf => exact absurd hc hf.1
  · by_cases hq : content.head? = some '"'
    · rw [if_pos hq, jsonSetName, if_neg (by simpa [not_or] using (hs.quoted_iff hc).mpr hq),
        hs.copy_eq hc (by rw [scalarType, if_pos hq])]
    · have hn : deref s.left ≠ '"' ∨ deref s.right ≠ '"' := by
        simpa only [not_and_or] using mt (hs.quoted_iff hc).mp hq
      rw [if_neg hq, jsonSetName, if_pos hn]

theorem Scanned.setValue_eq (hs : Scanned t content token s) (hc : content ≠ []) :
    jsonSetValue a s.left s.right = (scalarType content).map fun type =>
      { a with type := type, value := some (jsonCopy content content.length) } := by
  rw [jsonSetValue, hs.valueType_eq hc]
  cases ht : scalarType content with
  | none => rfl
  | some type => rw [hs.copy_eq hc ht]

theorem nameNode_refines (hr : Holds b.heap b.node z c a l) (hs : Scanned t content token s) :
    Refines s.token.tail (nameNode b a (a.parent.bind b.heap.read) s) (z.nameNode content) := by
  simp only [nameNode, hr.parentIs_iff, hr.name_eq, hs.setName_eq, Cursor.nameNode]
  by_cases hp : z.parentType = some .object
  · by_cases hn : z.data.name = none
    · rw [if_neg (by simp [hp, hn])]
      by_cases hq : content.head? = some '"'
      · rw [if_pos hq, if_pos ⟨hp, hn, hq⟩, ← hr.data]
        exact ⟨(hr.store _).represents, rfl⟩
      · rw [if_neg hq, if_neg (fun h => hq h.2.2)]
        exact hr.represents
    · rw [if_pos (Or.inr hn), if_neg (fun h => hn h.2.1)]
      exact hr.represents
  · rw [if_pos (Or.inl hp), if_neg (fun h => hp h.1)]
    exact hr.represents

theorem pushSibling_refines (hr : Holds b.heap b.node z c a l) (hp : z.parentType ≠ none)
    (d : JsonData) :
    Refines s.token.tail (pushSibling b s { a with toJsonData := d })
      (.next ⟨.right d z.left :: z.frames, {}, .nil⟩) := by
  have hgrow := hr.focused.growRight (b := { parent := a.parent })
    (d := { a with toJsonData := d, right := some b.heap.next }) rfl rfl rfl rfl rfl rfl
  refine ⟨⟨.right (b.node, _) l :: c, _, .nil, ⟨hgrow.stored, hgrow.nodup⟩,
    ?_, ⟨hr.parentOf_ne_none hp, hr.spine⟩, ?_, rfl, rfl⟩, rfl⟩
  · refine (rootPtr_plug c ?_).trans hr.root
    rfl
  · simp only [List.map_cons, hr.frames, Frame.map, hr.left]
    rfl

theorem nextSibling_refines (hr : Holds b.heap b.node z c a l) (hs : Scanned t content token s) :
    Refines s.token.tail (nextSibling b a (a.parent.bind b.heap.read) s)
      (z.nextSibling content) := by
  simp only [nextSibling, hr.parent_none_iff, hr.nameless_iff, hs.bare_iff, hr.type_eq,
    Cursor.nextSibling]
  by_cases hp : z.parentType = none ∨ z.Nameless
  · rw [if_pos hp, if_pos hp]
    exact hr.represents
  rw [if_neg hp, if_neg hp, Cursor.settle]
  by_cases he : z.data.type = .empty
  · rw [if_pos he, if_pos he]
    by_cases hc : content = []
    · rw [if_pos hc, if_pos hc]
      exact hr.represents
    rw [if_neg hc, if_neg hc, hs.setValue_eq hc]
    cases scalarType content with
    | none => exact hr.represents
    | some type =>
      rw [← hr.data]
      exact pushSibling_refines hr (fun h => hp (Or.inl h))
        { a.toJsonData with type, value := some (jsonCopy content content.length) }
  · rw [if_neg he, if_neg he]
    by_cases hc : content = []
    · rw [if_neg (not_not_intro hc), if_pos hc]
      simp only [← hr.data]
      exact pushSibling_refines hr (fun h => hp (Or.inl h)) a.toJsonData
    · rw [if_pos hc, if_neg hc]
      exact hr.represents

theorem climb_refines {h : Heap JsonCell} (hr : Holds h b.node z c a l) :
    Refines s.token.tail (climb b s h a.parent) z.climb := by
  have hp : a.parent = (parentOf c).map Prod.fst := hr.focused.parent_focus
  have hnode : (BinaryTree.node (b.node, a) l .nil).map dataOf = z.node := by
    simp [BinaryTree.map, Cursor.node, hr.left, dataOf, hr.data]
  have hmap := up_map dataOf c (.node (b.node, a) l .nil)
  rw [hr.frames, hnode] at hmap
  rw [hp, Cursor.climb, hmap]
  cases hup : up c (.node (b.node, a) l .nil) with
  | none =>
    rw [(up_eq_none_iff c _).mp hup]
    exact hr.represents
  | some y =>
    obtain ⟨c', x, l'⟩ := y
    obtain ⟨hpo, hsp, hplug⟩ := hr.spine.up_eq hup
    rw [hpo]
    refine ⟨⟨c', x.2, l', ⟨?_, ?_⟩, ?_, hsp, rfl, rfl, rfl⟩, rfl⟩
    · exact hplug ▸ hr.focused.stored
    · exact hplug ▸ hr.focused.nodup
    · exact hplug ▸ hr.root

theorem closeGroup_refines (hr : Holds b.heap b.node z c a l) (hs : Scanned t content token s) :
    Refines s.token.tail (closeGroup b a (a.parent.bind b.heap.read) s)
      (z.closeGroup content (deref s.token)) := by
  simp only [closeGroup, hr.parentIs_iff, hs.bare_iff, hr.type_eq, hr.name_eq, Cursor.closeGroup,
    Cursor.Nameless]
  by_cases hp : z.parentType = some (jsonToken (deref s.token))
  · have hfirst := hr.first_iff (by simp [hp])
    simp only [hp, ne_eq, not_true_eq_false, if_false, hfirst, Cursor.settle]
    by_cases he : z.data.type = .empty <;> by_cases hc : content = []
    · simp only [he, hc, and_self, if_true]
      by_cases hf : isFirst z.frames = true
      · rw [if_neg (not_not_intro hf), if_pos hf]
        exact climb_refines hr
      · rw [if_pos hf, if_neg hf]
        exact hr.represents
    · simp only [he, hc, and_false, if_false, if_true, true_and, hs.setValue_eq hc]
      by_cases hn : some (jsonToken (deref s.token)) = some .object ∧ z.data.name = none
      · rw [if_pos hn, if_pos hn]
        exact hr.represents
      rw [if_neg hn, if_neg hn]
      cases scalarType content with
      | none => exact hr.represents
      | some type =>
        rw [← hr.data]
        exact climb_refines (hr.store
          { a.toJsonData with type, value := some (jsonCopy content content.length) })
    · simp only [he, hc, false_and, if_false, if_true, not_true_eq_false]
      exact climb_refines hr
    · simp only [he, hc, false_and, if_false, not_false_eq_true, if_true]
      exact hr.represents
  · rw [if_pos hp, if_pos hp]
    exact hr.represents

/-- The checks at the end of the text, on a node that is used. -/
theorem finish_refines {h : Heap JsonCell} (hr : Holds h b.node z c a l)
    (he : z.data.type ≠ .empty) :
    Refines s.token.tail (finish b h a)
      (if z.parentType = none then .accept z else .reject z) := by
  have hp : a.parent = (parentOf c).map Prod.fst := hr.focused.parent_focus
  have hnone : a.parent = none ↔ z.parentType = none := by
    rw [hp, Cursor.parentType, ← hr.frames, parentOf_map]
    simp
  have hte : a.type ≠ .empty := by rw [show a.type = z.data.type by rw [← hr.data]]; exact he
  rw [finish, if_neg hte]
  by_cases h0 : z.parentType = none
  · rw [if_neg (not_not_intro (hnone.mpr h0)), if_pos h0]
    exact hr.represents
  · rw [if_pos (mt hnone.mp h0), if_neg h0]
    exact hr.represents

theorem endOfText_refines (hr : Holds b.heap b.node z c a l) (hs : Scanned t content token s) :
    Refines s.token.tail (endOfText b a s) (z.endOfText content) := by
  simp only [endOfText, hs.bare_iff, hr.type_eq, Cursor.endOfText, Cursor.settle]
  by_cases he : z.data.type = .empty <;> by_cases hc : content = []
  · simp only [he, hc, not_true_eq_false, if_false, if_true, finish, hr.type_eq]
    exact hr.represents
  · simp only [he, hc, not_false_eq_true, ne_eq, not_true_eq_false, if_true, if_false,
      hs.setValue_eq hc]
    cases ht : scalarType content with
    | none => exact hr.represents
    | some type =>
      simp only [Option.map_some]
      rw [← hr.data]
      exact finish_refines (hr.store
        { a.toJsonData with type, value := some (jsonCopy content content.length) })
        (JsonType.not_group_of_isScalar (scalarType_isScalar ht)).2
  · simp only [he, hc, not_true_eq_false, if_false, if_true]
    exact finish_refines hr he
  · simp only [he, hc, not_false_eq_true, ne_eq, if_true, if_false]
    exact hr.represents

/-- **One iteration on the heap is one iteration on the cursor.** -/
theorem step_refines (hz : Represents b.heap b.node z) (hscan : jsonScan b.left = some s)
    (hs : Scanned b.left content token s) :
    Refines s.token.tail (jsonBuildStep b) (z.step content (deref s.token)) := by
  obtain ⟨c, a, l, hr⟩ := hz
  have hread : b.heap.read b.node = some a := hr.focused.read_focus
  simp only [jsonBuildStep, hread, hscan, Cursor.step]
  split
  · exact openGroup_refines hr hs
  split
  · exact nameNode_refines hr hs
  split
  · exact nextSibling_refines hr hs
  split
  · exact closeGroup_refines hr hs
  · exact endOfText_refines hr hs

theorem step_of_scan_none (hscan : jsonScan b.left = none) : jsonBuildStep b = .rejected b := by
  unfold jsonBuildStep
  rw [hscan]
  cases b.heap.read b.node <;> rfl

/-- The heap is read back as the cursor's tree. -/
theorem Represents.readBack_eq {h : Heap JsonCell} {p : Ptr} (hz : Represents h p z) :
    readBack h (some 0) = z.tree := by
  obtain ⟨c, a, l, hr⟩ := hz
  rw [readBack, ← hr.root, hr.focused.stored.load_next hr.focused.nodup, ← BinaryTree.comp_map]
  change (plug c _).map dataOf = _
  rw [plug_map, hr.frames, Cursor.tree]
  simp [BinaryTree.map, hr.left, dataOf, hr.data, Cursor.node]

end Refinement

end Json
end TsnController

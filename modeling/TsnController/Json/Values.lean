import TsnController.Json.Cells
import TsnController.Json.Pointer

/-!
# `json.c`: the questions about a node

`Access` has the questions about one node that the client asks, as functions of a tree. The source
has more of them, and they follow two pointers: the node, which each of them compares with `NULL`
first, and `node->value`, which most of them do not. `json_boolean`, `json_is_integer`,
`json_is_real` and `json_streq` look at the type and take it from there that there is a value.

That the type can be relied on is a fact about the builder (`valued_after`), and with it the answers
are those of the tree, for any node that a caller can reach (`Call`).

Doubles are left open: what `strtod` makes of a text, and which of them are equal to `0.0`.
-/

set_option autoImplicit false

namespace TsnController
namespace Json

open CLib Lib

/-! ## Over pointers -/

namespace Pointer

/-- `strchr(value, c) != NULL`, which there is no answer to if `value` is `NULL`. -/
def strchr (value : Option Text) (c : Char) : Option Bool := value.map fun v => v.contains c

section Ask

variable (heap : Heap JsonCell)

/-- What is asked of a node, and the answer for `NULL`. Outside, `none` is a pointer that leads
nowhere. -/
def ask {γ : Type} (null : γ) (answer : JsonData → Option γ) : Option Ptr → Option γ
  | none => some null
  | some node => (heap.read node).bind fun cell => answer cell.toJsonData

def jsonType (node : Option Ptr) : Option JsonType := ask heap .none (fun d => some d.type) node

def jsonName (node : Option Ptr) : Option (Option Text) :=
  ask heap none (fun d => some d.name) node

def jsonString (node : Option Ptr) : Option (Option Text) :=
  ask heap none (fun d => some d.value) node

/-- A conversion of the value, which is compared with `NULL` here. -/
def convert {γ : Type} (zero : γ) (conversion : Text → γ) (node : Option Ptr) : Option γ :=
  ask heap zero (fun d => some (d.value.elim zero conversion)) node

def jsonNumber {D : Type} (strtod : Text → D) (zero : D) (node : Option Ptr) : Option D :=
  convert heap zero strtod node

def jsonInteger (node : Option Ptr) : Option Int := convert heap 0 strtol node

def jsonReal (node : Option Ptr) : Option Nat := convert heap 0 strtoul node

/-- `*node->value == 't'` for a literal. The text ends with a byte that is no `t`. -/
def jsonBoolean {D : Type} (strtod : Text → D) (zero : D) (nonzero : D → Bool)
    (node : Option Ptr) : Option Bool :=
  ask heap false (fun d =>
    if d.type = .boolean then d.value.map fun value => value.head? == some 't'
    else if d.type = .number then (jsonNumber heap strtod zero node).map nonzero
    else some false) node

/-- The questions for one type. -/
def isOf (type : JsonType) (node : Option Ptr) : Option Bool :=
  ask heap false (fun d => some (d.type == type)) node

def jsonIsEmpty (node : Option Ptr) : Option Bool := isOf heap .empty node

def jsonIsObject (node : Option Ptr) : Option Bool := isOf heap .object node

def jsonIsArray (node : Option Ptr) : Option Bool := isOf heap .array node

def jsonIsString (node : Option Ptr) : Option Bool := isOf heap .string node

def jsonIsNumber (node : Option Ptr) : Option Bool := isOf heap .number node

def jsonIsInteger (node : Option Ptr) : Option Bool :=
  ask heap false (fun d =>
    if d.type ≠ .number then some false
    else (strchr d.value '.').bind fun point => if point then some false else some true) node

def jsonIsReal (node : Option Ptr) : Option Bool :=
  ask heap false (fun d =>
    if d.type ≠ .number then some false
    else (strchr d.value '.').bind fun point =>
      if point then some false
      else (strchr d.value '-').bind fun minus => if minus then some false else some true) node

def jsonIsBoolean (node : Option Ptr) : Option Bool := isOf heap .boolean node

def jsonIsNull (node : Option Ptr) : Option Bool := isOf heap .null node

def jsonStreq (node : Option Ptr) (str : Text) : Option Bool :=
  ask heap false (fun d =>
    if d.type ≠ .string then some false
    else d.value.map fun value => decide (value = str)) node

/-- The seven questions for a type. -/
def kinds (node : Option Ptr) : List (Option Bool) :=
  [jsonIsEmpty heap node, jsonIsObject heap node, jsonIsArray heap node, jsonIsString heap node,
    jsonIsNumber heap node, jsonIsBoolean heap node, jsonIsNull heap node]

end Ask

end Pointer

/-! ## What is asked of a tree -/

/-- The same of what a pointer reaches. -/
def askTree {γ : Type} (null : γ) (answer : JsonData → Option γ) : JsonTree → Option γ
  | .nil => some null
  | .node a _ _ => answer a

/-- What a caller may rely on about a pointer: it is `NULL` or leads to a node, whatever is asked of
that is asked of the tree, and the type says what there is. -/
structure Reaches (heap : Heap JsonCell) (o : Option Ptr) (t : JsonTree) : Prop where
  null : o = none ↔ t = .nil
  ask : ∀ {γ : Type} (null : γ) (answer : JsonData → Option γ),
    Pointer.ask heap null answer o = askTree null answer t
  valued : ∀ {a : JsonData} {l r : JsonTree}, t = .node a l r → Valued a

theorem Points.reaches {heap : Heap JsonCell} {w : BinaryTree (Ptr × JsonCell)} {o : Option Ptr}
    {x : Option (Focus JsonData)} (hs : Stored heap none w) (hcells : Cells Valued heap)
    (h : Points w o x) : Reaches heap o (nodeOf x) := by
  obtain ⟨y, hy, rfl, rfl⟩ := h
  cases y with
  | none => exact ⟨by simp [nodeOf], fun _ _ => rfl, fun h => nomatch h⟩
  | some f =>
    have hread := (Focus.links ((hy f rfl).symm ▸ hs)).1
    have hnode : nodeOf (some (f.map dataOf)) =
        .node f.data.2.toJsonData (f.left.map dataOf) (f.right.map dataOf) := rfl
    rw [Option.map_some, Option.map_some, hnode]
    refine ⟨by simp, fun null answer => ?_, fun h => ?_⟩
    · rw [Pointer.ask, hread, Option.bind_some, askTree]
    · exact (BinaryTree.node.inj h).1 ▸ hcells _ _ hread

namespace Reaches

variable {heap : Heap JsonCell} {o : Option Ptr} {t : JsonTree}

theorem jsonType (h : Reaches heap o t) : Pointer.jsonType heap o = some (Json.jsonType t) := by
  rw [Pointer.jsonType, h.ask]
  cases t <;> rfl

theorem jsonName (h : Reaches heap o t) : Pointer.jsonName heap o = some (Json.jsonName t) := by
  rw [Pointer.jsonName, h.ask]
  cases t <;> rfl

theorem jsonString (h : Reaches heap o t) :
    Pointer.jsonString heap o = some (Json.jsonString t) := by
  rw [Pointer.jsonString, h.ask]
  cases t <;> rfl

theorem convert (h : Reaches heap o t) {γ : Type} (zero : γ) (conversion : Text → γ) :
    Pointer.convert heap zero conversion o = some ((Json.jsonString t).elim zero conversion) := by
  rw [Pointer.convert, h.ask]
  cases t <;> rfl

theorem jsonInteger (h : Reaches heap o t) :
    Pointer.jsonInteger heap o = some (Json.jsonInteger t) := by
  rw [Pointer.jsonInteger, h.convert]
  cases t with
  | nil => rfl
  | node a l r =>
    rw [Json.jsonString, Json.jsonInteger]
    cases a.value <;> rfl

theorem jsonReal (h : Reaches heap o t) : Pointer.jsonReal heap o = some (Json.jsonReal t) := by
  rw [Pointer.jsonReal, h.convert]
  cases t with
  | nil => rfl
  | node a l r =>
    rw [Json.jsonString, Json.jsonReal]
    cases a.value <;> rfl

/-- A node is of one of the seven types, and `NULL` of none. -/
theorem kinds (h : Reaches heap o t) : ∃ answers : List Bool,
    Pointer.kinds heap o = answers.map some ∧ answers.count true = if o = none then 0 else 1 := by
  have hkinds : Pointer.kinds heap o = [.empty, .object, .array, .string, .number, .boolean,
      .null].map fun type => askTree false (fun d => some (d.type == type)) t := by
    simp only [List.map_cons, List.map_nil, ← h.ask]
    rfl
  rw [hkinds]
  cases t with
  | nil => exact ⟨List.replicate 7 false, rfl, by rw [if_pos (h.null.mpr rfl)]; rfl⟩
  | node a l r =>
    rw [if_neg (mt h.null.mp (by simp))]
    refine ⟨[.empty, .object, .array, .string, .number, .boolean, .null].map (a.type == ·), ?_, ?_⟩
    · rw [List.map_map]
      rfl
    · have htype := (h.valued rfl).type
      cases hkind : a.type with
      | none => exact absurd hkind htype
      | _ => rfl

/-- A number has a value to look for a character in. -/
theorem strchr_eq {a : JsonData} (ha : Valued a) (hnumber : a.type = .number) (c : Char) :
    Pointer.strchr a.value c = some (decide (c ∈ a.value.getD [])) := by
  cases hvalue : a.value with
  | none => exact absurd hvalue (ha.scalar (.inr hnumber))
  | some value => simp [Pointer.strchr]

theorem jsonIsInteger (h : Reaches heap o t) :
    Pointer.jsonIsInteger heap o = some (Json.jsonIsInteger t) := by
  rw [Pointer.jsonIsInteger, h.ask]
  cases t with
  | nil => rfl
  | node a l r =>
    rw [askTree, Json.jsonIsInteger]
    by_cases hnumber : a.type = .number
    · rw [if_neg (not_not.mpr hnumber), if_neg (not_not.mpr hnumber),
        strchr_eq (h.valued rfl) hnumber, Option.bind_some]
      by_cases hpoint : '.' ∈ a.value.getD [] <;> simp [hpoint]
    · rw [if_pos hnumber, if_pos hnumber]

theorem jsonIsReal (h : Reaches heap o t) :
    Pointer.jsonIsReal heap o = some (Json.jsonIsReal t) := by
  rw [Pointer.jsonIsReal, h.ask]
  cases t with
  | nil => rfl
  | node a l r =>
    rw [askTree, Json.jsonIsReal]
    by_cases hnumber : a.type = .number
    · have hchr := strchr_eq (h.valued rfl) hnumber
      rw [if_neg (not_not.mpr hnumber), if_neg (not_not.mpr hnumber), hchr, hchr,
        Option.bind_some, Option.bind_some]
      by_cases hpoint : '.' ∈ a.value.getD [] <;> by_cases hminus : '-' ∈ a.value.getD [] <;>
        simp [hpoint, hminus]
    · rw [if_pos hnumber, if_pos hnumber]

theorem jsonStreq (h : Reaches heap o t) (str : Text) : Pointer.jsonStreq heap o str =
    some (decide (Json.jsonType t = .string ∧ Json.jsonString t = some str)) := by
  rw [Pointer.jsonStreq, h.ask]
  cases t with
  | nil => rfl
  | node a l r =>
    rw [askTree, Json.jsonType, Json.jsonString]
    by_cases hstring : a.type = .string
    · rw [if_neg (not_not.mpr hstring)]
      cases hvalue : a.value with
      | none => exact absurd hvalue ((h.valued rfl).scalar (.inl hstring))
      | some value => simp [hstring]
    · rw [if_pos hstring]
      simp [hstring]

/-- A literal is told by its first character, since there are only two. -/
theorem jsonBoolean (h : Reaches heap o t) {D : Type} (strtod : Text → D) (zero : D)
    (nonzero : D → Bool) : ∃ b, Pointer.jsonBoolean heap strtod zero nonzero o = some b ∧
      (b = true ↔ Json.jsonType t = .boolean ∧ Json.jsonString t = some "true".toList ∨
        Json.jsonType t = .number ∧
          ∃ v, Json.jsonString t = some v ∧ nonzero (strtod v) = true) := by
  rw [Pointer.jsonBoolean, h.ask, Pointer.jsonNumber, h.convert]
  cases t with
  | nil => exact ⟨false, rfl, by simp [Json.jsonType]⟩
  | node a l r =>
    have ha := h.valued rfl
    rw [askTree, Json.jsonType, Json.jsonString]
    by_cases hboolean : a.type = .boolean
    · rw [if_pos hboolean]
      rcases ha.boolean hboolean with hvalue | hvalue <;> rw [hvalue, hboolean]
      · exact ⟨true, rfl, by simp⟩
      · exact ⟨false, rfl, by simp⟩
    · rw [if_neg hboolean]
      by_cases hnumber : a.type = .number
      · rw [if_pos hnumber]
        cases hvalue : a.value with
        | none => exact absurd hvalue (ha.scalar (.inr hnumber))
        | some value => exact ⟨nonzero (strtod value), rfl, by simp [hnumber]⟩
      · rw [if_neg hnumber]
        exact ⟨false, rfl, by simp [hboolean, hnumber]⟩

end Reaches

/-- **Every question about a node has an answer.** From the root, at any point of the run and in
particular when `json_parse` returns, go to any node with the calls that lead from node to node. It
is of exactly one type unless it is `NULL`, and the questions answer as on the tree. Four of them
read through the value without a comparison; it is there whenever they do. `json_streq` then
compares with the value of a string, and `json_boolean` says whether the literal is `true` or the
number not zero. -/
theorem questions_answered {D : Type} (strtod : Text → D) (zero : D) (nonzero : D → Bool)
    (text : Text) (n : Nat) (cs : List Call) :
    ∃ o node, Pointer.calls (jsonBuildAfter text n).state.heap cs (some 0) = some o ∧
      readBack (jsonBuildAfter text n).state.heap o = node ∧
      Pointer.jsonType (jsonBuildAfter text n).state.heap o = some (jsonType node) ∧
      Pointer.jsonName (jsonBuildAfter text n).state.heap o = some (jsonName node) ∧
      Pointer.jsonString (jsonBuildAfter text n).state.heap o = some (jsonString node) ∧
      Pointer.jsonInteger (jsonBuildAfter text n).state.heap o = some (jsonInteger node) ∧
      Pointer.jsonReal (jsonBuildAfter text n).state.heap o = some (jsonReal node) ∧
      (∃ answers : List Bool, Pointer.kinds (jsonBuildAfter text n).state.heap o =
        answers.map some ∧ answers.count true = if o = none then 0 else 1) ∧
      Pointer.jsonIsInteger (jsonBuildAfter text n).state.heap o = some (jsonIsInteger node) ∧
      Pointer.jsonIsReal (jsonBuildAfter text n).state.heap o = some (jsonIsReal node) ∧
      (∀ str, Pointer.jsonStreq (jsonBuildAfter text n).state.heap o str =
        some (decide (jsonType node = .string ∧ jsonString node = some str))) ∧
      ∃ b, Pointer.jsonBoolean (jsonBuildAfter text n).state.heap strtod zero nonzero o = some b ∧
        (b = true ↔ jsonType node = .boolean ∧ jsonString node = some "true".toList ∨
          jsonType node = .number ∧ ∃ v, jsonString node = some v ∧ nonzero (strtod v) = true) := by
  obtain ⟨z, hz⟩ := represents_after text n
  have hcells := valued_after text n
  generalize (jsonBuildAfter text n).state = b at hz hcells ⊢
  obtain ⟨w, hs, hn, _, _, hroot⟩ := points_root hz
  obtain ⟨o, ho, hpoints⟩ := hroot.calls hs hn cs
  have hreaches := hpoints.reaches hs hcells
  exact ⟨o, _, ho, hpoints.readBack_eq hs hn, hreaches.jsonType, hreaches.jsonName,
    hreaches.jsonString, hreaches.jsonInteger, hreaches.jsonReal, hreaches.kinds,
    hreaches.jsonIsInteger, hreaches.jsonIsReal, hreaches.jsonStreq,
    hreaches.jsonBoolean strtod zero nonzero⟩

end Json
end TsnController

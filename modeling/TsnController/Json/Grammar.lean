import Mathlib.Data.List.TakeWhile
import Mathlib.Data.Set.List
import TsnController.Json.Build

/-!
# The language the parser is for

What a configuration text is *supposed* to be, stated without reference to how `json_build`
decides it: a `Value` is a tree of scalars, arrays and objects, `tokens` spells it, and a text
writes it if it is its tokens with white space around them (`Padded`). `Value.tree` is the tree
of nodes it should come back as.

Three things are particular to this parser and are therefore part of the language rather than of
anybody's standard: adjacent strings are one string, a string may hold any character but a quote
or a backslash, and a number is whatever `strtod` reads to its end.

The constructors carry their side conditions (`StrChar.plain`, `Scalar.number`), so there is no
ill-formed `Value` to exclude later. A text ends at its first NUL, so the strings written in one
hold none either; that needs no condition of its own.
-/

set_option autoImplicit false

namespace TsnController
namespace Json

open CLib Lib

/-! ## Strings -/

/-- The eight escapes of `json_isescape`. -/
inductive Escape
  | backslash
  | slash
  | quote
  | b
  | f
  | n
  | r
  | t
  deriving DecidableEq, Repr

/-- How the escape is written after its backslash. -/
def Escape.code : Escape → Char
  | .backslash => '\\'
  | .slash => '/'
  | .quote => '"'
  | .b => 'b'
  | .f => 'f'
  | .n => 'n'
  | .r => 'r'
  | .t => 't'

/-- The character it stands for. -/
def Escape.char : Escape → Char
  | .backslash => '\\'
  | .slash => '/'
  | .quote => '"'
  | .b => '\x08'
  | .f => '\x0c'
  | .n => '\n'
  | .r => '\r'
  | .t => '\t'

inductive StrChar
  | plain (c : Char) (h : c ≠ '"' ∧ c ≠ '\\')
  | escape (e : Escape)
  deriving DecidableEq

def StrChar.text : StrChar → Text
  | .plain c _ => [c]
  | .escape e => ['\\', e.code]

def StrChar.char : StrChar → Char
  | .plain c _ => c
  | .escape e => e.char

abbrev Str := List StrChar

def Str.body (s : Str) : Text := s.flatMap StrChar.text

/-- The string with its quotes, as one token. -/
def Str.text (s : Str) : Text := '"' :: (s.body ++ ['"'])

def Str.chars (s : Str) : Text := s.map StrChar.char

/-- One or more adjacent strings. -/
structure Quoted where
  first : Str
  rest : List Str
  deriving DecidableEq

def Quoted.strs (q : Quoted) : List Str := q.first :: q.rest

def Quoted.tokens (q : Quoted) : List Text := q.strs.map Str.text

/-- The unescaped contents, concatenated. -/
def Quoted.content (q : Quoted) : Text := q.strs.flatMap Str.chars

/-! ## Values -/

inductive Scalar
  | strings (q : Quoted)
  | null
  | true
  | false
  | number (w : Text) (h : IsNumeral w)

def Scalar.tokens : Scalar → List Text
  | .strings q => q.tokens
  | .null => ["null".toList]
  | .true => ["true".toList]
  | .false => ["false".toList]
  | .number w _ => [w]

def Scalar.type : Scalar → JsonType
  | .strings _ => .string
  | .null => .null
  | .true | .false => .boolean
  | .number _ _ => .number

/-- What a scalar's node holds: the content of a string, the source text of anything else. -/
def Scalar.value : Scalar → Text
  | .strings q => q.content
  | .null => "null".toList
  | .true => "true".toList
  | .false => "false".toList
  | .number w _ => w

inductive Value
  | scalar (s : Scalar)
  | array (elems : List Value)
  | object (members : List (Quoted × Value))

/-- Induction over a value: a group's case may use every element. -/
@[elab_as_elim]
theorem Value.induct {P : Value → Prop} (scalar : ∀ s, P (.scalar s))
    (array : ∀ vs, (∀ v ∈ vs, P v) → P (.array vs))
    (object : ∀ ms : List (Quoted × Value), (∀ m ∈ ms, P m.2) → P (.object ms)) : ∀ v, P v
  | .scalar s => scalar s
  | .array vs => array vs fun v _ => Value.induct scalar array object v
  | .object ms => object ms fun m hm =>
      have : sizeOf m.2 < 1 + sizeOf ms := by
        have h₁ := List.sizeOf_lt_of_mem hm
        obtain ⟨q, v⟩ := m
        simp only [Prod.mk.sizeOf_spec] at h₁ ⊢
        omega
      Value.induct scalar array object m.2

mutual

/-- A value as its tokens: `[ v , … , v ]`, `{ name : v , … , name : v }`. -/
def Value.tokens : Value → List Text
  | .scalar s => s.tokens
  | .array vs => [['[']] ++ List.intercalate [[',']] (elemTokens vs) ++ [[']']]
  | .object ms => [['{']] ++ List.intercalate [[',']] (memberTokens ms) ++ [['}']]

def elemTokens : List Value → List (List Text)
  | [] => []
  | v :: vs => v.tokens :: elemTokens vs

def memberTokens : List (Quoted × Value) → List (List Text)
  | [] => []
  | (q, v) :: ms => (q.tokens ++ [':'] :: v.tokens) :: memberTokens ms

end

/-- All white space. -/
def Blank (pad : Text) : Prop := ∀ c ∈ pad, isspace c = true

/-- `t` is `toks` in order, with white space before, between and after them. -/
inductive Padded : List Text → Text → Prop
  | nil {pad : Text} : Blank pad → Padded [] pad
  | cons {pad tok t : Text} {toks : List Text} :
      Blank pad → Padded toks t → Padded (tok :: toks) (pad ++ tok ++ t)

/-- The text writes the value. -/
def Writes (v : Value) (t : Text) : Prop := Padded v.tokens t

/-! ## The tree a value should become -/

/-- A sibling chain. -/
def chain (nodes : List (JsonData × JsonTree)) : JsonTree :=
  nodes.foldr (fun n right => .node n.1 n.2 right) .nil

/-- The children of a group: an empty one has a single empty node. -/
def groupTree : List (JsonData × JsonTree) → JsonTree
  | [] => .node {} .nil .nil
  | nodes => chain nodes

/-- A value's node, under the name it has in its object. -/
def Value.data (name : Option Text) : Value → JsonData
  | .scalar s => ⟨s.type, name, some s.value⟩
  | .array _ => ⟨.array, name, none⟩
  | .object _ => ⟨.object, name, none⟩

mutual

/-- What hangs to the left of a value's node. -/
def Value.children : Value → JsonTree
  | .scalar _ => .nil
  | .array vs => groupTree (elemNodes vs)
  | .object ms => groupTree (memberNodes ms)

def elemNodes : List Value → List (JsonData × JsonTree)
  | [] => []
  | v :: vs => (v.data none, v.children) :: elemNodes vs

def memberNodes : List (Quoted × Value) → List (JsonData × JsonTree)
  | [] => []
  | (q, v) :: ms => (v.data (some q.content), v.children) :: memberNodes ms

end

/-- The tree of a document. -/
def Value.tree (v : Value) : JsonTree := .node (v.data none) v.children .nil

/-! ## Lists of elements are mapped -/

theorem elemTokens_eq_map (vs : List Value) : elemTokens vs = vs.map Value.tokens := by
  induction vs with
  | nil => rfl
  | cons v vs ih => simp [elemTokens, ih]

theorem memberTokens_eq_map (ms : List (Quoted × Value)) :
    memberTokens ms = ms.map fun m => m.1.tokens ++ [':'] :: m.2.tokens := by
  induction ms with
  | nil => rfl
  | cons m ms ih => simp [memberTokens, ih]

theorem elemNodes_eq_map (vs : List Value) :
    elemNodes vs = vs.map fun v => (v.data none, v.children) := by
  induction vs with
  | nil => rfl
  | cons v vs ih => simp [elemNodes, ih]

theorem memberNodes_eq_map (ms : List (Quoted × Value)) :
    memberNodes ms = ms.map fun m => (m.2.data (some m.1.content), m.2.children) := by
  induction ms with
  | nil => rfl
  | cons m ms ih => simp [memberNodes, ih]

/-! ## Groups, arrays and objects alike -/

inductive Kind
  | array
  | object
  deriving DecidableEq, Repr

def Kind.type : Kind → JsonType
  | .array => .array
  | .object => .object

def Kind.opening : Kind → Char
  | .array => '['
  | .object => '{'

def Kind.closing : Kind → Char
  | .array => ']'
  | .object => '}'

theorem Kind.jsonToken_opening (k : Kind) : jsonToken k.opening = k.type := by cases k <;> rfl

theorem Kind.jsonToken_closing (k : Kind) : jsonToken k.closing = k.type := by cases k <;> rfl

/-- An element of a group; in an object it has a name. -/
structure Entry where
  name : Option Quoted
  value : Value

def labelTokens : Option Quoted → List Text
  | none => []
  | some q => q.tokens ++ [[':']]

def Entry.tokens (e : Entry) : List Text := labelTokens e.name ++ e.value.tokens

def Entry.node (e : Entry) : JsonData × JsonTree :=
  (e.value.data (e.name.map Quoted.content), e.value.children)

theorem Value.data_name (v : Value) (name : Option Text) : (v.data name).name = name := by
  cases v <;> rfl

/-- `v` is the group of kind `k` with the elements `es`. -/
structure IsGroup (k : Kind) (es : List Entry) (v : Value) : Prop where
  tokens : v.tokens =
    [[k.opening]] ++ List.intercalate [[',']] (es.map Entry.tokens) ++ [[k.closing]]
  data : ∀ name, v.data name = ⟨k.type, name, none⟩
  children : v.children = groupTree (es.map Entry.node)

theorem IsGroup.type_ne_empty {k : Kind} {es : List Entry} {e : Entry} (hg : IsGroup k es e.value) :
    e.node.1.type ≠ .empty := by
  rw [Entry.node, hg.data]
  cases k <;> simp [Kind.type]

theorem isGroup_array (vs : List Value) :
    IsGroup .array (vs.map fun v => ⟨none, v⟩) (.array vs) where
  tokens := by
    simp only [Value.tokens, elemTokens_eq_map, List.map_map]
    rfl
  data _ := rfl
  children := by
    simp only [Value.children, elemNodes_eq_map, List.map_map]
    rfl

theorem isGroup_object (ms : List (Quoted × Value)) :
    IsGroup .object (ms.map fun m => ⟨some m.1, m.2⟩) (.object ms) where
  tokens := by
    simp only [Value.tokens, memberTokens_eq_map, List.map_map]
    congr 4
    funext m
    simp [Entry.tokens, labelTokens]
  data _ := rfl
  children := by
    simp only [Value.children, memberNodes_eq_map, List.map_map]
    rfl

/-- Elements that are named exactly if the group is an object make one. -/
theorem exists_group (k : Kind) (es : List Entry)
    (h : ∀ e ∈ es, (e.name.isSome = true ↔ k = .object)) : ∃ v, IsGroup k es v := by
  cases k with
  | array =>
    have hes : es ∈ Set.range (List.map fun v : Value => (⟨none, v⟩ : Entry)) := by
      rw [Set.range_list_map]
      rintro ⟨name, v⟩ he
      have hname := h _ he
      cases name with
      | none => exact ⟨v, rfl⟩
      | some q => exact absurd (hname.mp rfl) (by decide)
    obtain ⟨vs, rfl⟩ := hes
    exact ⟨_, isGroup_array vs⟩
  | object =>
    have hes : es ∈ Set.range (List.map fun m : Quoted × Value => (⟨some m.1, m.2⟩ : Entry)) := by
      rw [Set.range_list_map]
      rintro ⟨name, v⟩ he
      have hname := h _ he
      cases name with
      | none => exact absurd (hname.mpr rfl) (by simp)
      | some q => exact ⟨(q, v), rfl⟩
    obtain ⟨ms, rfl⟩ := hes
    exact ⟨_, isGroup_object ms⟩

/-! ## Padding -/

theorem blank_nil : Blank [] := by simp [Blank]

theorem Blank.append {u v : Text} (hu : Blank u) (hv : Blank v) : Blank (u ++ v) := by
  intro c hc
  rcases List.mem_append.mp hc with h | h
  · exact hu c h
  · exact hv c h

theorem Padded.blank_append {toks : List Text} {pad t : Text} (hp : Blank pad)
    (h : Padded toks t) : Padded toks (pad ++ t) := by
  cases h with
  | nil hb => exact .nil (hp.append hb)
  | cons hb ht => simpa using Padded.cons (hp.append hb) ht

/-- Texts of two token lists may be put one after the other. -/
theorem Padded.append {xs ys : List Text} {t u : Text} (ht : Padded xs t) (hu : Padded ys u) :
    Padded (xs ++ ys) (t ++ u) := by
  induction ht with
  | nil hb => exact hu.blank_append hb
  | cons hb _ ih => simpa using Padded.cons hb ih

/-- … and every text of a joined list is such a pair. -/
theorem Padded.split {xs ys : List Text} {t : Text} (h : Padded (xs ++ ys) t) :
    ∃ t₁ t₂, t = t₁ ++ t₂ ∧ Padded xs t₁ ∧ Padded ys t₂ := by
  induction xs generalizing t with
  | nil => exact ⟨[], t, rfl, .nil blank_nil, h⟩
  | cons x xs ih =>
    cases h with
    | @cons pad _ u _ hb hu =>
      obtain ⟨u₁, u₂, rfl, h₁, h₂⟩ := ih hu
      exact ⟨pad ++ x ++ u₁, u₂, by simp, .cons hb h₁, h₂⟩

/-- A token of one character cuts a text in two. -/
theorem Padded.split_at {xs ys : List Text} {c : Char} {t : Text}
    (h : Padded (xs ++ [c] :: ys) t) :
    ∃ t₁ t₂, t = t₁ ++ c :: t₂ ∧ Padded xs t₁ ∧ Padded ys t₂ := by
  obtain ⟨t₁, t₂, rfl, h₁, h₂⟩ := h.split
  cases h₂ with
  | @cons pad _ u _ hb hu =>
    refine ⟨t₁ ++ pad, u, by simp, ?_, hu⟩
    simpa using h₁.append (.nil hb)

/-- `Padded`, decided by skipping the white space in front of each token. -/
def spells : List Text → Text → Bool
  | [], t => t.all isspace
  | tok :: toks, t =>
    let t' := t.dropWhile isspace
    decide (t'.take tok.length = tok) && spells toks (t'.drop tok.length)

theorem padded_of_spells : ∀ {toks : List Text} {t : Text}, spells toks t = true → Padded toks t
  | [], t, h => .nil (by simpa [spells, Blank] using h)
  | tok :: toks, t, h => by
    simp only [spells, Bool.and_eq_true, decide_eq_true_eq] at h
    have hb : Blank (t.takeWhile isspace) := fun c hc => List.mem_takeWhile_imp hc
    have ht : t = t.takeWhile isspace ++ tok ++ (t.dropWhile isspace).drop tok.length := by
      conv_lhs => rw [← List.takeWhile_append_dropWhile (p := isspace) (l := t),
        ← List.take_append_drop tok.length (t.dropWhile isspace), h.1]
      simp
    rw [ht]
    exact .cons hb (padded_of_spells h.2)

theorem padded_singleton (tok : Text) : Padded [tok] tok := by
  simpa using @Padded.cons [] tok _ _ blank_nil (.nil blank_nil)

end Json
end TsnController

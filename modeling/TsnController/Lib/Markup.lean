import Mathlib.Data.List.Count
import Mathlib.Data.List.Nodup

/-!
# Well-formed documents

The part of XML (with namespaces) that generated configuration files use, as a grammar: a
declaration, one element, and inside it elements and character data. A `Node` is a derivation, and
its constructors carry their side conditions: a name is a name, an attribute occurs once in a tag,
and what stands for itself in the text is a character that may. So there is no ill-formed tree,
and *being well formed* is being the text of a `Document`. That an element is closed by its own
tag, and after everything that was opened inside it, is what `render` says and needs no predicate.

The grammar is smaller than the standard's on every side: names are ASCII and have a prefix, there
are no references, comments or empty-element tags, and a `>` in character data is left out, which
spares the rule about `]]>`. What it admits is well formed.

Namespaces are a second, context-dependent layer. An attribute `xmlns:p="uri"` binds `p` in its own
element, name included, and in everything below it; `Scoped` says that no prefix is used outside of
such an element.

`leafLine` and `groupLines` are the two ways of laying an element out that a line-by-line writer
has: start tag, text and end tag on one line, or start tag and end tag on lines of their own.
-/

set_option autoImplicit false

namespace TsnController
namespace Lib
namespace Markup

/-! ## Names and characters -/

def isNameStart (c : Char) : Bool := c.isAlpha || c == '_'

def isNameChar (c : Char) : Bool := c.isAlphanum || c == '_' || c == '-' || c == '.'

def isNCName : List Char → Bool
  | [] => false
  | c :: cs => isNameStart c && cs.all isNameChar

/-- A character that may occur in a document at all. -/
def isLegal (c : Char) : Bool :=
  c == '\t' || c == '\n' || c == '\r' ||
    (0x20 ≤ c.toNat && c.toNat != 0xfffe && c.toNat != 0xffff)

def isDataChar (c : Char) : Bool := isLegal c && c != '<' && c != '&' && c != '>'

def isValueChar (c : Char) : Bool := isLegal c && c != '<' && c != '&' && c != '"'

def isBlank (c : Char) : Bool := c == ' ' || c == '\t' || c == '\n' || c == '\r'

def isEncodingName : List Char → Bool
  | [] => false
  | c :: cs => c.isAlpha && cs.all fun d => d.isAlphanum || d == '.' || d == '_' || d == '-'

/-- A name without a colon. -/
structure NCName where
  str : String
  valid : isNCName str.toList = true
  deriving DecidableEq

structure QName where
  pre : NCName
  loc : NCName
  deriving DecidableEq

def QName.text (q : QName) : List Char := q.pre.str.toList ++ ':' :: q.loc.str.toList

structure Attribute where
  name : QName
  value : String
  valid : value.toList.all isValueChar = true

def Attribute.text (a : Attribute) : List Char :=
  ' ' :: (a.name.text ++ '=' :: '"' :: (a.value.toList ++ ['"']))

structure CharData where
  chars : List Char
  valid : chars.all isDataChar = true

/-! ## Trees and their text -/

/-- An element or character data. -/
inductive Node
  | text (data : CharData)
  | element (name : QName) (attrs : List Attribute) (unique : (attrs.map Attribute.name).Nodup)
      (content : List Node)

def startTag (name : QName) (attrs : List Attribute) : List Char :=
  '<' :: (name.text ++ (attrs.flatMap Attribute.text ++ ['>']))

def endTag (name : QName) : List Char := '<' :: '/' :: (name.text ++ ['>'])

mutual

def Node.render : Node → List Char
  | .text data => data.chars
  | .element name attrs _ content => startTag name attrs ++ (renderAll content ++ endTag name)

def renderAll : List Node → List Char
  | [] => []
  | node :: nodes => node.render ++ renderAll nodes

end

structure Document where
  encoding : List Char
  encoding_valid : isEncodingName encoding = true
  /-- white space after the declaration -/
  gap : List Char
  gap_blank : gap.all isBlank = true
  name : QName
  attrs : List Attribute
  unique : (attrs.map Attribute.name).Nodup
  content : List Node
  /-- white space after the root -/
  tail : List Char
  tail_blank : tail.all isBlank = true

namespace Document

def root (d : Document) : Node := .element d.name d.attrs d.unique d.content

def text (d : Document) : List Char :=
  "<?xml version=\"1.0\" encoding=\"".toList ++ d.encoding ++ "\"?>".toList ++ d.gap ++
    d.root.render ++ d.tail

end Document

/-! ## What is in a tree -/

/-- The name of an element. -/
def Node.name? : Node → Option QName
  | .text _ => none
  | .element name _ _ _ => some name

mutual

/-- The elements of a tree in document order, an element itself first. -/
def Node.elements : Node → List Node
  | .text _ => []
  | .element name attrs unique content =>
    .element name attrs unique content :: elementsAll content

def elementsAll : List Node → List Node
  | [] => []
  | node :: nodes => node.elements ++ elementsAll nodes

end

/-- The names of the elements of a tree. -/
def Node.names (node : Node) : List QName := node.elements.filterMap Node.name?

def namesAll (nodes : List Node) : List QName := (elementsAll nodes).filterMap Node.name?

/-! ## Namespaces -/

/-- The prefixes that are bound, each to its namespace; the innermost binding comes first. -/
abbrev Env := List (String × String)

/-- What a start tag binds. -/
def declarations (attrs : List Attribute) : Env :=
  attrs.filterMap fun a =>
    if a.name.pre.str = "xmlns" then some (a.name.loc.str, a.value) else none

/-- The prefix is bound, to the namespace it is meant for. -/
def Bound (meant env : Env) (pre : String) : Prop :=
  ∃ uri, env.lookup pre = some uri ∧ meant.lookup pre = some uri

mutual

/-- Every prefix is used in the scope of a declaration that binds it to the namespace it is meant
for. -/
def Node.Scoped (meant : Env) : Env → Node → Prop
  | _, .text _ => True
  | env, .element name attrs _ content =>
    Bound meant (declarations attrs ++ env) name.pre.str ∧
      (∀ a ∈ attrs, a.name.pre.str = "xmlns" ∨
        Bound meant (declarations attrs ++ env) a.name.pre.str) ∧
      ScopedAll meant (declarations attrs ++ env) content

def ScopedAll (meant : Env) : Env → List Node → Prop
  | _, [] => True
  | env, node :: nodes => node.Scoped meant env ∧ ScopedAll meant env nodes

end

/-! ## Composing -/

section Compose

variable {meant env : Env} {ns ms : List Node}

theorem renderAll_append (ns ms : List Node) :
    renderAll (ns ++ ms) = renderAll ns ++ renderAll ms := by
  induction ns with
  | nil => rfl
  | cons n ns ih => rw [List.cons_append, renderAll, renderAll, ih, List.append_assoc]

theorem elementsAll_append (ns ms : List Node) :
    elementsAll (ns ++ ms) = elementsAll ns ++ elementsAll ms := by
  induction ns with
  | nil => rfl
  | cons n ns ih => rw [List.cons_append, elementsAll, elementsAll, ih, List.append_assoc]

theorem namesAll_append (ns ms : List Node) :
    namesAll (ns ++ ms) = namesAll ns ++ namesAll ms := by
  rw [namesAll, elementsAll_append, List.filterMap_append]
  rfl

theorem scopedAll_append : ScopedAll meant env (ns ++ ms) ↔
    ScopedAll meant env ns ∧ ScopedAll meant env ms := by
  induction ns with
  | nil => exact ⟨fun h => ⟨trivial, h⟩, fun h => h.2⟩
  | cons n ns ih => rw [List.cons_append, ScopedAll, ScopedAll, ih, and_assoc]

theorem ScopedAll.append (h : ScopedAll meant env ns) (h' : ScopedAll meant env ms) :
    ScopedAll meant env (ns ++ ms) :=
  scopedAll_append.mpr ⟨h, h'⟩

/-! The same over a list of pieces. -/

variable {ι : Type} {f : ι → List Node}

theorem renderAll_flatMap {g : ι → List Char} {l : List ι}
    (h : ∀ x ∈ l, renderAll (f x) = g x) : renderAll (l.flatMap f) = l.flatMap g := by
  induction l with
  | nil => rfl
  | cons x l ih =>
    rw [List.flatMap_cons, List.flatMap_cons, renderAll_append, h x List.mem_cons_self,
      ih fun y hy => h y (List.mem_cons_of_mem x hy)]

theorem scopedAll_flatMap {l : List ι} (h : ∀ x ∈ l, ScopedAll meant env (f x)) :
    ScopedAll meant env (l.flatMap f) := by
  induction l with
  | nil => trivial
  | cons x l ih =>
    rw [List.flatMap_cons]
    exact (h x List.mem_cons_self).append (ih fun y hy => h y (List.mem_cons_of_mem x hy))

theorem elementsAll_flatMap (l : List ι) :
    elementsAll (l.flatMap f) = l.flatMap fun x => elementsAll (f x) := by
  induction l with
  | nil => rfl
  | cons x l ih => rw [List.flatMap_cons, List.flatMap_cons, elementsAll_append, ih]

theorem namesAll_flatMap (l : List ι) :
    namesAll (l.flatMap f) = l.flatMap fun x => namesAll (f x) := by
  induction l with
  | nil => rfl
  | cons x l ih => rw [List.flatMap_cons, List.flatMap_cons, namesAll_append, ih]

theorem mem_namesAll {x : Node} {q : QName} (hx : x ∈ elementsAll ns) (hq : x.name? = some q) :
    q ∈ namesAll ns :=
  List.mem_filterMap.mpr ⟨x, hx, hq⟩

end Compose

/-! ## Lines -/

/-! A literal is `String.ofList` of its characters by definition, and a fact about it is checked on
them. -/

theorem isNCName_literal {l : List Char} (h : isNCName l = true) :
    isNCName (String.ofList l).toList = true := by
  rwa [String.toList_ofList]

theorem all_literal {p : Char → Bool} {l : List Char} (h : l.all p = true) :
    (String.ofList l).toList.all p = true := by
  rwa [String.toList_ofList]

theorem eq_literal {l m : List Char} (h : m = l) : m = (String.ofList l).toList := by
  rw [String.toList_ofList, h]

theorem all_replicate_tab (n : Nat) : (List.replicate n '\t').all isDataChar = true := by
  rw [List.all_replicate]
  split <;> rfl

def tabs (n : Nat) : Node := .text ⟨List.replicate n '\t', all_replicate_tab n⟩

def newline : Node := .text ⟨['\n'], rfl⟩

def xmlns : NCName := ⟨"xmlns", isNCName_literal rfl⟩

/-- `xmlns:pre="uri"`. -/
structure Declaration where
  pre : NCName
  uri : String
  valid : uri.toList.all isValueChar = true

def Declaration.attribute (d : Declaration) : Attribute := ⟨⟨xmlns, d.pre⟩, d.uri, d.valid⟩

/-- What at most one declaration binds. -/
def declared (d : Option Declaration) : Env := d.toList.map fun d => (d.pre.str, d.uri)

theorem nodup_attributes (d : Option Declaration) :
    ((d.toList.map Declaration.attribute).map Attribute.name).Nodup := by
  cases d with
  | none => exact List.nodup_nil
  | some d => exact List.nodup_singleton _

/-- An element with at most a declaration in its start tag. -/
def element (name : QName) (d : Option Declaration) (content : List Node) : Node :=
  .element name (d.toList.map Declaration.attribute) (nodup_attributes d) content

/-- An element on one line. -/
def leafLine (n : Nat) (name : QName) (d : Option Declaration) (data : CharData) : List Node :=
  [tabs n, element name d [.text data], newline]

/-- An element whose tags have lines of their own, with lines between them. -/
def groupLines (n : Nat) (name : QName) (d : Option Declaration) (inner : List Node) : List Node :=
  [tabs n, element name d (newline :: (inner ++ [tabs n])), newline]

section Lines

variable {n : Nat} {name : QName} {d : Option Declaration} {data : CharData} {inner : List Node}
variable {meant env : Env}

theorem declarations_attributes (d : Option Declaration) :
    declarations (d.toList.map Declaration.attribute) = declared d := by
  cases d with
  | none => rfl
  | some d => simp [declarations, declared, Declaration.attribute, xmlns]

theorem scoped_element {content : List Node}
    (hname : Bound meant (declared d ++ env) name.pre.str)
    (hcontent : ScopedAll meant (declared d ++ env) content) :
    (element name d content).Scoped meant env := by
  rw [element, Node.Scoped, declarations_attributes]
  refine ⟨hname, fun a ha => ?_, hcontent⟩
  obtain ⟨d, _, rfl⟩ := List.mem_map.mp ha
  exact Or.inl rfl

theorem scopedAll_leafLine (h : Bound meant (declared d ++ env) name.pre.str) :
    ScopedAll meant env (leafLine n name d data) :=
  ⟨trivial, scoped_element h ⟨trivial, trivial⟩, trivial, trivial⟩

theorem scopedAll_groupLines (h : Bound meant (declared d ++ env) name.pre.str)
    (hi : ScopedAll meant (declared d ++ env) inner) :
    ScopedAll meant env (groupLines n name d inner) := by
  refine ⟨trivial, scoped_element h ⟨trivial, ?_⟩, trivial, trivial⟩
  exact hi.append ⟨trivial, trivial⟩

theorem namesAll_leafLine : namesAll (leafLine n name d data) = [name] := rfl

/-- The layout of a group adds no elements to it. -/
theorem elements_group : (element name d (newline :: (inner ++ [tabs n]))).elements =
    element name d (newline :: (inner ++ [tabs n])) :: elementsAll inner := by
  have hinner : elementsAll (newline :: (inner ++ [tabs n])) = elementsAll inner := by
    show elementsAll (inner ++ [tabs n]) = elementsAll inner
    rw [elementsAll_append]
    exact List.append_nil _
  rw [element, Node.elements, hinner]

theorem names_group : (element name d (newline :: (inner ++ [tabs n]))).names =
    name :: namesAll inner := by
  rw [Node.names, elements_group]
  rfl

theorem elementsAll_groupLines : elementsAll (groupLines n name d inner) =
    element name d (newline :: (inner ++ [tabs n])) :: elementsAll inner := by
  show (element name d (newline :: (inner ++ [tabs n]))).elements ++ [] = _
  rw [List.append_nil, elements_group]

theorem namesAll_groupLines :
    namesAll (groupLines n name d inner) = name :: namesAll inner := by
  rw [namesAll, elementsAll_groupLines]
  rfl

/-! ### The text of a line, as a literal -/

variable {a b e p l t w : List Char}

theorem attributes_none :
    ((none : Option Declaration).toList.map Declaration.attribute).flatMap Attribute.text = [] :=
  rfl

theorem attributes_some {d : Declaration} (hp : d.pre.str = String.ofList p)
    (hw : d.uri = String.ofList w) :
    ((some d).toList.map Declaration.attribute).flatMap Attribute.text =
      ' ' :: 'x' :: 'm' :: 'l' :: 'n' :: 's' :: ':' :: (p ++ '=' :: '"' :: (w ++ ['"'])) := by
  have hx : xmlns.str.toList = ['x', 'm', 'l', 'n', 's'] := String.toList_ofList
  show ' ' :: ((xmlns.str.toList ++ ':' :: d.pre.str.toList) ++
    '=' :: '"' :: (d.uri.toList ++ ['"'])) ++ [] = _
  rw [hx, hp, hw, String.toList_ofList, String.toList_ofList]
  simp

theorem startTag_literal (hp : name.pre.str = String.ofList p)
    (hl : name.loc.str = String.ofList l)
    (he : (d.toList.map Declaration.attribute).flatMap Attribute.text = e) :
    startTag name (d.toList.map Declaration.attribute) =
      '<' :: (p ++ ':' :: (l ++ (e ++ ['>']))) := by
  rw [startTag, QName.text, hp, hl, he, String.toList_ofList, String.toList_ofList]
  simp

theorem endTag_literal (hp : name.pre.str = String.ofList p)
    (hl : name.loc.str = String.ofList l) :
    endTag name = '<' :: '/' :: (p ++ ':' :: (l ++ ['>'])) := by
  rw [endTag, QName.text, hp, hl, String.toList_ofList, String.toList_ofList]
  simp

/-- The text of the element is written between two literals. -/
theorem renderAll_leafLine (hp : name.pre.str = String.ofList p)
    (hl : name.loc.str = String.ofList l)
    (ha : a = List.replicate n '\t' ++ '<' :: (p ++ ':' :: (l ++ ['>'])))
    (hb : b = '<' :: '/' :: (p ++ ':' :: (l ++ ['>', '\n']))) :
    renderAll (leafLine n name none data) =
      (String.ofList a).toList ++ data.chars ++ (String.ofList b).toList := by
  have hrender : renderAll (leafLine n name none data) = List.replicate n '\t' ++
      ((startTag name ((none : Option Declaration).toList.map Declaration.attribute) ++
        ((data.chars ++ []) ++ endTag name)) ++ (['\n'] ++ [])) := rfl
  rw [hrender, startTag_literal hp hl attributes_none, endTag_literal hp hl,
    String.toList_ofList, String.toList_ofList, ha, hb]
  simp

/-- The whole line is one literal. -/
theorem renderAll_leafLine_literal (hp : name.pre.str = String.ofList p)
    (hl : name.loc.str = String.ofList l)
    (he : (d.toList.map Declaration.attribute).flatMap Attribute.text = e)
    (hw : data.chars = (String.ofList w).toList)
    (ht : t = List.replicate n '\t' ++ '<' :: (p ++ ':' :: (l ++ (e ++ '>' :: (w ++
      '<' :: '/' :: (p ++ ':' :: (l ++ ['>', '\n']))))))) :
    renderAll (leafLine n name d data) = (String.ofList t).toList := by
  have hrender : renderAll (leafLine n name d data) = List.replicate n '\t' ++
      ((startTag name (d.toList.map Declaration.attribute) ++
        ((data.chars ++ []) ++ endTag name)) ++ (['\n'] ++ [])) := rfl
  rw [hrender, startTag_literal hp hl he, endTag_literal hp hl, hw, String.toList_ofList,
    String.toList_ofList, ht]
  simp

theorem renderAll_groupLines (hp : name.pre.str = String.ofList p)
    (hl : name.loc.str = String.ofList l)
    (he : (d.toList.map Declaration.attribute).flatMap Attribute.text = e)
    (ha : a = List.replicate n '\t' ++ '<' :: (p ++ ':' :: (l ++ (e ++ ['>', '\n']))))
    (hb : b = List.replicate n '\t' ++ '<' :: '/' :: (p ++ ':' :: (l ++ ['>', '\n']))) :
    renderAll (groupLines n name d inner) =
      (String.ofList a).toList ++ renderAll inner ++ (String.ofList b).toList := by
  have hrender : renderAll (groupLines n name d inner) = List.replicate n '\t' ++
      ((startTag name (d.toList.map Declaration.attribute) ++
        ((['\n'] ++ renderAll (inner ++ [tabs n])) ++ endTag name)) ++ (['\n'] ++ [])) := rfl
  have htabs : renderAll [tabs n] = List.replicate n '\t' := List.append_nil _
  rw [hrender, startTag_literal hp hl he, endTag_literal hp hl, renderAll_append, htabs,
    String.toList_ofList, String.toList_ofList, ha, hb]
  simp

end Lines

end Markup
end Lib
end TsnController

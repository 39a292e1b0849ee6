import Mathlib.Tactic.Common
import TsnController.Lib.Readers

/-!
# Reading the elements of a document

What a document *contains* is what a reader finds in it. `readDocument` reads the part of XML that
generated configuration files use: a prolog, start tags with attributes, end tags and character
data. Attributes are skipped, and so is the white space between the children of an element; empty
element tags, comments and other declarations are refused rather than misread.

The reader goes through the text once, character by character, so that reading a text that was
written piece by piece is a matter of composing what the pieces do: `Adds` (whole elements),
`Opens` (a start tag) and `Closes` (an end tag). The text in progress is kept backwards, which
lets a literal piece be read by evaluation even where the element around it is unknown.
-/

set_option autoImplicit false

namespace TsnController
namespace Lib

/-- An element. Only one without children has text. -/
inductive Xml
  | elem (tag text : List Char) (kids : List Xml)

namespace Xml

def tag : Xml → List Char
  | elem tag _ _ => tag

def text : Xml → List Char
  | elem _ text _ => text

def kids : Xml → List Xml
  | elem _ _ kids => kids

/-- The children with a tag, in order. -/
def childrenNamed (x : Xml) (tag : List Char) : List Xml := x.kids.filter (·.tag = tag)

/-- The only child with a tag. -/
def child (x : Xml) (tag : List Char) : Option Xml :=
  match x.childrenNamed tag with
  | [y] => some y
  | _ => none

/-- An element whose end tag has not come yet; text and children backwards. -/
structure Pending where
  tag : List Char
  text : List Char
  kids : List Xml

def Pending.done (p : Pending) : Xml :=
  elem p.tag (if p.kids.isEmpty then p.text.reverse else []) p.kids.reverse

/-- The element being read, those around it, and what has been read of a tag (backwards). -/
structure Reader where
  cur : Pending
  outer : List Pending
  markup : Option (List Char)

/-- What stood between `<` and `>`. -/
def Reader.tagRead (r : Reader) : List Char → Option Reader
  | '?' :: _ => some { r with markup := none }
  | '!' :: _ => none
  | '/' :: name =>
    match r.outer with
    | [] => none
    | p :: outer =>
      if r.cur.tag = name then some ⟨{ p with kids := r.cur.done :: p.kids }, outer, none⟩ else none
  | w =>
    if w.getLast? = some '/' then none
    else some ⟨⟨w.takeWhile (· ≠ ' '), [], []⟩, r.cur :: r.outer, none⟩

def Reader.step (r : Reader) (c : Char) : Option Reader :=
  match r.markup with
  | none =>
    if c = '<' then some { r with markup := some [] }
    else some { r with cur := { r.cur with text := c :: r.cur.text } }
  | some w => if c = '>' then r.tagRead w.reverse else some { r with markup := some (c :: w) }

def feed : Reader → List Char → Option Reader
  | r, [] => some r
  | r, c :: cs => (r.step c).bind fun r' => feed r' cs

/-- The one element of a document. -/
def readDocument (text : List Char) : Option Xml :=
  match feed ⟨⟨[], [], []⟩, [], none⟩ text with
  | some ⟨⟨_, _, [root]⟩, [], none⟩ => some root
  | _ => none

/-! ## Reading piece by piece -/

theorem feed_append (r : Reader) (t u : List Char) :
    feed r (t ++ u) = (feed r t).bind fun r' => feed r' u := by
  induction t generalizing r with
  | nil => rfl
  | cons c cs ih =>
    show (r.step c).bind _ = ((r.step c).bind _).bind _
    cases r.step c with
    | none => rfl
    | some r' => exact ih r'

/-- The text adds the elements `xs` to the one it stands in. -/
def Adds (t : List Char) (xs : List Xml) : Prop :=
  ∀ (p : Pending) (outer : List Pending), ∃ text',
    feed ⟨p, outer, none⟩ t = some ⟨⟨p.tag, text', xs.reverse ++ p.kids⟩, outer, none⟩

/-- The text is a start tag of `name`, and maybe white space around it. -/
def Opens (t name : List Char) : Prop :=
  ∀ (p : Pending) (outer : List Pending), ∃ text text',
    feed ⟨p, outer, none⟩ t = some ⟨⟨name, text, []⟩, { p with text := text' } :: outer, none⟩

/-- … with none behind it. -/
def OpensLeaf (t name : List Char) : Prop :=
  ∀ (p : Pending) (outer : List Pending), ∃ text',
    feed ⟨p, outer, none⟩ t = some ⟨⟨name, [], []⟩, { p with text := text' } :: outer, none⟩

/-- The text is the end tag of `name`, and maybe white space around it. -/
def Closes (t name : List Char) : Prop :=
  ∀ (text : List Char) (kids : List Xml) (p : Pending) (outer : List Pending), ∃ text' text'',
    feed ⟨⟨name, text, kids⟩, p :: outer, none⟩ t =
      some ⟨⟨p.tag, text', Pending.done ⟨name, text'', kids⟩ :: p.kids⟩, outer, none⟩

/-- … with none in front of it. -/
def ClosesLeaf (t name : List Char) : Prop :=
  ∀ (text : List Char) (kids : List Xml) (p : Pending) (outer : List Pending), ∃ text',
    feed ⟨⟨name, text, kids⟩, p :: outer, none⟩ t =
      some ⟨⟨p.tag, text', Pending.done ⟨name, text, kids⟩ :: p.kids⟩, outer, none⟩

theorem adds_nil : Adds [] [] := fun p _ => ⟨p.text, rfl⟩

theorem Adds.append {t u : List Char} {xs ys : List Xml} (ht : Adds t xs) (hu : Adds u ys) :
    Adds (t ++ u) (xs ++ ys) := by
  intro p outer
  obtain ⟨text₁, h₁⟩ := ht p outer
  obtain ⟨text₂, h₂⟩ := hu ⟨p.tag, text₁, xs.reverse ++ p.kids⟩ outer
  refine ⟨text₂, ?_⟩
  rw [feed_append, h₁]
  show feed _ u = _
  rw [h₂, List.reverse_append, List.append_assoc]

theorem adds_flatMap {α : Type} {f : α → List Char} {g : α → List Xml} {l : List α}
    (h : ∀ a ∈ l, Adds (f a) (g a)) : Adds (l.flatMap f) (l.flatMap g) := by
  induction l with
  | nil => exact adds_nil
  | cons a l ih =>
    rw [List.flatMap_cons, List.flatMap_cons]
    apply Adds.append (h a List.mem_cons_self)
    exact ih fun b hb => h b (List.mem_cons_of_mem a hb)

/-- An element with children. -/
theorem Opens.container {a inner b name : List Char} {xs : List Xml} (ha : Opens a name)
    (hi : Adds inner xs) (hne : xs ≠ []) (hb : Closes b name) :
    Adds (a ++ inner ++ b) [elem name [] xs] := by
  intro p outer
  obtain ⟨text₁, text₂, h₁⟩ := ha p outer
  obtain ⟨text₃, h₃⟩ := hi ⟨name, text₁, []⟩ ({ p with text := text₂ } :: outer)
  obtain ⟨text₄, text₅, h₄⟩ := hb text₃ (xs.reverse ++ []) { p with text := text₂ } outer
  refine ⟨text₄, ?_⟩
  rw [feed_append, feed_append, h₁]
  show (feed _ inner).bind _ = _
  rw [h₃]
  show feed _ b = _
  rw [h₄]
  have hdone : Pending.done ⟨name, text₅, xs.reverse ++ []⟩ = elem name [] xs := by
    unfold Pending.done
    simp [hne]
  rw [hdone]
  rfl

theorem feed_text {w : List Char} (hw : '<' ∉ w) : ∀ (p : Pending) (outer : List Pending),
    feed ⟨p, outer, none⟩ w = some ⟨{ p with text := w.reverse ++ p.text }, outer, none⟩ := by
  induction w with
  | nil => intro p outer; rfl
  | cons c cs ih =>
    intro p outer
    have hc : c ≠ '<' := fun h => hw (h ▸ List.mem_cons_self)
    unfold feed Reader.step
    simp only [if_neg hc]
    show feed _ cs = _
    rw [ih (fun h => hw (List.mem_cons_of_mem c h)), List.reverse_cons, List.append_assoc]
    rfl

/-- An element with text. -/
theorem OpensLeaf.leaf {a w b name : List Char} (ha : OpensLeaf a name) (hw : '<' ∉ w)
    (hb : ClosesLeaf b name) : Adds (a ++ w ++ b) [elem name w []] := by
  intro p outer
  obtain ⟨text₁, h₁⟩ := ha p outer
  obtain ⟨text₂, h₂⟩ := hb w.reverse [] { p with text := text₁ } outer
  refine ⟨text₂, ?_⟩
  rw [feed_append, feed_append, h₁]
  show (feed _ w).bind _ = _
  rw [feed_text hw, List.append_nil]
  show feed _ b = _
  rw [h₂]
  have hdone : Pending.done ⟨name, w.reverse, []⟩ = elem name w [] := by
    unfold Pending.done
    simp
  rw [hdone]
  rfl

/-! ## Tags by their text

A text that is one tag with white space around it does the same whatever element it stands in, so
it is looked at once, as a text: `startTag` and `endTag` take a tag apart, `leafOf` an element with
nothing but text. They are evaluated on the literal pieces of a document. -/

/-- Up to the end of a tag. -/
theorem feed_markup {w : List Char} (hw : '>' ∉ w) (rest : List Char) : ∀ (u : List Char)
    (p : Pending) (outer : List Pending), feed ⟨p, outer, some u⟩ (w ++ '>' :: rest) =
      (Reader.tagRead ⟨p, outer, some (w.reverse ++ u)⟩ (u.reverse ++ w)).bind (feed · rest) := by
  induction w with
  | nil => intro u p outer; rw [List.append_nil]; rfl
  | cons c cs ih =>
    intro u p outer
    have hc : c ≠ '>' := fun h => hw (h ▸ List.mem_cons_self)
    have hstep : Reader.step ⟨p, outer, some u⟩ c = some ⟨p, outer, some (c :: u)⟩ := if_neg hc
    rw [List.cons_append, feed, hstep, Option.bind_some,
      ih fun h => hw (List.mem_cons_of_mem c h)]
    simp only [List.reverse_cons, List.append_assoc, List.singleton_append]

/-- A tag with text in front of it. -/
theorem feed_tag {pad w : List Char} (hpad : '<' ∉ pad) (hw : '>' ∉ w) (rest : List Char)
    (p : Pending) (outer : List Pending) :
    feed ⟨p, outer, none⟩ (pad ++ '<' :: (w ++ '>' :: rest)) =
      (Reader.tagRead ⟨{ p with text := pad.reverse ++ p.text }, outer, some w.reverse⟩ w).bind
        (feed · rest) := by
  rw [feed_append, feed_text hpad, Option.bind_some, feed]
  show feed _ (w ++ '>' :: rest) = _
  rw [feed_markup hw, List.append_nil]
  rfl

/-- Not a declaration, an end tag or an empty element. -/
def startsElement (w : List Char) : Bool :=
  (w.head?.all fun c => c ≠ '?' && c ≠ '!' && c ≠ '/') && w.getLast? ≠ some '/'

theorem tagRead_of_startsElement {w : List Char} (h : startsElement w = true) (r : Reader) :
    r.tagRead w = some ⟨⟨w.takeWhile (· ≠ ' '), [], []⟩, r.cur :: r.outer, none⟩ := by
  obtain ⟨hhead, hlast⟩ := Bool.and_eq_true_iff.mp h
  unfold Reader.tagRead
  split
  · exact absurd hhead (by simp)
  · exact absurd hhead (by simp)
  · exact absurd hhead (by simp)
  · exact if_neg (of_decide_eq_true hlast)

/-- The name of a start tag, and what stands behind the tag. -/
def startTag (t : List Char) : Option (List Char × List Char) :=
  (cut '<' t).bind fun x => (cut '>' x.2).bind fun y =>
    if startsElement y.1 && '<' ∉ y.2 then some (y.1.takeWhile (· ≠ ' '), y.2) else none

theorem feed_startTag {t name rest : List Char} (h : startTag t = some (name, rest))
    (p : Pending) (outer : List Pending) : ∃ text', feed ⟨p, outer, none⟩ t =
      some ⟨⟨name, rest.reverse, []⟩, { p with text := text' } :: outer, none⟩ := by
  obtain ⟨⟨pad, t₁⟩, hcut, h⟩ := Option.bind_eq_some_iff.mp h
  obtain ⟨⟨w, t₂⟩, hcut', h⟩ := Option.bind_eq_some_iff.mp h
  obtain ⟨hok, heq⟩ := Option.ite_none_right_eq_some.mp h
  cases heq
  obtain ⟨hstart, hrest⟩ := Bool.and_eq_true_iff.mp hok
  obtain ⟨rfl, hpad⟩ := cut_eq_some hcut
  obtain ⟨rfl, hw⟩ := cut_eq_some hcut'
  refine ⟨pad.reverse ++ p.text, ?_⟩
  rw [feed_tag hpad hw, tagRead_of_startsElement hstart, Option.bind_some,
    feed_text (of_decide_eq_true hrest), List.append_nil]

theorem opens_of_startTag {t name : List Char} (h : (startTag t).map Prod.fst = some name) :
    Opens t name := by
  obtain ⟨⟨_, rest⟩, ht, rfl⟩ := Option.map_eq_some_iff.mp h
  intro p outer
  obtain ⟨text', hfeed⟩ := feed_startTag ht p outer
  exact ⟨rest.reverse, text', hfeed⟩

theorem opensLeaf_of_startTag {t name : List Char} (h : startTag t = some (name, [])) :
    OpensLeaf t name :=
  fun p outer => feed_startTag h p outer

/-- What stands in front of an end tag, and its name. -/
def endTag (t : List Char) : Option (List Char × List Char) :=
  (cut '<' t).bind fun x => (cut '>' x.2).bind fun y =>
    if y.1.head? = some '/' ∧ '<' ∉ y.2 then some (x.1, y.1.tail) else none

theorem feed_endTag {t pad name : List Char} (h : endTag t = some (pad, name))
    (text : List Char) (kids : List Xml) (p : Pending) (outer : List Pending) : ∃ text',
      feed ⟨⟨name, text, kids⟩, p :: outer, none⟩ t =
        some ⟨⟨p.tag, text', Pending.done ⟨name, pad.reverse ++ text, kids⟩ :: p.kids⟩, outer,
          none⟩ := by
  obtain ⟨⟨pad', t₁⟩, hcut, h⟩ := Option.bind_eq_some_iff.mp h
  obtain ⟨⟨w, rest⟩, hcut', h⟩ := Option.bind_eq_some_iff.mp h
  obtain ⟨⟨hslash, hrest⟩, heq⟩ := Option.ite_none_right_eq_some.mp h
  cases heq
  obtain ⟨rfl, hpad⟩ := cut_eq_some hcut
  obtain ⟨rfl, hw⟩ := cut_eq_some hcut'
  cases w with
  | nil => exact absurd hslash (by simp)
  | cons c cs =>
    obtain rfl : c = '/' := Option.some.inj hslash
    refine ⟨rest.reverse ++ p.text, ?_⟩
    have hread : Reader.tagRead
        ⟨⟨cs, pad'.reverse ++ text, kids⟩, p :: outer, some ('/' :: cs).reverse⟩ ('/' :: cs) =
          some ⟨{ p with kids := Pending.done ⟨cs, pad'.reverse ++ text, kids⟩ :: p.kids }, outer,
            none⟩ := if_pos rfl
    rw [feed_tag hpad hw]
    simp only [List.tail_cons]
    rw [hread, Option.bind_some, feed_text hrest]

theorem closes_of_endTag {t name : List Char} (h : (endTag t).map Prod.snd = some name) :
    Closes t name := by
  obtain ⟨⟨pad, _⟩, ht, rfl⟩ := Option.map_eq_some_iff.mp h
  intro text kids p outer
  obtain ⟨text', hfeed⟩ := feed_endTag ht text kids p outer
  exact ⟨text', pad.reverse ++ text, hfeed⟩

theorem closesLeaf_of_endTag {t name : List Char} (h : endTag t = some ([], name)) :
    ClosesLeaf t name :=
  fun text kids p outer => feed_endTag h text kids p outer

/-- The name and the text of an element without children. -/
def leafOf (t : List Char) : Option (List Char × List Char) :=
  (cut '>' t).bind fun x => (cut '<' x.2).bind fun y =>
    (startTag (x.1 ++ ['>'])).bind fun s =>
      if s.2 = [] ∧ endTag ('<' :: y.2) = some ([], s.1) then some (s.1, y.1) else none

theorem adds_of_leafOf {t name w : List Char} (h : leafOf t = some (name, w)) :
    Adds t [elem name w []] := by
  obtain ⟨⟨a, t₁⟩, hcut, h⟩ := Option.bind_eq_some_iff.mp h
  obtain ⟨⟨w', b⟩, hcut', h⟩ := Option.bind_eq_some_iff.mp h
  obtain ⟨⟨name', rest⟩, hstart, h⟩ := Option.bind_eq_some_iff.mp h
  obtain ⟨⟨hrest, hend⟩, heq⟩ := Option.ite_none_right_eq_some.mp h
  cases heq
  obtain ⟨rfl, _⟩ := cut_eq_some hcut
  obtain ⟨rfl, hw⟩ := cut_eq_some hcut'
  obtain rfl : rest = [] := hrest
  have hleaf := (opensLeaf_of_startTag hstart).leaf hw (closesLeaf_of_endTag hend)
  simpa using hleaf

/-- A declaration: what stands behind it. -/
def prolog (t : List Char) : Option (List Char) :=
  (cut '<' t).bind fun x => (cut '>' x.2).bind fun y =>
    if y.1.head? = some '?' ∧ '<' ∉ y.2 then some y.2 else none

theorem adds_of_prolog {t : List Char} (h : (prolog t).isSome = true) : Adds t [] := by
  obtain ⟨rest, h⟩ := Option.isSome_iff_exists.mp h
  obtain ⟨⟨pad, t₁⟩, hcut, h⟩ := Option.bind_eq_some_iff.mp h
  obtain ⟨⟨w, rest'⟩, hcut', h⟩ := Option.bind_eq_some_iff.mp h
  obtain ⟨⟨hmark, hrest⟩, _⟩ := Option.ite_none_right_eq_some.mp h
  obtain ⟨rfl, hpad⟩ := cut_eq_some hcut
  obtain ⟨rfl, hw⟩ := cut_eq_some hcut'
  intro p outer
  refine ⟨rest'.reverse ++ (pad.reverse ++ p.text), ?_⟩
  cases w with
  | nil => exact absurd hmark (by simp)
  | cons c cs =>
    obtain rfl : c = '?' := Option.some.inj hmark
    rw [feed_tag hpad hw]
    exact feed_text hrest _ _

/-- A start tag may have a declaration in front of it. -/
theorem Opens.after {t u name : List Char} (hu : Opens u name) (ht : Adds t []) :
    Opens (t ++ u) name := by
  intro p outer
  obtain ⟨text₁, h₁⟩ := ht p outer
  obtain ⟨text₂, text₃, h₂⟩ := hu ⟨p.tag, text₁, p.kids⟩ outer
  refine ⟨text₂, text₃, ?_⟩
  rw [feed_append, h₁]
  exact h₂

/-- **Reading a document** that adds one element. -/
theorem Adds.readDocument {t : List Char} {root : Xml} (h : Adds t [root]) :
    readDocument t = some root := by
  obtain ⟨text, hfeed⟩ := h ⟨[], [], []⟩ []
  unfold Xml.readDocument
  rw [hfeed]
  rfl

end Xml

end Lib
end TsnController

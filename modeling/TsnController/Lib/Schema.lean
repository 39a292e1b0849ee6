import Mathlib.Data.List.Nodup
import TsnController.Lib.Decimal
import TsnController.Lib.Xml

/-!
# Schemas

What a tree of elements has to look like to be accepted as configuration: the part of YANG that
describes leaves, containers and lists with a key. A schema says of the children of an element which
tags may occur among them, how often, and what an occurrence has to contain. A leaf has a type, and
may have to be there; a container may depend on the value of a leaf beside it; the entries of a list
each have their key, and no two of them the same.

A number is admitted in its canonical form, a decimal numeral without sign and without superfluous
zeros. That is one of the forms the standard allows.
-/

set_option autoImplicit false

namespace TsnController
namespace Lib

/-! ## Leaves -/

inductive LeafType
  | uint (max : Nat)
  | boolean
  | string
  /-- an enumeration, or the names of the identities derived from one -/
  | oneOf (values : List String)

def LeafType.admits : LeafType → List Char → Bool
  | .uint max, w => (decimal w).any (· ≤ max)
  | .boolean, w => w = "true".toList || w = "false".toList
  | .string, _ => true
  | .oneOf values, w => values.any fun v => v.toList = w

/-! ## Trees -/

inductive Schema
  | leaf (tag : String) (type : LeafType) (mandatory : Bool)
  /-- the condition is a leaf beside the container, and its value -/
  | container (tag : String) (condition : Option (String × String)) (kids : List Schema)
  | list (tag : String) (key : String) (kids : List Schema)

namespace Schema

def tag : Schema → String
  | leaf tag _ _ => tag
  | container tag _ _ => tag
  | list tag _ _ => tag

/-- Those with a tag. -/
def named (tag : String) (xs : List Xml) : List Xml := xs.filter (·.tag = tag.toList)

/-- What the leaf of that tag says, if it is there once. -/
def keyOf (key : String) (x : Xml) : List (List Char) := (named key x.kids).map (·.text)

def Met (condition : Option (String × String)) (siblings : List Xml) : Prop :=
  ∀ c ∈ condition, ∃ x ∈ named c.1 siblings, x.text = c.2.toList

/-- Nothing else is there. -/
def Known (schemas : List Schema) (xs : List Xml) : Prop :=
  ∀ x ∈ xs, ∃ s ∈ schemas, x.tag = s.tag.toList

mutual

/-- Of the children `xs` of an element, those the schema is about are as it says. -/
def Holds : Schema → List Xml → Prop
  | leaf tag type mandatory, xs =>
    (named tag xs).length ≤ 1 ∧ (mandatory = true → named tag xs ≠ []) ∧
      ∀ x ∈ named tag xs, x.kids = [] ∧ type.admits x.text = true
  | container tag condition kids, xs =>
    (named tag xs).length ≤ 1 ∧
      ∀ x ∈ named tag xs, Met condition xs ∧ Known kids x.kids ∧ HoldAll kids x.kids
  | list tag key kids, xs =>
    ((named tag xs).map (keyOf key)).Nodup ∧
      ∀ x ∈ named tag xs, (keyOf key x).length = 1 ∧ Known kids x.kids ∧ HoldAll kids x.kids

def HoldAll : List Schema → List Xml → Prop
  | [], _ => True
  | s :: ss, xs => s.Holds xs ∧ HoldAll ss xs

end

/-- The children of an element are as the schemas say. -/
def Valid (schemas : List Schema) (xs : List Xml) : Prop := Known schemas xs ∧ HoldAll schemas xs

theorem known_append {schemas : List Schema} {xs ys : List Xml} :
    Known schemas (xs ++ ys) ↔ Known schemas xs ∧ Known schemas ys :=
  List.forall_mem_append

theorem known_of_tag {schemas : List Schema} {xs : List Xml} {t : String}
    (ht : t ∈ schemas.map Schema.tag) (h : ∀ x ∈ xs, x.tag = t.toList) : Known schemas xs := by
  obtain ⟨s, hs, rfl⟩ := List.mem_map.mp ht
  exact fun x hx => ⟨s, hs, h x hx⟩

/-! ## One occurrence, and none -/

section Occurrences

variable {tag key : String} {type : LeafType} {mandatory : Bool} {kids : List Schema}
  {condition : Option (String × String)} {xs : List Xml} {x : Xml}

theorem holds_leaf_iff (h : named tag xs = [x]) :
    (leaf tag type mandatory).Holds xs ↔ x.kids = [] ∧ type.admits x.text = true := by
  simp [Holds, h]

theorem holds_leaf_of_nil (h : named tag xs = []) : (leaf tag type false).Holds xs := by
  simp [Holds, h]

theorem holds_container_iff (h : named tag xs = [x]) :
    (container tag condition kids).Holds xs ↔ Met condition xs ∧ Valid kids x.kids := by
  simp [Holds, h, Valid]

theorem holds_container_of_nil (h : named tag xs = []) :
    (container tag condition kids).Holds xs := by
  simp [Holds, h]

theorem holds_list_iff : (list tag key kids).Holds xs ↔
    ((named tag xs).map (keyOf key)).Nodup ∧
      ∀ x ∈ named tag xs, (keyOf key x).length = 1 ∧ Valid kids x.kids := by
  simp [Holds, Valid]

end Occurrences

end Schema

end Lib
end TsnController

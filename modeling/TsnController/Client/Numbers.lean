import TsnController.Json.Numbers
import TsnController.Client.Entries
import TsnController.Client.Output

/-!
# The numbers of a schedule

A period and a gate state are taken from the document if `json_is_real` says so, converted with
`json_real`, and stored, the gate state in an `int`. The number that is stored is the one that was
written exactly if the text is zero in any form, or decimal digits without an exponent that fit the
type. `1e3` is stored as `1` and `0x10` as `0`, and neither is an error.
-/

set_option autoImplicit false

namespace TsnController
namespace Client

open CLib Lib Json

/-- The components of an element of an array in a document are nodes of the document. -/
theorem component_mem_preorder {tree : JsonTree} {a : JsonData} {r : JsonTree}
    {es : List (JsonData × JsonTree)} {e : JsonData × JsonTree} {i j : Nat}
    (h : .node a (chain es) r ∈ preorder tree) (he : es[i]? = some e)
    (hj : component e j ≠ .nil) : component e j ∈ preorder tree := by
  obtain ⟨front, back, rfl⟩ := List.append_of_mem (List.mem_of_getElem? he)
  have helem : chain (e :: back) ∈ preorder (BinaryTree.node a (chain (front ++ e :: back)) r) :=
    List.mem_cons_of_mem _ (List.mem_append_left _ (chain_mem_preorder e front back))
  exact mem_preorder_of_mem_children (preorder_trans h helem) (jsonItem_mem hj)

theorem ne_nil_of_jsonIsReal {node : JsonTree} (h : jsonIsReal node = true) : node ≠ .nil := by
  rintro rfl
  exact absurd h (by simp [jsonIsReal])

/-- **A conversion answers with the value of the number exactly if the number fits.** For every
accepted document: `json_real` and `json_integer` at every node their predicates hold of, and what
`read_values` stores for every element of an array. -/
theorem numbers_exact_iff {t : Text} {tree : JsonTree} (h : jsonParse t = some tree) :
    (∀ node ∈ preorder tree,
      (jsonIsReal node = true →
        ValueIff (jsonString node) (jsonReal node) fun n => n.magnitude.Fits ulongMax) ∧
      (jsonIsInteger node = true →
        ValueIff (jsonString node) (jsonInteger node)
          fun n => n.magnitude.FitsOrMeets n.sign.limit)) ∧
    ∀ (junk : ValuesJunk) (a : JsonData) (es : List (JsonData × JsonTree)) (r : JsonTree),
      .node a (chain es) r ∈ preorder tree → ∀ (i : Nat) (e : JsonData × JsonTree),
      es[i]? = some e → ∃ entry : PortValues,
        (readValues junk (.node a (chain es) r) (switchCreatePortValuesList junk)).held[i]?
          = some entry ∧
        (jsonIsReal (component e 0) = true →
          ValueIff (jsonString (component e 0)) entry.period
            fun n => n.magnitude.Fits ulongMax) ∧
        (jsonIsReal (component e 1) = true →
          ValueIff (jsonString (component e 1)) entry.gateStates
            fun n => n.magnitude.Fits intMax) := by
  constructor
  · intro node hn
    exact ⟨valueIff_jsonReal h hn, valueIff_jsonInteger h hn⟩
  · intro junk a es r hmem i e he
    obtain ⟨before, hbefore⟩ := getElem?_pushed junk.current he
    refine ⟨assign before e, by rw [held_readValues, hbefore], ?_, ?_⟩
    · intro hreal
      have hnode := component_mem_preorder hmem he (ne_nil_of_jsonIsReal hreal)
      rw [assign_period hreal]
      exact valueIff_jsonReal h hnode hreal
    · intro hreal
      have hnode := component_mem_preorder hmem he (ne_nil_of_jsonIsReal hreal)
      rw [assign_gateStates hreal]
      exact valueIff_toInt_jsonReal h hnode hreal

/-- Digits in range. -/
def fiveHundred : Numeral :=
  ⟨.none, .decimal ⟨['5', '0', '0'], none, none, List.all_eq_true.mp rfl, List.all_eq_true.mp rfl,
    List.cons_ne_nil _ _⟩⟩

theorem numbers_exact_five_hundred : ∃ tree, jsonParse "[[500,1]]".toList = some tree ∧
    ∃ node ∈ preorder tree, jsonString node = some fiveHundred.text ∧
      fiveHundred.value = some (jsonReal node : ℚ) := by
  obtain ⟨tree, htree, node, hnode, hreal, htext⟩ : ∃ tree,
      jsonParse "[[500,1]]".toList = some tree ∧ ∃ node ∈ preorder tree,
        jsonIsReal node = true ∧ jsonString node = some fiveHundred.text :=
    exists_of_any (by decide +kernel)
  have hvalue := (((numbers_exact_iff htree).1 node hnode).1 hreal).2 fiveHundred htext
  exact ⟨tree, htree, node, hnode, htext, hvalue.mpr (.inr ⟨rfl, by decide⟩)⟩

/-- One thousand, with an exponent. -/
def oneE3 : Numeral :=
  ⟨.none, .decimal ⟨['1'], none,
    some ⟨'e', .none, ['3'], .inl rfl, List.all_eq_true.mp rfl, List.cons_ne_nil _ _⟩,
    List.all_eq_true.mp rfl, List.all_eq_true.mp rfl, List.cons_ne_nil _ _⟩⟩

/-- Sixteen, in base sixteen. -/
def hexTen : Numeral :=
  ⟨.none, .hexadecimal 'x' (.inl rfl) ⟨['1', '0'], none, none, List.all_eq_true.mp rfl,
    List.all_eq_true.mp rfl, List.cons_ne_nil _ _⟩⟩

theorem value_oneE3 : oneE3.value = some 1000 := by
  have hvalue : oneE3.value = some (((1 : Int) : ℚ) *
      (((1 : Nat) : ℚ) / ((10 : Nat) : ℚ) ^ 0 * ((10 : Nat) : ℚ) ^ (3 : Int))) := rfl
  rw [hvalue]
  norm_num

theorem value_hexTen : hexTen.value = some 16 := by
  have hvalue : hexTen.value = some (((1 : Int) : ℚ) *
      (((16 : Nat) : ℚ) / ((16 : Nat) : ℚ) ^ 0 * ((2 : Nat) : ℚ) ^ (0 : Int))) := rfl
  rw [hvalue]
  norm_num

/-- An array whose one element is `[1e3,0x10]`. -/
def exponentAndHex : JsonData × JsonTree :=
  pairOf ⟨.number, none, some "1e3".toList⟩ ⟨.number, none, some "0x10".toList⟩

/-- A period of `1e3` and a gate state of `0x10`: accepted, stored as `1` and `0`. -/
theorem numbers_inexact :
    jsonParse "[[1e3,0x10]]".toList
      = some (.node ⟨.array, none, none⟩ (chain [exponentAndHex]) .nil) ∧
    jsonIsReal (component exponentAndHex 0) = true ∧
    jsonString (component exponentAndHex 0) = some oneE3.text ∧ oneE3.value = some 1000 ∧
    jsonReal (component exponentAndHex 0) = 1 ∧ jsonInteger (component exponentAndHex 0) = 1 ∧
    jsonIsReal (component exponentAndHex 1) = true ∧
    jsonString (component exponentAndHex 1) = some hexTen.text ∧ hexTen.value = some 16 ∧
    jsonReal (component exponentAndHex 1) = 0 ∧ jsonInteger (component exponentAndHex 1) = 0 ∧
    ∀ junk : ValuesJunk, (readValues junk (.node ⟨.array, none, none⟩ (chain [exponentAndHex]) .nil)
      (switchCreatePortValuesList junk)).held = [⟨1, 0⟩] := by
  refine ⟨by decide +kernel, rfl, rfl, value_oneE3, rfl, rfl, rfl, rfl, value_hexTen, rfl, rfl, ?_⟩
  intro junk
  have hreal : ∀ i < 2, jsonIsReal (component exponentAndHex i) = true := by decide
  have hperiod : jsonReal (component exponentAndHex 0) = 1 := rfl
  have hgates : toInt (jsonReal (component exponentAndHex 1)) = 0 := by decide +kernel
  rw [held_readValues, pushed, pushed, assign, if_pos (hreal 0 (by decide)),
    if_pos (hreal 1 (by decide)), hperiod, hgates]

end Client
end TsnController

import TsnController.Json.Items
import TsnController.Client.Read

/-!
# One entry of a schedule

`read_values` keeps one local record for the whole array, declared in front of the loop and never
reset, and assigns each of its two fields only if the component is what it should be. The record it
pushes for an element is therefore the element's own where both components are numbers, and
otherwise partly that of an element before it, or of whatever stood in memory.

The two runs compared here share nothing but the one element: the arrays around it, the node they
hang from and the memory may all differ.
-/

set_option autoImplicit false

namespace TsnController
namespace Client

open CLib Lib Json

/-- The component of an array element that `json_item(node, i)` finds. -/
def component (e : JsonData × JsonTree) (i : Nat) : JsonTree := jsonItem (.node e.1 e.2 .nil) i

/-- What an iteration makes of the local record. -/
def assign (current : PortValues) (e : JsonData × JsonTree) : PortValues where
  period := if jsonIsReal (component e 0) then jsonReal (component e 0) else current.period
  gateStates :=
    if jsonIsReal (component e 1) then toInt (jsonReal (component e 1)) else current.gateStates

theorem assign_period {e : JsonData × JsonTree} (h : jsonIsReal (component e 0) = true)
    (current : PortValues) : (assign current e).period = jsonReal (component e 0) := if_pos h

theorem assign_gateStates {e : JsonData × JsonTree} (h : jsonIsReal (component e 1) = true)
    (current : PortValues) :
    (assign current e).gateStates = toInt (jsonReal (component e 1)) := if_pos h

/-- Both fields are assigned. -/
def Complete (e : JsonData × JsonTree) : Prop :=
  jsonIsReal (component e 0) = true ∧ jsonIsReal (component e 1) = true

/-- The records pushed for the elements of an array. -/
def pushed : PortValues → List (JsonData × JsonTree) → List PortValues
  | _, [] => []
  | current, e :: es => assign current e :: pushed (assign current e) es

theorem readValuesLoop_node (e : JsonData × JsonTree) (r : JsonTree) (current : PortValues)
    (list : CellList PortValues) : readValuesLoop (.node e.1 e.2 r) current list =
      readValuesLoop r (assign current e) (portValuesPush list (assign current e)) := by
  have hitem : ∀ i, jsonItem (.node e.1 e.2 r) i = component e i := fun _ => rfl
  rw [readValuesLoop]
  simp only [hitem, assign]
  by_cases h₀ : jsonIsReal (component e 0) = true
  · by_cases h₁ : jsonIsReal (component e 1) = true
    · simp only [h₀, h₁, if_true]
    · simp only [h₀, h₁, if_true, if_false, Bool.false_eq_true]
  · by_cases h₁ : jsonIsReal (component e 1) = true
    · simp only [h₀, h₁, if_true, if_false, Bool.false_eq_true]
    · simp only [h₀, h₁, if_false, Bool.false_eq_true]

theorem held_readValuesLoop (es : List (JsonData × JsonTree)) :
    ∀ (current : PortValues) (list : CellList PortValues),
      (readValuesLoop (chain es) current list).held = list.held ++ pushed current es := by
  induction es with
  | nil => intro current list; exact (List.append_nil _).symm
  | cons e es ih =>
    intro current list
    rw [chain_cons, readValuesLoop_node, ih, portValuesPush, CellList.held_push, pushed,
      List.append_assoc]
    rfl

/-- What `read_values` pushes for the children of a node. -/
theorem held_readValues (junk : ValuesJunk) (a : JsonData) (es : List (JsonData × JsonTree))
    (r : JsonTree) :
    (readValues junk (.node a (chain es) r) (switchCreatePortValuesList junk)).held
      = pushed junk.current es := by
  rw [readValues, jsonItem_zero]
  exact held_readValuesLoop es junk.current (switchCreatePortValuesList junk)

/-- The record pushed for an element is made from the element and what the record held then. -/
theorem getElem?_pushed {e : JsonData × JsonTree} : ∀ {es : List (JsonData × JsonTree)}
    (current : PortValues) {i : Nat}, es[i]? = some e →
      ∃ before, (pushed current es)[i]? = some (assign before e) := by
  intro es
  induction es with
  | nil => intro current i h; exact absurd h (by simp)
  | cons d es ih =>
    intro current i h
    cases i with
    | zero =>
      obtain rfl : d = e := Option.some.inj h
      exact ⟨current, rfl⟩
    | succ i => exact ih (assign current d) h

theorem Complete.assign_eq {e : JsonData × JsonTree} (h : Complete e)
    (current current' : PortValues) : assign current e = assign current' e := by
  unfold assign
  rw [if_pos h.1, if_pos h.1, if_pos h.2, if_pos h.2]

/-- **An entry is its element's own exactly if both components are numbers** as `json_is_real` has
it. Then it is the same in any two runs that have the element at that position; otherwise there
are two runs in which it differs. -/
theorem readValues_entry_iff (e : JsonData × JsonTree) :
    (∀ (junk junk' : ValuesJunk) (a a' : JsonData) (r r' : JsonTree)
      (es es' : List (JsonData × JsonTree)) (i : Nat), es[i]? = some e → es'[i]? = some e →
      (readValues junk (.node a (chain es) r) (switchCreatePortValuesList junk)).held[i]?
        = (readValues junk' (.node a' (chain es') r') (switchCreatePortValuesList junk')).held[i]?)
      ↔ Complete e := by
  constructor
  · intro h
    -- The element alone in its array, with two different memories.
    have hsame : assign ⟨0, 0⟩ e = assign ⟨1, 1⟩ e := by
      have hruns := h { (default : ValuesJunk) with current := ⟨0, 0⟩ }
        { (default : ValuesJunk) with current := ⟨1, 1⟩ } {} {} .nil .nil [e] [e] 0 rfl rfl
      rw [held_readValues, held_readValues] at hruns
      exact Option.some.inj hruns
    constructor
    · by_contra hreal
      have hperiod := congrArg PortValues.period hsame
      simp [assign, hreal] at hperiod
    · by_contra hreal
      have hgates := congrArg PortValues.gateStates hsame
      simp [assign, hreal] at hgates
  · intro h junk junk' a a' r r' es es' i hi hi'
    rw [held_readValues, held_readValues]
    obtain ⟨before, hbefore⟩ := getElem?_pushed junk.current hi
    obtain ⟨before', hbefore'⟩ := getElem?_pushed junk'.current hi'
    rw [hbefore, hbefore', h.assign_eq before before']

/-- An array of two scalars. -/
def pairOf (first second : JsonData) : JsonData × JsonTree :=
  (⟨.array, none, none⟩, chain [(first, .nil), (second, .nil)])

/-- Two arrays with the same second element `["x", 2]`. Whatever is in memory, its period is the
period of the first. -/
theorem readValues_keeps_period :
    ∃ (e : JsonData × JsonTree) (es es' : List (JsonData × JsonTree)),
      es[1]? = some e ∧ es'[1]? = some e ∧
      jsonParse "[[5,1],[\"x\",2]]".toList
        = some (.node ⟨.array, none, none⟩ (chain es) .nil) ∧
      jsonParse "[[7,1],[\"x\",2]]".toList
        = some (.node ⟨.array, none, none⟩ (chain es') .nil) ∧
      ∀ junk : ValuesJunk,
        (readValues junk (.node ⟨.array, none, none⟩ (chain es) .nil)
          (switchCreatePortValuesList junk)).held[1]?
        ≠ (readValues junk (.node ⟨.array, none, none⟩ (chain es') .nil)
          (switchCreatePortValuesList junk)).held[1]? := by
  refine ⟨pairOf ⟨.string, none, some ['x']⟩ ⟨.number, none, some ['2']⟩,
    [pairOf ⟨.number, none, some ['5']⟩ ⟨.number, none, some ['1']⟩,
      pairOf ⟨.string, none, some ['x']⟩ ⟨.number, none, some ['2']⟩],
    [pairOf ⟨.number, none, some ['7']⟩ ⟨.number, none, some ['1']⟩,
      pairOf ⟨.string, none, some ['x']⟩ ⟨.number, none, some ['2']⟩],
    rfl, rfl, by decide +kernel, by decide +kernel, ?_⟩
  intro junk hsame
  rw [held_readValues, held_readValues] at hsame
  have hperiod := congrArg (Option.map PortValues.period) hsame
  have hfive : (5 : Nat) = 7 := Option.some.inj hperiod
  exact absurd hfive (by decide)

end Client
end TsnController

import TsnController.Client.Lists
import TsnController.Json.Access
import TsnController.Json.Invariant

/-!
# `Main.c`: reading the configuration

`read_json` is called on every node of the parsed document. On a node that has a string named
`switch` it builds a switch and pushes it, on any other it does nothing; if that node has no array
named `port_list` it ends the program on the spot.

`read_all` below is the whole visit: the switches that end up in the list are the nodes selected
from the document in its order, or the program has exited. That nothing can be lost half way rests
on `json_foreach` visiting every node once and on the fact that a visit either pushes one switch or
leaves the list as it is (`readJson_eq`).
-/

set_option autoImplicit false

namespace TsnController
namespace Client

open CLib Lib Json

/-- `strcpy` into a buffer of `size` characters. -/
def strcpy (size : Nat) : Option Text → Except Halt Text
  | none => .error .undefined
  | some src => if src.length < size then .ok src else .error .undefined

theorem strcpy_ok {size : Nat} {src : Text} (h : src.length < size) :
    strcpy size (some src) = .ok src := by
  unfold strcpy
  exact if_pos h

/-- The `while` of `read_values`. `current` is the local record: a field that a pair does not set
keeps what the pair before it has left there. -/
def readValuesLoop : JsonTree → PortValues → CellList PortValues → CellList PortValues
  | .nil, _, list => list
  | .node a l r, current, list =>
    let data := jsonItem (.node a l r) 0
    let current := if jsonIsReal data then { current with period := jsonReal data } else current
    let data := jsonItem (.node a l r) 1
    let current :=
      if jsonIsReal data then { current with gateStates := toInt (jsonReal data) } else current
    readValuesLoop r current (portValuesPush list current)

def readValues (junk : ValuesJunk) (node : JsonTree) (list : CellList PortValues) :
    CellList PortValues :=
  readValuesLoop (jsonItem node 0) junk.current list

/-- The body of the loop over the ports. -/
def readPort (junk : ValuesJunk) (nPort : JsonTree) : Port where
  number := toInt (jsonReal (jsonNode nPort "port_number".toList))
  values := readValues junk (jsonNode nPort "values".toList) (switchCreatePortValuesList junk)

/-- The loop over the ports: `json_item` is asked for one index after the other. -/
def readPorts (junk : PortsJunk) (dataPortList : JsonTree) : CellList Port :=
  (List.range (jsonItems dataPortList)).foldl
    (fun ports i => portPush ports (readPort (junk.values i) (jsonItem dataPortList i)))
    (switchCreatePortList junk)

def readJson (junk : Junk) (node : JsonTree) (list : CellList Switch) :
    Except Halt (CellList Switch) :=
  let dataSwitch := jsonNode node "switch".toList
  if jsonIsString dataSwitch then do
    let name ← strcpy maxSwitchNameLength (jsonString dataSwitch)
    let dataPortList := jsonNode node "port_list".toList
    if jsonIsArray dataPortList then
      .ok (switchPush list ⟨name, readPorts (junk.ports list.held.length) dataPortList⟩)
    else .error (.exit 1)
  else .ok list

/-- The call in `main`. -/
def readAll (junk : Junk) (node : JsonTree) : Except Halt (CellList Switch) :=
  jsonForeach (readJson junk) node (switchCreateList junk)

/-! ## Ports -/

/-- Asking for one index after the other gives the items. -/
theorem map_jsonItem_range (node : JsonTree) :
    (List.range (jsonItems node)).map (jsonItem node) = children node := by
  rw [jsonItems_eq]
  apply List.ext_getElem?
  intro i
  rw [List.getElem?_map]
  by_cases hi : i < (children node).length
  · rw [List.getElem?_range hi, List.getElem?_eq_getElem hi, Option.map_some, jsonItem_eq,
      List.getElem?_eq_getElem hi, Option.getD_some]
  · rw [List.getElem?_eq_none (by simpa using hi), List.getElem?_eq_none (by simpa using hi)]
    rfl

theorem map_range_jsonItem {β : Type} (f : Nat → JsonTree → β) (node : JsonTree) :
    (List.range (jsonItems node)).map (fun i => f i (jsonItem node i)) =
      (children node).mapIdx f := by
  rw [← map_jsonItem_range]
  apply List.ext_getElem
  · simp
  · intro i _ _
    simp

/-- The loop over indices is a loop over the items. -/
theorem readPorts_eq (junk : PortsJunk) (node : JsonTree) :
    readPorts junk node = ((children node).mapIdx fun i => readPort (junk.values i)).foldl
      portPush (switchCreatePortList junk) := by
  rw [← map_range_jsonItem, List.foldl_map]
  rfl

theorem held_readPorts (junk : PortsJunk) (node : JsonTree) :
    (readPorts junk node).held = (children node).mapIdx fun i => readPort (junk.values i) := by
  have hheld := CellList.held_foldl_push id
    ((children node).mapIdx fun i => readPort (junk.values i)) (switchCreatePortList junk)
  rw [List.map_id] at hheld
  rw [readPorts_eq]
  exact hheld

/-! ## Switches -/

/-- `read_json` has something to do at the node. -/
def isSwitch (node : JsonTree) : Bool := jsonIsString (jsonNode node "switch".toList)

def hasPorts (node : JsonTree) : Bool := jsonIsArray (jsonNode node "port_list".toList)

/-- The name fits its buffer. -/
def ShortName (node : JsonTree) : Prop :=
  ∀ name ∈ jsonString (jsonNode node "switch".toList), name.length ≤ 19

instance : DecidablePred ShortName := fun node =>
  inferInstanceAs (Decidable (∀ name ∈ jsonString (jsonNode node "switch".toList), _))

/-- The switch a node describes. -/
def switchOf (junk : PortsJunk) (node : JsonTree) : Switch where
  name := (jsonString (jsonNode node "switch".toList)).getD []
  portList := readPorts junk (jsonNode node "port_list".toList)

theorem jsonString_eq_switchOf (junk : PortsJunk) {node : JsonTree}
    (hvalue : jsonString (jsonNode node "switch".toList) ≠ none) :
    jsonString (jsonNode node "switch".toList) = some (switchOf junk node).name := by
  obtain ⟨name, hname⟩ := Option.ne_none_iff_exists'.mp hvalue
  unfold switchOf
  rw [hname]
  rfl

/-- One visit, on a node whose string has a value. -/
theorem readJson_eq {junk : Junk} {node : JsonTree} (list : CellList Switch)
    (hvalue : isSwitch node = true → jsonString (jsonNode node "switch".toList) ≠ none)
    (hname : isSwitch node = true → ShortName node) :
    readJson junk node list =
      if isSwitch node then
        if hasPorts node then .ok (switchPush list (switchOf (junk.ports list.held.length) node))
        else .error (.exit 1)
      else .ok list := by
  unfold readJson
  show (if isSwitch node then _ else _) = _
  by_cases hs : isSwitch node = true
  · rw [if_pos hs, if_pos hs]
    have hn := jsonString_eq_switchOf (junk.ports list.held.length) (hvalue hs)
    have hlen : (switchOf (junk.ports list.held.length) node).name.length < maxSwitchNameLength :=
      Nat.lt_succ_of_le (hname hs _ hn)
    rw [hn, strcpy_ok hlen]
    rfl
  · rw [if_neg hs, if_neg hs]

/-- **The whole visit.** Of the nodes still to come, one without ports ends the program; otherwise
their switches are pushed in order. -/
theorem foldlM_readJson {junk : Junk} (nodes : List JsonTree)
    (hvalue : ∀ n ∈ nodes, isSwitch n = true → jsonString (jsonNode n "switch".toList) ≠ none)
    (hname : ∀ n ∈ nodes, isSwitch n = true → ShortName n) : ∀ list : CellList Switch,
    ((∃ n ∈ nodes, isSwitch n = true ∧ hasPorts n = false) →
      nodes.foldlM (fun list node => readJson junk node list) list = .error (.exit 1)) ∧
    ((∀ n ∈ nodes, isSwitch n = true → hasPorts n = true) →
      ∃ list', nodes.foldlM (fun list node => readJson junk node list) list = .ok list' ∧
        list'.held = list.held ++ (nodes.filter isSwitch).mapIdx fun i =>
          switchOf (junk.ports (list.held.length + i))) := by
  induction nodes with
  | nil =>
    intro list
    refine ⟨fun h => ?_, fun _ => ⟨list, rfl, by simp⟩⟩
    obtain ⟨n, hn, _⟩ := h
    exact absurd hn (by simp)
  | cons n nodes ih =>
    intro list
    have hih := ih (fun m hm => hvalue m (List.mem_cons_of_mem n hm))
      (fun m hm => hname m (List.mem_cons_of_mem n hm))
    rw [List.foldlM_cons, readJson_eq list (hvalue n (by simp)) (hname n (by simp))]
    by_cases hs : isSwitch n = true
    · rw [if_pos hs]
      by_cases hp : hasPorts n = true
      · rw [if_pos hp, List.filter_cons_of_pos hs, List.mapIdx_cons]
        obtain ⟨hbad, hgood⟩ := hih (switchPush list (switchOf (junk.ports list.held.length) n))
        refine ⟨fun h => ?_, fun h => ?_⟩
        · apply hbad
          obtain ⟨m, hm, hms, hmp⟩ := h
          rcases List.mem_cons.mp hm with rfl | hm
          · exact absurd hp (by simp [hmp])
          · exact ⟨m, hm, hms, hmp⟩
        · obtain ⟨list', hfold, hheld⟩ := hgood (fun m hm => h m (List.mem_cons_of_mem n hm))
          refine ⟨list', hfold, ?_⟩
          rw [hheld, switchPush, CellList.held_push, List.length_append, List.append_assoc]
          simp only [List.length_singleton, Nat.add_assoc, Nat.add_comm 1, Nat.add_zero]
          rfl
      · rw [if_neg hp]
        refine ⟨fun _ => rfl, fun h => ?_⟩
        exact absurd (h n (by simp) hs) hp
    · rw [if_neg hs, List.filter_cons_of_neg hs]
      obtain ⟨hbad, hgood⟩ := hih list
      refine ⟨fun h => ?_, fun h => hgood (fun m hm => h m (List.mem_cons_of_mem n hm))⟩
      apply hbad
      obtain ⟨m, hm, hms, hmp⟩ := h
      rcases List.mem_cons.mp hm with rfl | hm
      · exact absurd hms hs
      · exact ⟨m, hm, hms, hmp⟩

/-! ## Accepted documents -/

/-- In a typed tree every scalar has its value. -/
theorem value_of_mem_preorder {t n : JsonTree} {par : Option JsonData} {first : Bool}
    (h : Everywhere Settled par first t) (hn : n ∈ preorder t)
    (hs : (jsonType n).isScalar = true) : jsonString n ≠ none := by
  cases n with
  | nil => exact absurd hs (by simp [jsonType, JsonType.isScalar])
  | node d l r =>
    obtain ⟨_, _, htyped, _⟩ := everywhere_of_mem_preorder h hn
    intro hnone
    have hv := htyped.value.mpr hs
    rw [show d.value = none from hnone] at hv
    exact absurd hv (by simp)

/-- The string `read_json` copies is there. -/
theorem switchName_ne_none {t : Text} {tree n : JsonTree} (h : jsonParse t = some tree)
    (hn : n ∈ preorder tree) (hs : isSwitch n = true) :
    jsonString (jsonNode n "switch".toList) ≠ none := by
  have htype : jsonType (jsonNode n "switch".toList) = .string := by
    unfold isSwitch jsonIsString at hs
    exact eq_of_beq hs
  have hmem : jsonNode n "switch".toList ∈ preorder tree := by
    apply mem_preorder_of_mem_children hn
    apply jsonNode_mem
    intro hnil
    rw [hnil] at htype
    exact absurd htype (by simp [jsonType])
  apply value_of_mem_preorder (jsonParse_settled h) hmem
  rw [htype]
  rfl

/-- An array has an item, if only the empty node of an empty one. -/
theorem children_ne_nil {t : Text} {tree n : JsonTree} (h : jsonParse t = some tree)
    (hn : n ∈ preorder tree) (hs : jsonIsArray n = true) : children n ≠ [] := by
  cases n with
  | nil => exact absurd hs (by decide)
  | node d l r =>
    obtain ⟨_, _, htyped, _⟩ := everywhere_of_mem_preorder (jsonParse_settled h) hn
    have htype : d.type = .array := eq_of_beq hs
    have hleft : hasRoot l = true := htyped.left.mpr (by rw [htype]; rfl)
    cases l with
    | nil => exact absurd hleft (by simp [hasRoot])
    | node _ _ _ => exact List.cons_ne_nil _ _

/-- So a switch has a port, whatever its document says. -/
theorem held_switchOf_ne_nil {junk : PortsJunk} {t : Text} {tree n : JsonTree}
    (h : jsonParse t = some tree) (hn : n ∈ preorder tree) (hp : hasPorts n = true) :
    (switchOf junk n).portList.held ≠ [] := by
  have hmem : jsonNode n "port_list".toList ∈ preorder tree := by
    apply mem_preorder_of_mem_children hn
    apply jsonNode_mem
    intro hnil
    rw [hasPorts, hnil] at hp
    exact absurd hp (by decide)
  rw [switchOf, held_readPorts]
  exact mt List.mapIdx_eq_nil_iff.mp (children_ne_nil h hmem hp)

/-- What `read_json` has pushed when it did not end the program. -/
theorem readAll_held (junk : Junk) {t : Text} {tree : JsonTree} (h : jsonParse t = some tree)
    (hname : ∀ n ∈ preorder tree, isSwitch n = true → ShortName n)
    (hports : ∀ n ∈ preorder tree, isSwitch n = true → hasPorts n = true) :
    ∃ list, readAll junk tree = .ok list ∧
      list.held = ((preorder tree).filter isSwitch).mapIdx fun k => switchOf (junk.ports k) := by
  have hvalue := fun n hn => switchName_ne_none (n := n) h hn
  obtain ⟨list, hfold, hheld⟩ :=
    (foldlM_readJson (preorder tree) hvalue hname (switchCreateList junk)).2 hports
  refine ⟨list, ?_, ?_⟩
  · unfold readAll
    rw [jsonForeach_eq]
    exact hfold
  · rw [hheld, switchCreateList, CellList.held_create, List.nil_append]
    simp only [List.length_nil, Nat.zero_add]

/-- A selected node without an array of ports ends the program. -/
theorem readAll_exits (junk : Junk) {t : Text} {tree : JsonTree} (h : jsonParse t = some tree)
    (hname : ∀ n ∈ preorder tree, isSwitch n = true → ShortName n)
    (hbad : ∃ n ∈ preorder tree, isSwitch n = true ∧ hasPorts n = false) :
    readAll junk tree = .error (.exit 1) := by
  have hvalue := fun n hn => switchName_ne_none (n := n) h hn
  unfold readAll
  rw [jsonForeach_eq]
  exact (foldlM_readJson (preorder tree) hvalue hname (switchCreateList junk)).1 hbad

end Client
end TsnController

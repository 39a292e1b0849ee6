import Mathlib.Data.List.Find
import TsnController.Client.EndToEnd

/-!
# The order of the members

The client looks its members up by name, and it walks over the whole document in the order in
which it is written. The first suggests that the order of the members of an object does not
matter, the second that it might. This module compares two runs: on a configuration, and on one
that differs from it in the order of the members of its switches and ports and in the members
nobody asks for.

`Rearranged` is stated about all objects at once, and about what the client can find in them
(`looked`): the members of the names it asks for are a permutation of each other, the other ones
are arbitrary. `readAll_rearranged` is the comparison. It goes from the outside in: the visit
amounts to one call of `read_json` for each switch (`readAll_eq`), a call depends on two members
of its object (`readJson_eq_members`), and a port on two members of its own (`portOf_eq`).

The result of a lookup still has the rest of its chain to its right, which does depend on the
order. `cut` takes it away, and nothing the client does with such a node notices.
-/

set_option autoImplicit false

namespace TsnController
namespace Client

open CLib Lib Json

/-! ## What may be changed -/

/-- The members of the names that are asked for. -/
def looked (names : List Text) (ms : List (Quoted × Value)) : List (Quoted × Value) :=
  ms.filter fun m => m.1.content ∈ names

def switchNames : List Text := ["switch".toList, "port_list".toList]

def portNames : List Text := ["port_number".toList, "values".toList]

/-- A port object with its members in another order, others added or taken away. -/
inductive PortRearranged : Value → Value → Prop
  | same (v : Value) : PortRearranged v v
  | object {ms ms' : List (Quoted × Value)} : (looked portNames ms).Perm (looked portNames ms') →
      PortRearranged (.object ms) (.object ms')

/-- A member of a switch object, with the ports in it rearranged. -/
inductive MemberRearranged : Quoted × Value → Quoted × Value → Prop
  | same (m : Quoted × Value) : MemberRearranged m m
  | ports {q : Quoted} {ps ps' : List Value} : q.content = "port_list".toList →
      List.Forall₂ PortRearranged ps ps' → MemberRearranged (q, .array ps) (q, .array ps')

/-- The same for a switch object, and in its ports. -/
inductive SwitchRearranged : Value → Value → Prop
  | object {ms ms' ns : List (Quoted × Value)} : (looked switchNames ms).Perm ns →
      List.Forall₂ MemberRearranged ns (looked switchNames ms') →
      SwitchRearranged (.object ms) (.object ms')

/-- The same for a document, in any of its switches. -/
inductive Rearranged : Value → Value → Prop
  | array {vs vs' : List Value} : List.Forall₂ SwitchRearranged vs vs' →
      Rearranged (.array vs) (.array vs')

/-! ## Where -/

/-- An object's member names are distinct. -/
def DistinctNames (v : Value) : Prop :=
  ∀ ms, v = .object ms → (ms.map fun m => m.1.content).Nodup

/-- No object inside is taken for a switch. -/
def Flat (v : Value) : Prop := ∀ ms, v = .object ms → ∀ m ∈ ms, Quiet m.2

/-- A switch object: what is asked of a configuration, and distinct names in it and in its ports. -/
structure SwitchShaped (v : Value) : Prop where
  selected : Selected v
  flat : Flat v
  distinct : DistinctNames v
  ports : ∀ ps, member v "port_list".toList = some (.array ps) → ∀ p ∈ ps, DistinctNames p

/-- A configuration with distinct names. -/
inductive ConfigShaped : Value → Prop
  | array {vs : List Value} : (∀ v ∈ vs, SwitchShaped v) → ConfigShaped (.array vs)

/-- What is known of the other document: nothing that was added hides a switch. -/
inductive FlatArray : Value → Prop
  | array {vs : List Value} : (∀ v ∈ vs, Flat v) → FlatArray (.array vs)

/-! ## Lookups -/

section Lookup

variable {names : List Text} {name : Text} {ms ms' ns : List (Quoted × Value)}

theorem member_eq_looked (hname : name ∈ names) : member (.object ms) name =
    ((looked names ms).find? fun m => m.1.content = name).map (·.2) := by
  show (ms.find? fun m => m.1.content = name).map (·.2) = _
  rw [looked, List.find?_filter]
  refine congrArg (Option.map Prod.snd) (List.find?_congr fun m _ => ?_)
  by_cases h : m.1.content = name
  · simp [h, hname]
  · simp [h]

/-- Where the names are distinct, the first member of a name is the only one. -/
theorem find?_perm (hnodup : (ms.map fun m => m.1.content).Nodup)
    (h : (looked names ms).Perm ns) :
    (looked names ms).find? (fun m => m.1.content = name) =
      ns.find? fun m => m.1.content = name := by
  refine List.find?_eq_find?_of_perm h fun x hx y hy => ?_
  have hkeys : ((looked names ms).map fun m => m.1.content).Nodup :=
    hnodup.sublist (List.filter_sublist.map _)
  have hxy : x.1.content = y.1.content :=
    (of_decide_eq_true hx.2).trans (of_decide_eq_true hy.2).symm
  exact List.inj_on_of_nodup_map hkeys hx.1 hy.1 hxy

theorem MemberRearranged.content_eq {m m' : Quoted × Value} (h : MemberRearranged m m') :
    m.1.content = m'.1.content := by
  cases h with
  | same m => rfl
  | ports _ _ => rfl

theorem find?_rearranged (name : Text) (h : List.Forall₂ MemberRearranged ns ms') :
    Option.Rel MemberRearranged (ns.find? fun m => m.1.content = name)
      (ms'.find? fun m => m.1.content = name) := by
  induction h with
  | nil => exact .none
  | @cons m m' ns ms' hm _ ih =>
    by_cases hc : m.1.content = name
    · have hc' : m'.1.content = name := hm.content_eq ▸ hc
      rw [List.find?_cons_of_pos (by simpa using hc), List.find?_cons_of_pos (by simpa using hc')]
      exact .some hm
    · have hc' : ¬ m'.1.content = name := hm.content_eq ▸ hc
      rw [List.find?_cons_of_neg (by simpa using hc), List.find?_cons_of_neg (by simpa using hc')]
      exact ih

end Lookup

theorem PortRearranged.member_eq {v v' : Value} (h : PortRearranged v v')
    (hd : DistinctNames v) (name : Text) (hname : name ∈ portNames) :
    member v name = member v' name := by
  cases h with
  | same => rfl
  | object hperm =>
    rw [member_eq_looked hname, member_eq_looked hname, find?_perm (hd _ rfl) hperm]

/-- What is found under a name is the same, up to a rearrangement of the ports. -/
theorem SwitchRearranged.member_rel {v v' : Value} (h : SwitchRearranged v v')
    (hd : DistinctNames v) (name : Text) (hname : name ∈ switchNames) :
    member v name = member v' name ∨ name = "port_list".toList ∧ ∃ ps ps',
      member v name = some (.array ps) ∧ member v' name = some (.array ps') ∧
      List.Forall₂ PortRearranged ps ps' := by
  cases h with
  | @object ms ms' ns hperm hall =>
    have hrel := find?_rearranged name hall
    rw [← find?_perm (hd _ rfl) hperm] at hrel
    rw [member_eq_looked hname, member_eq_looked hname]
    generalize hfound : (looked switchNames ms).find? (fun m => m.1.content = name) = found at hrel
    generalize (looked switchNames ms').find? (fun m => m.1.content = name) = found' at hrel
    cases hrel with
    | none => exact Or.inl rfl
    | some hm =>
      cases hm with
      | same m => exact Or.inl rfl
      | @ports q ps ps' hq hps =>
        have hcontent : q.content = name := by simpa using List.find?_some hfound
        exact Or.inr ⟨hcontent.symm.trans hq, ps, ps', rfl, rfl, hps⟩

theorem SwitchRearranged.member_switch {v v' : Value} (h : SwitchRearranged v v')
    (hd : DistinctNames v) : member v "switch".toList = member v' "switch".toList := by
  rcases h.member_rel hd "switch".toList (by simp [switchNames]) with heq | ⟨hne, _⟩
  · exact heq
  · exact absurd hne (by decide)

/-! ## What the client does with a member -/

/-- A node without what stands to its right. -/
def cut : JsonTree → JsonTree
  | .nil => .nil
  | .node a l _ => .node a l .nil

/-- The node of a member, alone. -/
def memberTree (v : Value) (name : Text) : JsonTree :=
  match member v name with
  | none => .nil
  | some w => .node (w.data (some name)) w.children .nil

theorem cut_jsonNode (v : Value) (name : Text) (a : JsonData) (r : JsonTree) :
    cut (jsonNode (.node a v.children r) name) = memberTree v name := by
  show cut (jsonNodeLoop name v.children) = _
  unfold memberTree
  cases h : member v name with
  | none => rw [jsonNodeLoop_no_member h]; rfl
  | some w =>
    obtain ⟨r', hr'⟩ := jsonNodeLoop_member h
    rw [hr']
    rfl

theorem memberTree_congr {v v' : Value} {name : Text} (h : member v name = member v' name) :
    memberTree v name = memberTree v' name := by
  unfold memberTree
  rw [h]

section Cut

variable (n : JsonTree)

theorem jsonReal_cut : jsonReal (cut n) = jsonReal n := by cases n <;> rfl

theorem jsonIsString_cut : jsonIsString (cut n) = jsonIsString n := by cases n <;> rfl

theorem jsonString_cut : jsonString (cut n) = jsonString n := by cases n <;> rfl

theorem jsonIsArray_cut : jsonIsArray (cut n) = jsonIsArray n := by cases n <;> rfl

theorem readValues_cut (junk : ValuesJunk) (list : CellList PortValues) :
    readValues junk (cut n) list = readValues junk n list := by cases n <;> rfl

theorem readPorts_cut (junk : PortsJunk) : readPorts junk (cut n) = readPorts junk n := by
  cases n <;> rfl

end Cut

/-- What is read of a port object, wherever it stands. -/
def portOf (junk : ValuesJunk) (v : Value) : Port := readPort junk (.node {} v.children .nil)

theorem portOf_eq (junk : ValuesJunk) (v : Value) : portOf junk v =
    ⟨toInt (jsonReal (memberTree v "port_number".toList)),
      readValues junk (memberTree v "values".toList) (switchCreatePortValuesList junk)⟩ := by
  rw [← cut_jsonNode v "port_number".toList {} .nil, ← cut_jsonNode v "values".toList {} .nil,
    jsonReal_cut, readValues_cut]
  rfl

theorem PortRearranged.portOf_eq (junk : ValuesJunk) {v v' : Value} (h : PortRearranged v v')
    (hd : DistinctNames v) : portOf junk v = portOf junk v' := by
  rw [Client.portOf_eq, Client.portOf_eq,
    memberTree_congr (h.member_eq hd "port_number".toList (by simp [portNames])),
    memberTree_congr (h.member_eq hd "values".toList (by simp [portNames]))]

/-- The ports of an array, as far as it has elements. -/
theorem mapIdx_readPort_array (junk : Nat → ValuesJunk) {ps : List Value} (h : ps ≠ [])
    (a : JsonData) (r : JsonTree) :
    ((children (.node a (Value.array ps).children r)).mapIdx fun i => readPort (junk i)) =
      ps.mapIdx fun i => portOf (junk i) := by
  rw [show children (.node a (Value.array ps).children r) = siblings (elemChain ps) by
    rw [← children_of_ne_nil h]; rfl]
  clear h
  induction ps generalizing junk with
  | nil => rfl
  | cons p ps ih =>
    rw [List.mapIdx_cons, ← ih fun i => junk (i + 1)]
    exact List.mapIdx_cons

theorem readPorts_rearranged (junk : PortsJunk) {ps ps' : List Value}
    (h : List.Forall₂ PortRearranged ps ps') (hd : ∀ p ∈ ps, DistinctNames p) (a : JsonData)
    (r : JsonTree) : readPorts junk (.node a (Value.array ps).children r) =
      readPorts junk (.node a (Value.array ps').children r) := by
  have hmap : ∀ junk : Nat → ValuesJunk, (ps.mapIdx fun i => portOf (junk i)) =
      ps'.mapIdx fun i => portOf (junk i) := by
    induction h with
    | nil => exact fun _ => rfl
    | @cons p p' ps ps' hp _ ih =>
      intro junk
      rw [List.mapIdx_cons, List.mapIdx_cons, hp.portOf_eq (junk 0) (hd p List.mem_cons_self),
        ih (fun q hq => hd q (List.mem_cons_of_mem p hq)) fun i => junk (i + 1)]
  cases h with
  | nil => rfl
  | cons _ _ =>
    rw [readPorts_eq, readPorts_eq, mapIdx_readPort_array junk.values (by simp),
      mapIdx_readPort_array junk.values (by simp), hmap]

/-! ## One switch -/

/-- A visit that finds a switch depends on two members. -/
theorem readJson_eq_members (junk : Junk) (v : Value) (a : JsonData) (r : JsonTree)
    (list : CellList Switch) : readJson junk (.node a v.children r) list =
      if jsonIsString (memberTree v "switch".toList) then do
        let name ← strcpy maxSwitchNameLength (jsonString (memberTree v "switch".toList))
        if jsonIsArray (memberTree v "port_list".toList) then
          .ok (switchPush list
            ⟨name, readPorts (junk.ports list.held.length) (memberTree v "port_list".toList)⟩)
        else .error (.exit 1)
      else .ok list := by
  rw [← cut_jsonNode v "switch".toList a r, ← cut_jsonNode v "port_list".toList a r,
    jsonIsString_cut, jsonString_cut, jsonIsArray_cut, readPorts_cut]
  rfl

theorem readJson_rearranged (junk : Junk) {v v' : Value} (h : SwitchRearranged v v')
    (hv : SwitchShaped v) (a : JsonData) (r : JsonTree) (list : CellList Switch) :
    readJson junk (.node a v.children r) list = readJson junk (.node a v'.children r) list := by
  rw [readJson_eq_members, readJson_eq_members, memberTree_congr (h.member_switch hv.distinct)]
  rcases h.member_rel hv.distinct "port_list".toList (by simp [switchNames]) with
    heq | ⟨_, ps, ps', hps, hps', hall⟩
  · rw [memberTree_congr heq]
  · have htree : memberTree v "port_list".toList =
        .node ((Value.array ps).data (some "port_list".toList)) (Value.array ps).children .nil := by
      unfold memberTree
      rw [hps]
    have htree' : memberTree v' "port_list".toList =
        .node ((Value.array ps).data (some "port_list".toList)) (Value.array ps').children
          .nil := by
      unfold memberTree
      rw [hps']
      rfl
    rw [htree, htree', readPorts_rearranged _ hall (hv.ports ps hps)]
    rfl

/-! ## The whole document -/

/-- A visit that finds nothing leaves the list alone, so only the selected nodes count, and of
these only what hangs below them. -/
theorem readAll_eq_switchNodes (junk : Junk) (t : JsonTree) : readAll junk t =
    (switchNodes t).foldlM (fun list l => readJson junk (.node {} l .nil) list)
      (switchCreateList junk) := by
  have hvisit : (fun (list : CellList Switch) (n : JsonTree) => readJson junk n list) =
      fun list n => if isSwitch n then readJson junk n list else pure list := by
    funext list n
    by_cases hs : isSwitch n = true
    · rw [if_pos hs]
    · rw [if_neg hs]
      exact if_neg hs
  unfold readAll switchNodes
  rw [jsonForeach_eq, List.foldlM_map, hvisit, ← List.foldlM_filter]
  -- `read_json` only ever looks at the children of its node
  rfl

/-- On an array of switches the visit is one call for each of them. -/
theorem readAll_eq (junk : Junk) {vs : List Value} (h : ∀ v ∈ vs, Selected v ∧ Flat v) :
    readAll junk (Value.array vs).tree =
      vs.foldlM (fun list v => readJson junk (.node {} v.children .nil) list)
        (switchCreateList junk) := by
  rw [readAll_eq_switchNodes, switchNodes_array h, List.foldlM_map]

/-- A rearranged switch is still selected. -/
theorem selected_of_rearranged {vs vs' : List Value} (h : List.Forall₂ SwitchRearranged vs vs')
    (hvs : ∀ v ∈ vs, SwitchShaped v) : ∀ v ∈ vs', Selected v := by
  induction h with
  | nil => exact fun v hv => absurd hv (by simp)
  | @cons w w' vs vs' hw _ ih =>
    have hshaped := hvs w List.mem_cons_self
    refine List.forall_mem_cons.mpr ⟨?_, ih fun u hu => hvs u (List.mem_cons_of_mem w hu)⟩
    obtain ⟨q, hq⟩ := hshaped.selected
    exact ⟨q, (hw.member_switch hshaped.distinct).symm.trans hq⟩

theorem foldlM_rearranged (junk : Junk) {vs vs' : List Value}
    (h : List.Forall₂ SwitchRearranged vs vs') : (∀ v ∈ vs, SwitchShaped v) →
    ∀ list : CellList Switch,
      vs.foldlM (fun list v => readJson junk (.node {} v.children .nil) list) list =
        vs'.foldlM (fun list v => readJson junk (.node {} v.children .nil) list) list := by
  induction h with
  | nil => exact fun _ _ => rfl
  | @cons w w' vs vs' hw _ ih =>
    intro hvs list
    rw [List.foldlM_cons, List.foldlM_cons, readJson_rearranged junk hw (hvs w List.mem_cons_self)]
    refine bind_congr fun list' => ?_
    exact ih (fun u hu => hvs u (List.mem_cons_of_mem w hu)) list'

/-- The list that is read is the same. -/
theorem readAll_rearranged (junk : Junk) {v v' : Value} (h : Rearranged v v')
    (hv : ConfigShaped v) (hv' : FlatArray v') : readAll junk v.tree = readAll junk v'.tree := by
  cases h with
  | @array vs vs' hall =>
    cases hv with | array hvs =>
    cases hv' with | array hvs' =>
    have hselected := selected_of_rearranged hall hvs
    rw [readAll_eq junk fun w hw => ⟨(hvs w hw).selected, (hvs w hw).flat⟩,
      readAll_eq junk fun w hw => ⟨hselected w hw, hvs' w hw⟩]
    exact foldlM_rearranged junk hall hvs (switchCreateList junk)

/-- **The order of the members does not matter**, and neither does a member nobody asks for: both
texts are accepted, the same list of switches is read from them, and the same files are written. -/
theorem clientMain_rearranged {v v' : Value} {t t' : Text} (ht : Writes v t) (ht' : Writes v' t')
    (hv : ConfigShaped v) (hv' : FlatArray v') (h : Rearranged v v')
    (opens : Text → Bool) (junk : Junk) (castInf : Int) :
    (∃ tree tree', jsonParse t = some tree ∧ jsonParse t' = some tree' ∧
      readAll junk tree = readAll junk tree') ∧
    clientMain opens junk castInf t = clientMain opens junk castInf t' := by
  have hparse : jsonParse t = some v.tree := (Cursor.accepts_of_writes ht).jsonParse_eq
  have hparse' : jsonParse t' = some v'.tree := (Cursor.accepts_of_writes ht').jsonParse_eq
  have hread := readAll_rearranged junk h hv hv'
  refine ⟨⟨v.tree, v'.tree, hparse, hparse', hread⟩, ?_⟩
  unfold clientMain
  simp only [hparse, hparse', hread]

/-! ## An example -/

/-- `sampleValue` from behind, with a member more in its switch and in its port. -/
def sampleRearranged : Value :=
  match sampleValue with
  | .array [.object [name, (ports, .array [.object [number, values]])]] =>
    .array [.object [
      (ports, .array [.object [values, (plainString "note".toList rfl, .scalar .null), number]]),
      (plainString "id".toList rfl, .array []), name]]
  | v => v

theorem rearranged_sample : Rearranged sampleValue sampleRearranged := by
  refine .array (.cons ?_ .nil)
  refine @SwitchRearranged.object _ _ [_, _] (List.Perm.swap _ _ _) ?_
  refine .cons (.ports rfl (.cons (.object ?_) .nil)) (.cons (.same _) .nil)
  exact List.Perm.swap _ _ _

theorem configShaped_sampleValue : ConfigShaped sampleValue := by
  obtain ⟨vs, hvs, _, hall⟩ := isConfig_sampleValue
  cases hvs
  cases hall with | cons hsw _ =>
  refine .array (List.forall_mem_singleton.mpr ⟨hsw.selected, hsw.quiet, ?_, ?_⟩)
  · intro ms hms
    cases hms
    decide
  · intro ps hps
    obtain rfl : _ = ps := Value.array.inj (Option.some.inj hps)
    refine List.forall_mem_singleton.mpr fun ms hms => ?_
    cases hms
    decide

/-- Nothing in the sample is taken for a switch, and what was added is not either. -/
theorem flatArray_sampleRearranged : FlatArray sampleRearranged := by
  obtain ⟨vs, hvs, _, hall⟩ := isConfig_sampleValue
  cases hvs
  cases hall with | cons hsw _ =>
  obtain ⟨hname, hrest⟩ := List.forall_mem_cons.mp (hsw.quiet _ rfl)
  cases List.forall_mem_singleton.mp hrest with | array _ hports =>
  cases List.forall_mem_singleton.mp hports with | object _ _ hmembers =>
  obtain ⟨hnumber, hrest⟩ := List.forall_mem_cons.mp hmembers
  have hvalues := List.forall_mem_singleton.mp hrest
  refine .array (List.forall_mem_singleton.mpr fun ms hms => ?_)
  cases hms
  refine List.forall_mem_cons.mpr ⟨.array _ (List.forall_mem_singleton.mpr (.object _ ?_ ?_)),
    List.forall_mem_cons.mpr ⟨.array _ (by simp), List.forall_mem_singleton.mpr hname⟩⟩
  · intro hsel
    obtain ⟨q, hq⟩ := hsel
    exact absurd (show none = some _ from hq) (by simp)
  · exact List.forall_mem_cons.mpr ⟨hvalues,
      List.forall_mem_cons.mpr ⟨.scalar _, List.forall_mem_singleton.mpr hnumber⟩⟩

/-- Two texts for the same switch. -/
theorem clientMain_rearranged_sample :
    clientMain (fun _ => true) default 0
      ("[\x7b\"switch\":\"a\",\"port_list\":[\x7b\"port_number\":7," ++
        "\"values\":[[10,0011],[20,0100]]\x7d]\x7d]").toList =
    clientMain (fun _ => true) default 0
      ("[\x7b\"port_list\":[\x7b\"values\":[[10,0011],[20,0100]]," ++
        "\"note\":null,\"port_number\":7\x7d],\"id\":[],\"switch\":\"a\"\x7d]").toList :=
  (clientMain_rearranged (padded_of_spells (by decide +kernel))
    (padded_of_spells (by decide +kernel)) configShaped_sampleValue flatArray_sampleRearranged
    rearranged_sample (fun _ => true) default 0).2

end Client
end TsnController

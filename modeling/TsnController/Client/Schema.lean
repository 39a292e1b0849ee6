import TsnController.Client.Document
import TsnController.Client.Output
import TsnController.Lib.Schema

/-!
# Is a document valid configuration?

The documents are written to be loaded by a server that has the modules `ietf-interfaces` and
`ieee802-dot1q-sched`. The schema below is these two modules, as far as they are configuration: what
is `config false` may not be in a document that configures. Tags have the prefixes the client binds
to the namespaces of the modules. Of the identities of `iana-if-type` only the one that is written
is listed. The type of a traffic class is defined in `ieee802-dot1q-types`, which is not at hand; it
is a parameter (`TrafficClassType`), of which only the numbers of the eight classes are known. The
features the scheduling module asks for are on, and its `when` on `operation-name` is understood as
a comparison of identities.

`validInstance_iff` says which switches get a valid document. All that can go wrong is in the
numbers: the client writes them as they come, and neither the gates nor the periods nor the cycle
time need be numbers of the width the module has for them. The names of ports are the keys of the
interfaces, so that a port number may not occur twice.
-/

set_option autoImplicit false

namespace TsnController
namespace Client

open CLib Lib Lib.Xml Lib.Schema

/-! ## The modules -/

def uint8 : LeafType := .uint 255

def uint32 : LeafType := .uint 4294967295

def uint64 : LeafType := .uint 18446744073709551615

/-- The parameters of an operation. -/
def gateStateParams (tag operation : String) : Schema :=
  .container tag (some ("sched:operation-name", operation))
    [.leaf "sched:gate-states-value" uint8 false, .leaf "sched:time-interval-value" uint32 false]

/-- `list admin-control-list`, without what is around it. -/
def gateControlEntry : List Schema :=
  [.leaf "sched:index" uint32 false,
    .leaf "sched:operation-name"
      (.oneOf ["sched:set-gate-states", "sched:set-and-hold-mac", "sched:set-and-release-mac"])
      true,
    gateStateParams "sched:sgs-params" "sched:set-gate-states",
    gateStateParams "sched:shm-params" "sched:set-and-hold-mac",
    gateStateParams "sched:srm-params" "sched:set-and-release-mac"]

def adminCycleTime : List Schema :=
  [.leaf "sched:numerator" uint32 false, .leaf "sched:denominator" uint32 false]

def ptpTimestamp : List Schema :=
  [.leaf "sched:seconds" uint64 false, .leaf "sched:fractional-seconds" uint64 false]

def gateParameters : List Schema :=
  [.leaf "sched:gate-enabled" .boolean false,
    .leaf "sched:admin-gate-states" uint8 false,
    .leaf "sched:admin-control-list-length" uint32 false,
    .list "sched:admin-control-list" "sched:index" gateControlEntry,
    .container "sched:admin-cycle-time" none adminCycleTime,
    .leaf "sched:admin-cycle-time-extension" uint32 false,
    .container "sched:admin-base-time" none ptpTimestamp,
    .leaf "sched:config-change" .boolean false]

/-- `dot1q-types:traffic-class-type`. -/
structure TrafficClassType where
  type : LeafType
  admits : ∀ i : Nat, i < 8 → type.admits (formatD i) = true

def maxSduTable (classes : TrafficClassType) : List Schema :=
  [.leaf "sched:traffic-class" classes.type false, .leaf "sched:queue-max-sdu" uint32 false]

/-- `list interface`, with what the scheduling module adds to it. -/
def interface (classes : TrafficClassType) : List Schema :=
  [.leaf "if:name" .string false,
    .leaf "if:description" .string false,
    .leaf "if:type" (.oneOf ["iftype:ethernetCsmacd"]) true,
    .leaf "if:enabled" .boolean false,
    .leaf "if:link-up-down-trap-enable" (.oneOf ["enabled", "disabled"]) false,
    .list "sched:max-sdu-table" "sched:traffic-class" (maxSduTable classes),
    .container "sched:gate-parameters" none gateParameters]

def interfaces (classes : TrafficClassType) : Schema :=
  .container "if:interfaces" none [.list "if:interface" "if:name" (interface classes)]

def ValidInstance (classes : TrafficClassType) (text : Text) : Prop :=
  ∃ root, readDocument text = some root ∧ Valid [interfaces classes] [root]

/-! ## Numbers -/

theorem admits_formatD {max : Nat} {n : Int} :
    (LeafType.uint max).admits (formatD n) = true ↔ 0 ≤ n ∧ n ≤ max := by
  rw [LeafType.admits, formatD]
  by_cases hn : n < 0
  · rw [if_pos hn, decimal_minus]
    exact iff_of_false (by simp) (by omega)
  · rw [if_neg hn, decimal_toDigits]
    simp only [Option.any_some, decide_eq_true_eq]
    omega

theorem uint8_admits {n : Int} : uint8.admits (formatD n) = true ↔ 0 ≤ n ∧ n < 2 ^ 8 :=
  admits_formatD.trans (and_congr_right fun _ => by omega)

theorem uint32_admits {n : Int} : uint32.admits (formatD n) = true ↔ 0 ≤ n ∧ n < 2 ^ 32 :=
  admits_formatD.trans (and_congr_right fun _ => by omega)

theorem uint32_admits_formatLu {n : Nat} : uint32.admits (formatLu n) = true ↔ n < 2 ^ 32 := by
  rw [formatLu, ← formatD_natCast]
  exact uint32_admits.trans (by omega)

/-! ## The elements -/

section Named

variable (tag tag' : String) (text : Text) (kids xs ys : List Xml)

@[simp] theorem named_nil : named tag [] = [] := rfl

@[simp] theorem named_append : named tag (xs ++ ys) = named tag xs ++ named tag ys :=
  List.filter_append ..

@[simp] theorem named_cons_leaf : named tag (leaf tag' text :: xs) =
    if tag' = tag then leaf tag' text :: named tag xs else named tag xs := by
  simp only [named, List.filter_cons, tag_leaf, decide_eq_true_eq, String.toList_inj]

@[simp] theorem named_cons_group : named tag (group tag' kids :: xs) =
    if tag' = tag then group tag' kids :: named tag xs else named tag xs := by
  simp only [named, List.filter_cons, tag_group, decide_eq_true_eq, String.toList_inj]

end Named

@[simp] theorem kids_leaf (tag : String) (text : Text) : (leaf tag text).kids = [] := rfl

@[simp] theorem kids_group (tag : String) (kids : List Xml) : (group tag kids).kids = kids := rfl

/-- A leaf that is there once. -/
theorem holds_text_iff {tag tag' : String} {type : LeafType} {mandatory : Bool} {text : Text}
    {xs : List Xml} (h : named tag xs = [leaf tag' text]) :
    (Schema.leaf tag type mandatory).Holds xs ↔ type.admits text = true := by
  rw [holds_leaf_iff h, kids_leaf, text_leaf]
  exact and_iff_right rfl

theorem valid_table (classes : TrafficClassType) {i : Nat} (h : i < 8) :
    Valid (maxSduTable classes) (tableXml i).kids := by
  have hsdu : uint32.admits "0".toList = true := by decide
  have hclass := classes.admits i h
  rw [tableXml, kids_group, maxSduTable]
  simp [Valid, Known, HoldAll, Holds, Schema.tag, hsdu, hclass, String.toList_inj,
    -String.reduceToList]

/-- Which numbers an entry may have. -/
def EntryFits (v : PortValues) : Prop :=
  (0 ≤ binaryToDecimal v.gateStates ∧ binaryToDecimal v.gateStates < 2 ^ 8) ∧ v.period < 2 ^ 32

theorem valid_params (v : PortValues) :
    Valid [.leaf "sched:gate-states-value" uint8 false,
        .leaf "sched:time-interval-value" uint32 false]
      [leaf "sched:gate-states-value" (formatD (binaryToDecimal v.gateStates)),
        leaf "sched:time-interval-value" (formatLu v.period)] ↔ EntryFits v := by
  simp [Valid, Known, HoldAll, Holds, Schema.tag, uint8_admits, uint32_admits_formatLu, EntryFits,
    String.toList_inj, -String.reduceToList]

theorem valid_entry (v : PortValues) (index : Int) :
    Valid gateControlEntry (entryXml v index).kids ↔
      (0 ≤ index ∧ index < 2 ^ 32) ∧ EntryFits v := by
  have hname : LeafType.admits (.oneOf ["sched:set-gate-states", "sched:set-and-hold-mac",
      "sched:set-and-release-mac"]) "sched:set-gate-states".toList = true := by decide
  rw [entryXml, kids_group]
  generalize hxs : [leaf "sched:index" (formatD index), _, _] = xs
  have hknown : Known gateControlEntry xs := by
    simp [← hxs, Known, gateControlEntry, gateStateParams, Schema.tag, String.toList_inj,
      -String.reduceToList]
  have hindex : named "sched:index" xs = [leaf "sched:index" (formatD index)] := by
    simp [← hxs, -String.reduceToList]
  have hop : named "sched:operation-name" xs =
      [leaf "sched:operation-name" "sched:set-gate-states".toList] := by
    simp [← hxs, -String.reduceToList]
  have hsgs : named "sched:sgs-params" xs = [group "sched:sgs-params"
      [leaf "sched:gate-states-value" (formatD (binaryToDecimal v.gateStates)),
        leaf "sched:time-interval-value" (formatLu v.period)]] := by
    simp [← hxs, -String.reduceToList]
  have hshm : named "sched:shm-params" xs = [] := by
    simp [← hxs, -String.reduceToList]
  have hsrm : named "sched:srm-params" xs = [] := by
    simp [← hxs, -String.reduceToList]
  have hmet : Met (some ("sched:operation-name", "sched:set-gate-states")) xs := by
    rintro c ⟨⟩
    exact ⟨_, hop ▸ List.mem_singleton_self _, rfl⟩
  rw [Valid, iff_true_intro hknown, true_and, gateControlEntry]
  simp only [HoldAll, gateStateParams, holds_text_iff hindex, holds_text_iff hop,
    holds_container_iff hsgs, holds_container_of_nil hshm, holds_container_of_nil hsrm, kids_group,
    valid_params, hname, hmet, uint32_admits, and_true, true_and]

/-- Different numbers are different texts. -/
theorem formatD_injective : Function.Injective formatD := by
  have hdigits : ∀ {m n : Nat}, Nat.toDigits 10 m = Nat.toDigits 10 n → m = n := by
    intro m n h
    have hdecimal := decimal_toDigits m
    rw [h, decimal_toDigits] at hdecimal
    exact (Option.some.inj hdecimal).symm
  have hminus : ∀ {m n : Nat}, '-' :: Nat.toDigits 10 m ≠ Nat.toDigits 10 n := by
    intro m n h
    have hdecimal := decimal_toDigits n
    rw [← h, decimal_minus] at hdecimal
    exact absurd hdecimal (by simp)
  intro m n h
  unfold formatD at h
  by_cases hm : m < 0 <;> by_cases hn : n < 0
  · rw [if_pos hm, if_pos hn] at h
    have := hdigits (List.cons.inj h).2
    omega
  · rw [if_pos hm, if_neg hn] at h
    exact absurd h hminus
  · rw [if_neg hm, if_pos hn] at h
    exact absurd h.symm hminus
  · rw [if_neg hm, if_neg hn] at h
    have := hdigits h
    omega

theorem valid_cycleTime (d : Int) :
    Valid adminCycleTime
        [leaf "sched:numerator" "500".toList, leaf "sched:denominator" (formatD d)] ↔
      0 ≤ d ∧ d < 2 ^ 32 := by
  have hnum : uint32.admits "500".toList = true := by decide
  rw [adminCycleTime]
  simp [Valid, Known, HoldAll, Holds, Schema.tag, hnum, uint32_admits, String.toList_inj,
    -String.reduceToList]

theorem valid_baseTime : Valid ptpTimestamp
    [leaf "sched:seconds" "0".toList, leaf "sched:fractional-seconds" "0".toList] := by
  have hzero : uint64.admits "0".toList = true := by decide
  rw [ptpTimestamp]
  simp [Valid, Known, HoldAll, Holds, Schema.tag, hzero, String.toList_inj, -String.reduceToList]

section Entries

variable {index : Nat} {vs : List PortValues}

theorem named_entries : named "sched:admin-control-list" (entriesXml index vs) =
    entriesXml index vs :=
  List.filter_eq_self.mpr fun x hx => decide_eq_true (tag_entriesXml x hx)

theorem named_entries_of_ne {tag : String} (h : "sched:admin-control-list" ≠ tag) :
    named tag (entriesXml index vs) = [] := by
  apply List.filter_eq_nil_iff.mpr
  intro x hx
  rw [tag_entriesXml x hx, decide_eq_true_eq, String.toList_inj]
  exact h

theorem keyOf_entry (v : PortValues) (index : Int) :
    keyOf "sched:index" (entryXml v index) = [formatD index] := by
  simp [keyOf, entryXml, -String.reduceToList]

theorem mem_entriesXml {i : Nat} (hi : i < vs.length) :
    entryXml vs[i] (toInt i) ∈ entriesXml 0 vs :=
  List.mem_map.mpr ⟨(vs[i], i), List.mk_mem_zipIdx_iff_getElem?.mpr (by simp), rfl⟩

/-- The list of a port: its keys are the indices, as long as these can be counted. -/
theorem holds_entries {xs : List Xml}
    (h : named "sched:admin-control-list" xs = entriesXml 0 vs) (hlength : vs.length < 2 ^ 31) :
    (Schema.list "sched:admin-control-list" "sched:index" gateControlEntry).Holds xs ↔
      ∀ v ∈ vs, EntryFits v := by
  have hindex : ∀ i, i < vs.length → toInt i = i := fun i hi => toInt_of_lt (by omega)
  have hkeys : (entriesXml 0 vs).map (keyOf "sched:index") =
      (List.range vs.length).map fun i : Nat => [formatD (toInt i)] := by
    rw [entriesXml, List.map_map, List.range_eq_range', ← List.zipIdx_map_snd 0 vs, List.map_map]
    exact List.map_congr_left fun e _ => keyOf_entry e.1 (toInt e.2)
  have hnodup : ((entriesXml 0 vs).map (keyOf "sched:index")).Nodup := by
    rw [hkeys]
    refine List.nodup_range.map_on fun i hi j hj hij => ?_
    have heq := formatD_injective (List.singleton_inj.mp hij)
    rw [hindex i (List.mem_range.mp hi), hindex j (List.mem_range.mp hj)] at heq
    exact_mod_cast heq
  rw [holds_list_iff, h, iff_true_intro hnodup, true_and]
  constructor
  · intro hall v hv
    obtain ⟨i, hi, rfl⟩ := List.getElem_of_mem hv
    exact ((valid_entry _ _).mp (hall _ (mem_entriesXml hi)).2).2
  · intro hall x hx
    obtain ⟨⟨v, i⟩, he, rfl⟩ := List.mem_map.mp hx
    have hget := List.mk_mem_zipIdx_iff_getElem?.mp he
    obtain ⟨hi, hv⟩ := List.getElem?_eq_some_iff.mp hget
    dsimp only
    rw [keyOf_entry, hindex i hi]
    exact ⟨rfl, (valid_entry v i).mpr ⟨⟨by omega, by omega⟩, hall v (hv ▸ List.getElem_mem hi)⟩⟩

/-- A list that is too long to be counted has a negative length or, if it is longer still, an entry
with a negative index. -/
theorem length_lt_of_holds {xs : List Xml}
    (h : named "sched:admin-control-list" xs = entriesXml 0 vs)
    (hlist : (Schema.list "sched:admin-control-list" "sched:index" gateControlEntry).Holds xs)
    (hlength : 0 ≤ adminControlListLength vs) : vs.length < 2 ^ 31 := by
  have hnegative : ¬ 0 ≤ toInt (2 ^ 31) := by decide
  rw [holds_list_iff, h] at hlist
  by_contra hge
  rcases Nat.lt_or_eq_of_le (Nat.le_of_not_lt hge) with hlt | heq
  · have hentry := hlist.2 _ (mem_entriesXml hlt)
    exact hnegative ((valid_entry _ _).mp hentry.2).1.1
  · rw [adminControlListLength, ← heq] at hlength
    exact hnegative hlength

end Entries

/-- Which numbers a port may have, given the denominator that is written for it. -/
structure PortFits (port : Port) (denominator : Int) : Prop where
  length : port.values.values.length < 2 ^ 31
  entries : ∀ v ∈ port.values.values, EntryFits v
  denominator : 0 ≤ denominator ∧ denominator < 2 ^ 32

theorem valid_gateParameters (castInf : Int) (port : Port) (h : Nat) :
    Valid gateParameters (gateParametersXml castInf port h).kids ↔
      PortFits port (denominator castInf h) := by
  rw [gateParametersXml, kids_group]
  generalize hcount : adminControlListLength port.values.values = count
  generalize hxs : _ ++ [group "sched:admin-cycle-time" _, _, _] = xs
  have hother : ∀ {tag : String}, "sched:admin-control-list" ≠ tag →
      named tag (entriesXml 0 port.values.values) = [] := named_entries_of_ne
  have hknown : Known gateParameters xs := by
    rw [← hxs, known_append, known_append]
    refine ⟨⟨?_, known_of_tag (by simp [gateParameters, Schema.tag]) tag_entriesXml⟩, ?_⟩ <;>
      simp [Known, gateParameters, Schema.tag, String.toList_inj, -String.reduceToList]
  have hbool : LeafType.boolean.admits "true".toList = true := by decide
  have hzero : uint8.admits "0".toList = true := by decide
  have henabled : named "sched:gate-enabled" xs = [leaf "sched:gate-enabled" "true".toList] := by
    simp [← hxs, hother, -String.reduceToList]
  have hstates : named "sched:admin-gate-states" xs =
      [leaf "sched:admin-gate-states" "0".toList] := by
    simp [← hxs, hother, -String.reduceToList]
  have hlength : named "sched:admin-control-list-length" xs =
      [leaf "sched:admin-control-list-length" (formatD count)] := by
    simp [← hxs, hother, -String.reduceToList]
  have hentries : named "sched:admin-control-list" xs = entriesXml 0 port.values.values := by
    simp [← hxs, named_entries, -String.reduceToList]
  have hcycle : named "sched:admin-cycle-time" xs = [group "sched:admin-cycle-time"
      [leaf "sched:numerator" "500".toList,
        leaf "sched:denominator" (formatD (denominator castInf h))]] := by
    simp [← hxs, hother, -String.reduceToList]
  have hextension : named "sched:admin-cycle-time-extension" xs = [] := by
    simp [← hxs, hother, -String.reduceToList]
  have hbase : named "sched:admin-base-time" xs = [group "sched:admin-base-time"
      [leaf "sched:seconds" "0".toList, leaf "sched:fractional-seconds" "0".toList]] := by
    simp [← hxs, hother, -String.reduceToList]
  have hchange : named "sched:config-change" xs = [leaf "sched:config-change" "true".toList] := by
    simp [← hxs, hother, -String.reduceToList]
  have hmet : Met none xs := fun c hc => absurd hc (by simp)
  rw [Valid, iff_true_intro hknown, true_and, gateParameters]
  simp only [HoldAll, holds_text_iff henabled, holds_text_iff hstates, holds_text_iff hlength,
    holds_container_iff hcycle, holds_container_iff hbase, holds_leaf_of_nil hextension,
    holds_text_iff hchange, kids_group, hbool, hzero, hmet,
    uint32_admits, valid_cycleTime, valid_baseTime, and_true, true_and]
  constructor
  · rintro ⟨hannounced, hlist, hden⟩
    have hlen := length_lt_of_holds hentries hlist (hcount ▸ hannounced.1)
    exact ⟨hlen, (holds_entries hentries hlen).mp hlist, hden⟩
  · rintro ⟨hlen, hlist, hden⟩
    have hcounted : count = port.values.values.length := hcount.symm.trans (toInt_of_lt (by omega))
    exact ⟨⟨by omega, by omega⟩, (holds_entries hentries hlen).mpr hlist, hden⟩

theorem tag_tables : ∀ x ∈ (List.range 8).map tableXml, x.tag = "sched:max-sdu-table".toList := by
  intro x hx
  obtain ⟨i, _, rfl⟩ := List.mem_map.mp hx
  rfl

theorem named_tables : named "sched:max-sdu-table" ((List.range 8).map tableXml) =
    (List.range 8).map tableXml :=
  List.filter_eq_self.mpr fun x hx => decide_eq_true (tag_tables x hx)

theorem holds_tables (classes : TrafficClassType) {xs : List Xml}
    (h : named "sched:max-sdu-table" xs = (List.range 8).map tableXml) :
    (Schema.list "sched:max-sdu-table" "sched:traffic-class" (maxSduTable classes)).Holds xs := by
  have hkey : ∀ i : Nat, keyOf "sched:traffic-class" (tableXml i) = [formatD i] := by
    intro i
    simp [keyOf, tableXml, -String.reduceToList]
  rw [holds_list_iff, h, List.map_map]
  constructor
  · refine List.nodup_range.map fun i j hij => ?_
    have hij : [formatD i] = [formatD j] := by rw [← hkey, ← hkey]; exact hij
    exact_mod_cast formatD_injective (List.singleton_inj.mp hij)
  · intro x hx
    obtain ⟨i, hi, rfl⟩ := List.mem_map.mp hx
    rw [hkey]
    exact ⟨rfl, valid_table classes (List.mem_range.mp hi)⟩

theorem valid_port (classes : TrafficClassType) (castInf : Int) (port : Port) (h : Nat) :
    Valid (interface classes) (portXml castInf port h).kids ↔
      PortFits port (denominator castInf h) := by
  have hparams : gateParametersXml castInf port h =
      group "sched:gate-parameters" (gateParametersXml castInf port h).kids := rfl
  have hstring : LeafType.string.admits (formatD port.number) = true := rfl
  have htype : LeafType.admits (.oneOf ["iftype:ethernetCsmacd"])
      "iftype:ethernetCsmacd".toList = true := by decide
  rw [portXml, kids_group]
  generalize hxs : _ ++ [gateParametersXml castInf port h] = xs
  rw [hparams] at hxs
  have hother : ∀ {tag : String}, "sched:max-sdu-table" ≠ tag →
      named tag ((List.range 8).map tableXml) = [] := filter_tables
  have hknown : Known (interface classes) xs := by
    rw [← hxs, known_append, known_append]
    refine ⟨⟨?_, known_of_tag (by simp [interface, Schema.tag]) tag_tables⟩, ?_⟩ <;>
      simp [Known, interface, Schema.tag, String.toList_inj, -String.reduceToList]
  have hname : named "if:name" xs = [leaf "if:name" (formatD port.number)] := by
    simp [← hxs, hother, -String.reduceToList]
  have hdescription : named "if:description" xs = [] := by
    simp [← hxs, hother, -String.reduceToList]
  have hiftype : named "if:type" xs = [leaf "if:type" "iftype:ethernetCsmacd".toList] := by
    simp [← hxs, hother, -String.reduceToList]
  have henabled : named "if:enabled" xs = [] := by
    simp [← hxs, hother, -String.reduceToList]
  have htrap : named "if:link-up-down-trap-enable" xs = [] := by
    simp [← hxs, hother, -String.reduceToList]
  have htables : named "sched:max-sdu-table" xs = (List.range 8).map tableXml := by
    simp [← hxs, named_tables, -String.reduceToList]
  have hgate : named "sched:gate-parameters" xs =
      [group "sched:gate-parameters" (gateParametersXml castInf port h).kids] := by
    simp [← hxs, hother, -String.reduceToList]
  have hmet : Met none xs := fun c hc => absurd hc (by simp)
  rw [Valid, iff_true_intro hknown, true_and, interface]
  simp only [HoldAll, holds_text_iff hname, holds_leaf_of_nil hdescription, holds_text_iff hiftype,
    holds_leaf_of_nil henabled, holds_leaf_of_nil htrap, holds_tables classes htables,
    holds_container_iff hgate, kids_group, hstring, htype, hmet,
    valid_gateParameters, and_true, true_and]

/-! ## The document -/

theorem keyOf_port (castInf : Int) (port : Port) (h : Nat) :
    keyOf "if:name" (portXml castInf port h) = [formatD port.number] := by
  have htables : named "if:name" ((List.range 8).map tableXml) = [] := filter_tables (by simp)
  simp [keyOf, portXml, gateParametersXml, htables, -String.reduceToList]

theorem valid_document (classes : TrafficClassType) (castInf : Int) (sw : Switch) :
    Valid [interfaces classes] [documentXml castInf sw] ↔
      (sw.portList.values.map (·.number)).Nodup ∧
        ∀ port ∈ sw.portList.values,
          PortFits port (denominator castInf (hypercycle sw.portList.values)) := by
  have hkids : (documentXml castInf sw).kids = sw.portList.values.map fun port =>
      portXml castInf port (hypercycle sw.portList.values) := by
    rw [documentXml, kids_group, valuesEndCalls, List.map_map]
    rfl
  have htag : ∀ x ∈ (documentXml castInf sw).kids, x.tag = "if:interface".toList := by
    rw [hkids]
    exact List.forall_mem_map.mpr fun port _ => rfl
  have hnamed : named "if:interface" (documentXml castInf sw).kids =
      (documentXml castInf sw).kids :=
    List.filter_eq_self.mpr fun x hx => decide_eq_true (htag x hx)
  have hroot : named "if:interfaces" [documentXml castInf sw] = [documentXml castInf sw] := by
    simp [documentXml]
  have hknown : Known [interfaces classes] [documentXml castInf sw] :=
    known_of_tag (List.mem_singleton_self _) (List.forall_mem_singleton.mpr rfl)
  have hinterfaces : Known [.list "if:interface" "if:name" (interface classes)]
      (documentXml castInf sw).kids :=
    known_of_tag (List.mem_singleton_self _) htag
  have hmet : Met none [documentXml castInf sw] := fun c hc => absurd hc (by simp)
  -- the names are as different as the numbers
  have hnodup : ((documentXml castInf sw).kids.map (keyOf "if:name")).Nodup ↔
      (sw.portList.values.map (·.number)).Nodup := by
    have hinj : Function.Injective fun n : Int => [formatD n] :=
      fun m n h => formatD_injective (List.singleton_inj.mp h)
    rw [hkids, List.map_map, ← List.nodup_map_iff hinj, List.map_map]
    exact iff_of_eq (congrArg _ (List.map_congr_left fun port _ => keyOf_port castInf port _))
  rw [Valid, iff_true_intro hknown, true_and, interfaces]
  simp only [HoldAll, holds_container_iff hroot, hmet, Valid, holds_list_iff, hnamed, hnodup,
    hinterfaces, true_and, and_true]
  refine and_congr_right fun _ => ?_
  rw [hkids, List.forall_mem_map]
  refine forall₂_congr fun port _ => ?_
  rw [keyOf_port]
  exact (and_iff_right rfl).trans (valid_port classes castInf port _)

theorem denominator_fits {castInf : Int} {h : Nat} :
    (0 ≤ denominator castInf h ∧ denominator castInf h < 2 ^ 32) ↔
      (h = 0 → 0 ≤ castInf ∧ castInf < 2 ^ 32) := by
  unfold denominator
  by_cases hzero : h = 0
  · rw [if_pos hzero]
    exact ⟨fun hfits _ => hfits, fun hfits => hfits hzero⟩
  · rw [if_neg hzero]
    have hnonneg : (0 : Int) ≤ 500 / h := Int.ediv_nonneg (by decide) (Int.natCast_nonneg h)
    have hle : (500 : Int) / h ≤ 500 := Int.ediv_le_self _ (by decide)
    exact iff_of_true ⟨hnonneg, by omega⟩ fun h0 => absurd h0 hzero

/-- What is read from the text is the document. -/
theorem validInstance_iff_portFits (classes : TrafficClassType) (castInf : Int) (sw : Switch) :
    ValidInstance classes (instanceText castInf sw) ↔
      (sw.portList.values.map (·.number)).Nodup ∧
        ∀ port ∈ sw.portList.values,
          PortFits port (denominator castInf (hypercycle sw.portList.values)) := by
  have hread := readDocument_instanceText castInf sw
  have hroot : ValidInstance classes (instanceText castInf sw) ↔
      Valid [interfaces classes] [documentXml castInf sw] := by
    simp [ValidInstance, hread]
  rw [hroot, valid_document]

/-- There is a port, and the denominator is the same for all of them. -/
theorem forall_portFits_iff {castInf : Int} {sw : Switch} :
    (∀ port ∈ sw.portList.values,
      PortFits port (denominator castInf (hypercycle sw.portList.values))) ↔
    (∀ port ∈ sw.portList.values,
      port.values.values.length < 2 ^ 31 ∧ ∀ v ∈ port.values.values, EntryFits v) ∧
      (hypercycle sw.portList.values = 0 → 0 ≤ castInf ∧ castInf < 2 ^ 32) := by
  rw [← denominator_fits]
  constructor
  · intro hall
    refine ⟨fun port hport => ⟨(hall port hport).length, (hall port hport).entries⟩, ?_⟩
    exact (hall _ (List.getLast_mem sw.portList.values_ne_nil)).denominator
  · rintro ⟨hall, hden⟩ port hport
    exact ⟨(hall port hport).1, (hall port hport).2, hden⟩

/-- A document is valid configuration exactly if the ports have different numbers, their lists are
not too long, the gate states and the periods are of the width the module has for them, and, for a
cycle time of zero, the whole number an infinite quotient is cast to is, too. -/
theorem validInstance_iff (classes : TrafficClassType) (castInf : Int) (sw : Switch) :
    ValidInstance classes (instanceText castInf sw) ↔
      (sw.portList.values.map (·.number)).Nodup ∧
      (∀ port ∈ sw.portList.values,
        port.values.values.length < 2 ^ 31 ∧ ∀ v ∈ port.values.values, EntryFits v) ∧
      (hypercycle sw.portList.values = 0 → 0 ≤ castInf ∧ castInf < 2 ^ 32) := by
  rw [validInstance_iff_portFits, forall_portFits_iff]

end Client
end TsnController

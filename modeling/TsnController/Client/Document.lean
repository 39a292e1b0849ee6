import TsnController.Client.Emit
import TsnController.Lib.Xml

/-!
# What a reader finds in a document

The texts `xml_write_instance` produces are read back here with the reader of `Lib.Xml`, and the
result is the element tree one would draw: interfaces, each with its tables and its gate
parameters, and in these one `admin-control-list` for every entry (`readDocument_instanceText`).
Nothing about the configuration is needed for that; it holds for every switch in memory.

The start and the end of an element are written by different functions (`xml_write_port` opens what
`xml_write_values_end` closes). So the rules of the reader are applied element by element, and the
text they are about is compared with what is written only at the end, up to associativity
(`adds_port`). The literal pieces are taken apart by evaluation, one tag at a time.

`interfacesOf` is what a switch is supposed to take from the document: of each interface its name,
the length it announces, and its list. It refuses a document that has anything but interfaces at the
top, or two values where there should be one.
-/

set_option autoImplicit false

namespace TsnController
namespace Client

open CLib Lib Lib.Xml Json

/-! ## The elements of a document -/

def leaf (tag : String) (text : Text) : Xml := .elem tag.toList text []

def group (tag : String) (kids : List Xml) : Xml := .elem tag.toList [] kids

def tableXml (i : Nat) : Xml :=
  group "sched:max-sdu-table"
    [leaf "sched:traffic-class" (formatD i), leaf "sched:queue-max-sdu" "0".toList]

def entryXml (v : PortValues) (index : Int) : Xml :=
  group "sched:admin-control-list"
    [leaf "sched:index" (formatD index),
      leaf "sched:operation-name" "sched:set-gate-states".toList,
      group "sched:sgs-params"
        [leaf "sched:gate-states-value" (formatD (binaryToDecimal v.gateStates)),
          leaf "sched:time-interval-value" (formatLu v.period)]]

def entriesXml (index : Nat) (vs : List PortValues) : List Xml :=
  (vs.zipIdx index).map fun e => entryXml e.1 (toInt e.2)

def gateParametersXml (castInf : Int) (port : Port) (hypercycle : Nat) : Xml :=
  group "sched:gate-parameters"
    ([leaf "sched:gate-enabled" "true".toList, leaf "sched:admin-gate-states" "0".toList,
        leaf "sched:admin-control-list-length"
          (formatD (adminControlListLength port.values.values))]
      ++ entriesXml 0 port.values.values
      ++ [group "sched:admin-cycle-time"
            [leaf "sched:numerator" "500".toList,
              leaf "sched:denominator" (formatD (denominator castInf hypercycle))],
          group "sched:admin-base-time"
            [leaf "sched:seconds" "0".toList, leaf "sched:fractional-seconds" "0".toList],
          leaf "sched:config-change" "true".toList])

def portXml (castInf : Int) (port : Port) (hypercycle : Nat) : Xml :=
  group "if:interface"
    ([leaf "if:name" (formatD port.number), leaf "if:type" "iftype:ethernetCsmacd".toList]
      ++ (List.range 8).map tableXml ++ [gateParametersXml castInf port hypercycle])

def documentXml (castInf : Int) (sw : Switch) : Xml :=
  group "if:interfaces" ((valuesEndCalls sw).map fun call => portXml castInf call.1 call.2)

/-! ## Reading the pieces -/

theorem lt_not_mem_toDigits (n : Nat) : '<' ∉ Nat.toDigits 10 n := by
  intro h
  have hdigit := Nat.isDigit_of_mem_toDigits (by decide) (by decide) h
  exact absurd hdigit (by decide)

theorem lt_not_mem_formatD (n : Int) : '<' ∉ formatD n := by
  unfold formatD
  split
  · intro h
    rcases List.mem_cons.mp h with h | h
    · exact absurd h (by decide)
    · exact lt_not_mem_toDigits _ h
  · exact lt_not_mem_toDigits _

/-! The literal pieces are taken apart as lists of characters, `String.ofList`, which a literal is
by definition. -/

section Literals

variable {a b name : Text}

/-- Text between its tags. -/
theorem adds_text {w : Text} (ha : startTag a = some (name, []))
    (hb : endTag b = some ([], name)) (hw : '<' ∉ w) :
    Adds ((String.ofList a).toList ++ w ++ (String.ofList b).toList)
      [leaf (String.ofList name) w] := by
  rw [leaf, String.toList_ofList, String.toList_ofList, String.toList_ofList]
  exact (opensLeaf_of_startTag ha).leaf hw (closesLeaf_of_endTag hb)

/-- An element written in one piece. -/
theorem adds_literal {t w : Text} (h : leafOf t = some (name, w)) :
    Adds (String.ofList t).toList [leaf (String.ofList name) (String.ofList w).toList] := by
  rw [leaf, String.toList_ofList, String.toList_ofList, String.toList_ofList]
  exact adds_of_leafOf h

theorem opens_literal (h : (startTag a).map Prod.fst = some name) :
    Opens (String.ofList a).toList (String.ofList name).toList := by
  rw [String.toList_ofList, String.toList_ofList]
  exact opens_of_startTag h

theorem closes_literal (h : (endTag a).map Prod.snd = some name) :
    Closes (String.ofList a).toList (String.ofList name).toList := by
  rw [String.toList_ofList, String.toList_ofList]
  exact closes_of_endTag h

theorem adds_declaration (h : (prolog a).isSome = true) : Adds (String.ofList a).toList [] := by
  rw [String.toList_ofList]
  exact adds_of_prolog h

/-- An element with children, between its tags. -/
theorem adds_group {inner : Text} {kids : List Xml}
    (ha : (startTag a).map Prod.fst = some name) (hi : Adds inner kids) (hne : kids ≠ [])
    (hb : (endTag b).map Prod.snd = some name) :
    Adds ((String.ofList a).toList ++ inner ++ (String.ofList b).toList)
      [group (String.ofList name) kids] :=
  (opens_literal ha).container hi hne (closes_literal hb)

end Literals

theorem adds_table (i : Nat) : Adds (xmlWriteTable i) [tableXml i] := by
  have hclass : Adds ("\t\t\t<sched:traffic-class>".toList ++ formatD i ++
      "</sched:traffic-class>\n".toList) [leaf "sched:traffic-class" (formatD i)] :=
    adds_text rfl rfl (lt_not_mem_formatD i)
  have hsdu : Adds "\t\t\t<sched:queue-max-sdu>0</sched:queue-max-sdu>\n".toList
      [leaf "sched:queue-max-sdu" "0".toList] :=
    adds_literal rfl
  unfold xmlWriteTable
  rw [List.append_assoc (_ : Text) (_ ++ _)]
  exact adds_group rfl (hclass.append hsdu) (by simp) rfl

theorem adds_entry (v : PortValues) (index : Int) :
    Adds (xmlWriteValues v.period (binaryToDecimal v.gateStates) index) [entryXml v index] := by
  have hindex : Adds ("\t\t\t\t<sched:index>".toList ++ formatD index ++
      "</sched:index>\n".toList) [leaf "sched:index" (formatD index)] :=
    adds_text rfl rfl (lt_not_mem_formatD index)
  have hoperation : Adds
      "\t\t\t\t<sched:operation-name>sched:set-gate-states</sched:operation-name>\n".toList
      [leaf "sched:operation-name" "sched:set-gate-states".toList] :=
    adds_literal rfl
  have hgates : Adds ("\t\t\t\t\t<sched:gate-states-value>".toList ++
      formatD (binaryToDecimal v.gateStates) ++ "</sched:gate-states-value>\n".toList)
      [leaf "sched:gate-states-value" (formatD (binaryToDecimal v.gateStates))] :=
    adds_text rfl rfl (lt_not_mem_formatD _)
  have htime : Adds ("\t\t\t\t\t<sched:time-interval-value>".toList ++ formatLu v.period ++
      "</sched:time-interval-value>\n".toList)
      [leaf "sched:time-interval-value" (formatLu v.period)] :=
    adds_text rfl rfl (lt_not_mem_toDigits _)
  have hparams : Adds ("\t\t\t\t<sched:sgs-params>\n".toList ++ (_ ++ _) ++
      "\t\t\t\t</sched:sgs-params>\n".toList) [group "sched:sgs-params" (_ ++ _)] :=
    adds_group rfl (hgates.append htime) (by simp) rfl
  have hall : Adds ("\t\t\t<sched:admin-control-list>\n".toList ++ (_ ++ (_ ++ _)) ++
      "\t\t\t</sched:admin-control-list>\n".toList) [group "sched:admin-control-list" _] :=
    adds_group rfl (hindex.append (hoperation.append hparams)) (by simp)
      rfl
  unfold xmlWriteValues
  simp only [List.append_assoc] at hall ⊢
  exact hall

theorem adds_entries : ∀ (vs : List PortValues) (index : Nat),
    Adds (xmlWriteEntries index vs) (entriesXml index vs)
  | [], _ => adds_nil
  | v :: vs, index => (adds_entry v (toInt index)).append (adds_entries vs (index + 1))

theorem adds_cycleTime (castInf : Int) (hypercycle : Nat) :
    Adds ("\t\t\t<sched:admin-cycle-time>\n".toList
        ++ ("\t\t\t\t<sched:numerator>500</sched:numerator>\n".toList
          ++ ("\t\t\t\t<sched:denominator>".toList ++ formatD (denominator castInf hypercycle)
            ++ "</sched:denominator>\n".toList))
        ++ "\t\t\t</sched:admin-cycle-time>\n".toList)
      [group "sched:admin-cycle-time" [leaf "sched:numerator" "500".toList,
        leaf "sched:denominator" (formatD (denominator castInf hypercycle))]] := by
  have hnum : Adds "\t\t\t\t<sched:numerator>500</sched:numerator>\n".toList
      [leaf "sched:numerator" "500".toList] :=
    adds_literal rfl
  have hden : Adds ("\t\t\t\t<sched:denominator>".toList ++
      formatD (denominator castInf hypercycle) ++ "</sched:denominator>\n".toList)
      [leaf "sched:denominator" (formatD (denominator castInf hypercycle))] :=
    adds_text rfl rfl (lt_not_mem_formatD _)
  exact adds_group rfl (hnum.append hden) (by simp) rfl

theorem adds_baseTime :
    Adds ("\t\t\t<sched:admin-base-time>\n".toList
        ++ ("\t\t\t\t<sched:seconds>0</sched:seconds>\n".toList
          ++ "\t\t\t\t<sched:fractional-seconds>0</sched:fractional-seconds>\n".toList)
        ++ "\t\t\t</sched:admin-base-time>\n".toList)
      [group "sched:admin-base-time" [leaf "sched:seconds" "0".toList,
        leaf "sched:fractional-seconds" "0".toList]] := by
  have hsec : Adds "\t\t\t\t<sched:seconds>0</sched:seconds>\n".toList
      [leaf "sched:seconds" "0".toList] :=
    adds_literal rfl
  have hfrac : Adds "\t\t\t\t<sched:fractional-seconds>0</sched:fractional-seconds>\n".toList
      [leaf "sched:fractional-seconds" "0".toList] :=
    adds_literal rfl
  exact adds_group rfl (hsec.append hfrac) (by simp) rfl

theorem adds_tables :
    Adds ((List.range 8).flatMap xmlWriteTable) ((List.range 8).map tableXml) := by
  rw [List.map_eq_flatMap]
  exact adds_flatMap fun i _ => adds_table i

theorem adds_type : Adds
    ("\t\t<if:type xmlns:iftype=\"urn:ietf:params:xml:ns:yang:iana-if-type\">" ++
      "iftype:ethernetCsmacd</if:type>\n").toList
    [leaf "if:type" "iftype:ethernetCsmacd".toList] := by
  simp only [String.reduceAppend]
  exact adds_literal rfl

theorem opens_gateParameters : Opens
    ("\t\t<sched:gate-parameters xmlns:sched=" ++
      "\"urn:ieee:std:802.1Q:yang:ieee802-dot1q-sched\">\n").toList
    "sched:gate-parameters".toList := by
  simp only [String.reduceAppend]
  exact opens_literal rfl

/-- The whole text of a port. The two elements that `xml_write_port` leaves open are closed by
`xml_write_values_end`. -/
theorem adds_port (castInf : Int) (port : Port) (hypercycle : Nat) :
    Adds (xmlWritePortAll castInf port hypercycle) [portXml castInf port hypercycle] := by
  have hname : Adds ("\t\t<if:name>".toList ++ formatD port.number ++ "</if:name>\n".toList)
      [leaf "if:name" (formatD port.number)] :=
    adds_text rfl rfl (lt_not_mem_formatD _)
  have henabled : Adds "\t\t\t<sched:gate-enabled>true</sched:gate-enabled>\n".toList
      [leaf "sched:gate-enabled" "true".toList] :=
    adds_literal rfl
  have hstates : Adds "\t\t\t<sched:admin-gate-states>0</sched:admin-gate-states>\n".toList
      [leaf "sched:admin-gate-states" "0".toList] :=
    adds_literal rfl
  have hlength : Adds ("\t\t\t<sched:admin-control-list-length>".toList
      ++ formatD (adminControlListLength port.values.values)
      ++ "</sched:admin-control-list-length>\n".toList)
      [leaf "sched:admin-control-list-length"
        (formatD (adminControlListLength port.values.values))] :=
    adds_text rfl rfl (lt_not_mem_formatD _)
  have hchange : Adds "\t\t\t<sched:config-change>true</sched:config-change>\n".toList
      [leaf "sched:config-change" "true".toList] :=
    adds_literal rfl
  have hparams := opens_gateParameters.container
    (henabled.append (hstates.append (hlength.append ((adds_entries port.values.values 0).append
      ((adds_cycleTime castInf hypercycle).append (adds_baseTime.append hchange))))))
    (by simp)
    (show Closes "\t\t</sched:gate-parameters>\n".toList _ from closes_literal rfl)
  have hport : Adds ("\t<if:interface>\n".toList ++ _ ++ "\t</if:interface>\n".toList)
      [group "if:interface" _] :=
    adds_group rfl (hname.append (adds_type.append (adds_tables.append hparams)))
      (by simp) rfl
  unfold xmlWritePortAll xmlWritePort xmlWriteValuesEnd xmlWriteValuesEndWith
  simp only [List.append_assoc] at hport ⊢
  exact hport

/-- **Every document is read back** as the tree of its switch. -/
theorem readDocument_instanceText (castInf : Int) (sw : Switch) :
    readDocument (instanceText castInf sw) = some (documentXml castInf sw) := by
  have hports : Adds ((valuesEndCalls sw).flatMap fun call => xmlWritePortAll castInf call.1 call.2)
      ((valuesEndCalls sw).map fun call => portXml castInf call.1 call.2) := by
    rw [List.map_eq_flatMap]
    exact adds_flatMap fun call _ => adds_port castInf call.1 call.2
  have hne : ((valuesEndCalls sw).map fun call => portXml castInf call.1 call.2) ≠ [] := by
    unfold valuesEndCalls
    simpa using sw.portList.values_ne_nil
  have hopens : Opens ("<?xml version=\"1.0\" encoding=\"UTF-8\"?>\n".toList ++
      "<if:interfaces xmlns:if=\"urn:ietf:params:xml:ns:yang:ietf-interfaces\">\n".toList)
      "if:interfaces".toList :=
    (opens_literal rfl).after (adds_declaration rfl)
  exact (hopens.container hports hne (closes_literal rfl)).readDocument

/-! ## What a switch takes from a document -/

/-- An entry of a control list, as it is written. -/
structure GateEntry where
  index : Text
  gateStates : Text
  timeInterval : Text
  deriving DecidableEq

structure Interface where
  name : Text
  length : Text
  entries : List GateEntry
  deriving DecidableEq

def entryOf (x : Xml) : Option GateEntry := do
  let index ← x.child "sched:index".toList
  let params ← x.child "sched:sgs-params".toList
  let gateStates ← params.child "sched:gate-states-value".toList
  let timeInterval ← params.child "sched:time-interval-value".toList
  some ⟨index.text, gateStates.text, timeInterval.text⟩

def interfaceOf (x : Xml) : Option Interface :=
  if x.tag = "if:interface".toList then do
    let name ← x.child "if:name".toList
    let params ← x.child "sched:gate-parameters".toList
    let length ← params.child "sched:admin-control-list-length".toList
    let entries ← (params.childrenNamed "sched:admin-control-list".toList).mapM entryOf
    some ⟨name.text, length.text, entries⟩
  else none

def interfacesOf (text : Text) : Option (List Interface) := do
  let root ← readDocument text
  if root.tag = "if:interfaces".toList then root.kids.mapM interfaceOf else none

/-- What the document should say about a port. -/
def Port.interface (port : Port) : Interface where
  name := formatD port.number
  length := formatD (adminControlListLength port.values.values)
  entries := port.values.values.zipIdx.map fun e =>
    ⟨formatD (toInt e.2), formatD (binaryToDecimal e.1.gateStates), formatLu e.1.period⟩

theorem mapM_map_eq_some {α β γ : Type} {f : β → Option γ} {g : α → β} {h : α → γ}
    (hf : ∀ a, f (g a) = some (h a)) (l : List α) : (l.map g).mapM f = some (l.map h) := by
  induction l with
  | nil => rfl
  | cons a l ih =>
    rw [List.map_cons, List.mapM_cons, hf, ih]
    rfl

/-! Tags are compared as the strings they are written as. -/

@[simp] theorem tag_leaf (tag : String) (text : Text) : (leaf tag text).tag = tag.toList := rfl

@[simp] theorem text_leaf (tag : String) (text : Text) : (leaf tag text).text = text := rfl

@[simp] theorem tag_group (tag : String) (kids : List Xml) :
    (group tag kids).tag = tag.toList := rfl

@[simp] theorem childrenNamed_group (tag name : String) (kids : List Xml) :
    (group tag kids).childrenNamed name.toList = kids.filter (·.tag = name.toList) := rfl

theorem entryOf_entryXml (v : PortValues) (index : Int) : entryOf (entryXml v index) =
    some ⟨formatD index, formatD (binaryToDecimal v.gateStates), formatLu v.period⟩ := by
  simp [entryOf, entryXml, child, String.toList_inj, -String.reduceToList]

theorem tag_entriesXml {index : Nat} {vs : List PortValues} :
    ∀ x ∈ entriesXml index vs, x.tag = "sched:admin-control-list".toList := by
  intro x hx
  obtain ⟨e, _, rfl⟩ := List.mem_map.mp hx
  rfl

theorem length_gateParametersXml (castInf : Int) (port : Port) (hypercycle : Nat) :
    (gateParametersXml castInf port hypercycle).child "sched:admin-control-list-length".toList =
      some (leaf "sched:admin-control-list-length"
        (formatD (adminControlListLength port.values.values))) := by
  have hentries : (entriesXml 0 port.values.values).filter
      (·.tag = "sched:admin-control-list-length".toList) = [] := by
    apply List.filter_eq_nil_iff.mpr
    intro x hx
    rw [tag_entriesXml x hx]
    simp [String.toList_inj, -String.reduceToList]
  simp [child, gateParametersXml, hentries, String.toList_inj, -String.reduceToList]

theorem entries_gateParametersXml (castInf : Int) (port : Port) (hypercycle : Nat) :
    (gateParametersXml castInf port hypercycle).childrenNamed "sched:admin-control-list".toList =
      entriesXml 0 port.values.values := by
  have hentries : (entriesXml 0 port.values.values).filter
      (·.tag = "sched:admin-control-list".toList) = entriesXml 0 port.values.values := by
    apply List.filter_eq_self.mpr
    intro x hx
    exact decide_eq_true (tag_entriesXml x hx)
  simp [gateParametersXml, hentries, String.toList_inj, -String.reduceToList]

theorem filter_tables {name : String} (h : "sched:max-sdu-table" ≠ name) :
    ((List.range 8).map tableXml).filter (·.tag = name.toList) = [] := by
  apply List.filter_eq_nil_iff.mpr
  intro x hx
  obtain ⟨i, _, rfl⟩ := List.mem_map.mp hx
  rw [tableXml, tag_group, decide_eq_true_eq, String.toList_inj]
  exact h

theorem name_portXml (castInf : Int) (port : Port) (hypercycle : Nat) :
    (portXml castInf port hypercycle).child "if:name".toList =
      some (leaf "if:name" (formatD port.number)) := by
  have htables := @filter_tables "if:name" (by simp)
  simp [child, portXml, htables, gateParametersXml, String.toList_inj, -String.reduceToList]

theorem gateParameters_portXml (castInf : Int) (port : Port) (hypercycle : Nat) :
    (portXml castInf port hypercycle).child "sched:gate-parameters".toList =
      some (gateParametersXml castInf port hypercycle) := by
  have htables := @filter_tables "sched:gate-parameters" (by simp)
  simp [child, portXml, htables, gateParametersXml, String.toList_inj, -String.reduceToList]

theorem mapM_entryOf (index : Nat) (vs : List PortValues) :
    (entriesXml index vs).mapM entryOf = some ((vs.zipIdx index).map fun e =>
      ⟨formatD (toInt e.2), formatD (binaryToDecimal e.1.gateStates), formatLu e.1.period⟩) :=
  mapM_map_eq_some (fun e : PortValues × Nat => entryOf_entryXml e.1 (toInt e.2)) _

theorem interfaceOf_portXml (castInf : Int) (port : Port) (hypercycle : Nat) :
    interfaceOf (portXml castInf port hypercycle) = some port.interface := by
  have htag : (portXml castInf port hypercycle).tag = "if:interface".toList := rfl
  unfold interfaceOf Port.interface
  rw [if_pos htag, name_portXml, gateParameters_portXml, Option.bind_eq_bind, Option.bind_some,
    Option.bind_some, length_gateParametersXml, Option.bind_some, entries_gateParametersXml,
    mapM_entryOf, Option.bind_eq_bind, Option.bind_some, text_leaf, text_leaf]

/-- **What the document of a switch says**, for every switch in memory. -/
theorem interfacesOf_instanceText (castInf : Int) (sw : Switch) :
    interfacesOf (instanceText castInf sw) = some (sw.portList.values.map Port.interface) := by
  have htag : (documentXml castInf sw).tag = "if:interfaces".toList := rfl
  have hkids : (documentXml castInf sw).kids
      = (valuesEndCalls sw).map fun call => portXml castInf call.1 call.2 := rfl
  unfold interfacesOf
  rw [readDocument_instanceText, Option.bind_eq_bind, Option.bind_some, if_pos htag, hkids,
    mapM_map_eq_some (fun call : Port × Nat => interfaceOf_portXml castInf call.1 call.2),
    valuesEndCalls, List.map_map]
  rfl

end Client
end TsnController

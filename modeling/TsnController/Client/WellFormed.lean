import TsnController.Client.Emit
import TsnController.Lib.Markup

/-!
# The documents are well formed

`xml_write_port` opens two elements that `xml_write_values_end` closes, with as many calls of
`xml_write_values` between them as the port has values; the `sched` prefix is declared again and
again, once for every table and once for the gate parameters. That this adds up to a document is
shown here for the grammar of `Lib.Markup`: for every switch there is a tree whose text is what is
written (`linkedText_eq`), whose prefixes are in scope (`scoped_interfaces`), and in which every
interface has its gate parameters once (`count_interface`).

The functions write line by line, so the trees are built from `leafLine` and `groupLines`, in the
order of the calls. What they are about besides is the vocabulary of the two YANG modules, the
enumeration `Tag`.

A list that the client has built has at least one cell. `xml_write_instance` does not depend on
that, and neither does this: `LinkedSwitch` is a switch as the loops see it, with any number of
ports and values, a null pointer being none.
-/

set_option autoImplicit false

namespace TsnController
namespace Client

open CLib Lib Lib.Markup Json

/-! ## Any switch list -/

structure LinkedPort where
  number : Int
  values : List PortValues

structure LinkedSwitch where
  name : Text
  ports : List LinkedPort

def Port.linked (port : Port) : LinkedPort := ⟨port.number, port.values.values⟩

def Switch.linked (sw : Switch) : LinkedSwitch := ⟨sw.name, sw.portList.values.map Port.linked⟩

/-- The pass over all ports. -/
def linkedHypercycle (ports : List LinkedPort) : Nat :=
  ports.foldl (fun h port => hypercyclePort h port.values) 0

/-- What the loop over the ports writes for one of them. -/
def linkedPortText (castInf : Int) (hypercycle : Nat) (port : LinkedPort) : Text :=
  xmlWritePort port.number (adminControlListLength port.values)
  ++ xmlWriteEntries 0 port.values
  ++ xmlWriteValuesEnd castInf hypercycle

def linkedText (castInf : Int) (sw : LinkedSwitch) : Text :=
  "<?xml version=\"1.0\" encoding=\"UTF-8\"?>\n".toList
  ++ "<if:interfaces xmlns:if=\"urn:ietf:params:xml:ns:yang:ietf-interfaces\">\n".toList
  ++ sw.ports.flatMap (linkedPortText castInf (linkedHypercycle sw.ports))
  ++ "</if:interfaces>\n".toList

/-- The documents of any list of switches, each with the path it is for. -/
def writeLinked (castInf : Int) (list : List LinkedSwitch) : List (Text × Text) :=
  list.map fun sw => (outputPath sw.name, linkedText castInf sw)

theorem linkedHypercycle_map (ports : List Port) :
    linkedHypercycle (ports.map Port.linked) = hypercycle ports := by
  rw [linkedHypercycle, List.foldl_map]
  rfl

theorem linkedText_linked (castInf : Int) (sw : Switch) :
    linkedText castInf sw.linked = instanceText castInf sw := by
  unfold linkedText instanceText valuesEndCalls Switch.linked
  rw [linkedHypercycle_map, List.flatMap_map, List.flatMap_map]
  rfl

theorem documents_eq_writeLinked (castInf : Int) (list : CellList Switch) :
    documents castInf list = writeLinked castInf (list.values.map Switch.linked) := by
  rw [documents, writeLinked, List.map_map]
  refine List.map_congr_left fun sw _ => ?_
  rw [Function.comp_apply, linkedText_linked]
  rfl

/-! ## The vocabulary -/

/-- The elements of a document. -/
inductive Tag
  | interfaces
  | interface
  | name
  | type
  | maxSduTable
  | trafficClass
  | queueMaxSdu
  | gateParameters
  | gateEnabled
  | adminGateStates
  | adminControlListLength
  | adminControlList
  | index
  | operationName
  | sgsParams
  | gateStatesValue
  | timeIntervalValue
  | adminCycleTime
  | numerator
  | denominator
  | adminBaseTime
  | seconds
  | fractionalSeconds
  | configChange
  deriving DecidableEq

namespace Tag

def pre : Tag → String
  | interfaces | interface | name | type => "if"
  | _ => "sched"

def loc : Tag → String
  | interfaces => "interfaces"
  | interface => "interface"
  | name => "name"
  | type => "type"
  | maxSduTable => "max-sdu-table"
  | trafficClass => "traffic-class"
  | queueMaxSdu => "queue-max-sdu"
  | gateParameters => "gate-parameters"
  | gateEnabled => "gate-enabled"
  | adminGateStates => "admin-gate-states"
  | adminControlListLength => "admin-control-list-length"
  | adminControlList => "admin-control-list"
  | index => "index"
  | operationName => "operation-name"
  | sgsParams => "sgs-params"
  | gateStatesValue => "gate-states-value"
  | timeIntervalValue => "time-interval-value"
  | adminCycleTime => "admin-cycle-time"
  | numerator => "numerator"
  | denominator => "denominator"
  | adminBaseTime => "admin-base-time"
  | seconds => "seconds"
  | fractionalSeconds => "fractional-seconds"
  | configChange => "config-change"

theorem isNCName_pre (tag : Tag) : isNCName tag.pre.toList = true := by
  cases tag <;> exact isNCName_literal rfl

theorem isNCName_loc (tag : Tag) : isNCName tag.loc.toList = true := by
  cases tag <;> exact isNCName_literal rfl

def qname (tag : Tag) : QName := ⟨⟨tag.pre, tag.isNCName_pre⟩, ⟨tag.loc, tag.isNCName_loc⟩⟩

/-- A tag is told apart from the others by its local name alone. -/
theorem count_map_qname {tag : Tag} (h : ∀ other : Tag, other.loc = tag.loc → other = tag)
    (tags : List Tag) : (tags.map qname).count tag.qname = tags.count tag := by
  induction tags with
  | nil => rfl
  | cons t ts ih =>
    have hiff : (t.qname == tag.qname) = (t == tag) := by
      refine Bool.eq_iff_iff.mpr ?_
      rw [beq_iff_eq, beq_iff_eq]
      exact ⟨fun ht => h t (congrArg (fun q : QName => q.loc.str) ht), fun ht => by rw [ht]⟩
    rw [List.map_cons, List.count_cons, List.count_cons, ih, hiff]

theorem loc_gateParameters (other : Tag) (h : other.loc = gateParameters.loc) :
    other = gateParameters := by
  cases other <;> first | rfl | exact absurd h (by simp [loc])

theorem loc_interface (other : Tag) (h : other.loc = interface.loc) : other = interface := by
  cases other <;> first | rfl | exact absurd h (by simp [loc])

end Tag

/-- The namespaces the two prefixes are meant for. -/
def namespaces : Env :=
  [("if", "urn:ietf:params:xml:ns:yang:ietf-interfaces"),
    ("sched", "urn:ieee:std:802.1Q:yang:ieee802-dot1q-sched")]

def ifDeclaration : Declaration :=
  ⟨⟨"if", isNCName_literal rfl⟩, "urn:ietf:params:xml:ns:yang:ietf-interfaces", all_literal rfl⟩

def schedDeclaration : Declaration :=
  ⟨⟨"sched", isNCName_literal rfl⟩, "urn:ieee:std:802.1Q:yang:ieee802-dot1q-sched",
    all_literal rfl⟩

/-- The prefix of a value, `iftype:ethernetCsmacd`; no element has it. -/
def iftypeDeclaration : Declaration :=
  ⟨⟨"iftype", isNCName_literal rfl⟩, "urn:ietf:params:xml:ns:yang:iana-if-type", all_literal rfl⟩

/-! ## The trees -/

theorem isDataChar_of_isDigit {c : Char} (h : c.isDigit = true) : isDataChar c = true := by
  obtain ⟨hlow, hhigh⟩ := Char.isDigit_iff_toNat.mp h
  have h0 : '0'.toNat = 48 := rfl
  have h9 : '9'.toNat = 57 := rfl
  have hlegal : isLegal c = true := by
    have h1 : 0x20 ≤ c.toNat := by omega
    have h2 : c.toNat ≠ 0xfffe := by omega
    have h3 : c.toNat ≠ 0xffff := by omega
    simp [isLegal, h1, h2, h3]
  have hne : ∀ d : Char, d.isDigit = false → (c != d) = true := by
    intro d hd
    rw [bne_iff_ne]
    rintro rfl
    rw [h] at hd
    exact absurd hd (by decide)
  rw [isDataChar, hlegal, hne '<' rfl, hne '&' rfl, hne '>' rfl]
  rfl

theorem all_toDigits (n : Nat) : (Nat.toDigits 10 n).all isDataChar = true :=
  List.all_eq_true.mpr fun _ hc =>
    isDataChar_of_isDigit (Nat.isDigit_of_mem_toDigits (by decide) (by decide) hc)

theorem all_formatD (n : Int) : (formatD n).all isDataChar = true := by
  unfold formatD
  split
  · rw [List.all_cons, all_toDigits]
    rfl
  · exact all_toDigits _

def decimal (n : Int) : CharData := ⟨formatD n, all_formatD n⟩

def natural (n : Nat) : CharData := ⟨formatLu n, all_toDigits n⟩

/-! The values that are always the same. -/

def zeroData : CharData := ⟨"0".toList, all_literal rfl⟩

def numeratorData : CharData := ⟨"500".toList, all_literal rfl⟩

def trueData : CharData := ⟨"true".toList, all_literal rfl⟩

def operationData : CharData := ⟨"sched:set-gate-states".toList, all_literal rfl⟩

def ethernetData : CharData := ⟨"iftype:ethernetCsmacd".toList, all_literal rfl⟩

def tableNodes (i : Nat) : List Node :=
  groupLines 2 Tag.maxSduTable.qname (some schedDeclaration)
    (leafLine 3 Tag.trafficClass.qname none (decimal i)
      ++ leafLine 3 Tag.queueMaxSdu.qname none zeroData)

def entryNodes (v : PortValues) (index : Int) : List Node :=
  groupLines 3 Tag.adminControlList.qname none
    (leafLine 4 Tag.index.qname none (decimal index)
      ++ leafLine 4 Tag.operationName.qname none operationData
      ++ groupLines 4 Tag.sgsParams.qname none
        (leafLine 5 Tag.gateStatesValue.qname none (decimal (binaryToDecimal v.gateStates))
          ++ leafLine 5 Tag.timeIntervalValue.qname none (natural v.period)))

def entriesNodes : Nat → List PortValues → List Node
  | _, [] => []
  | index, v :: vs => entryNodes v (toInt index) ++ entriesNodes (index + 1) vs

def cycleTimeNodes (castInf : Int) (hypercycle : Nat) : List Node :=
  groupLines 3 Tag.adminCycleTime.qname none
    (leafLine 4 Tag.numerator.qname none numeratorData
      ++ leafLine 4 Tag.denominator.qname none
        (decimal (denominator castInf hypercycle)))

def baseTimeNodes : List Node :=
  groupLines 3 Tag.adminBaseTime.qname none
    (leafLine 4 Tag.seconds.qname none zeroData
      ++ leafLine 4 Tag.fractionalSeconds.qname none zeroData)

def gateParametersNodes (castInf : Int) (hypercycle : Nat) (values : List PortValues) :
    List Node :=
  groupLines 2 Tag.gateParameters.qname (some schedDeclaration)
    (leafLine 3 Tag.gateEnabled.qname none trueData
      ++ leafLine 3 Tag.adminGateStates.qname none zeroData
      ++ leafLine 3 Tag.adminControlListLength.qname none (decimal (adminControlListLength values))
      ++ entriesNodes 0 values
      ++ cycleTimeNodes castInf hypercycle
      ++ baseTimeNodes
      ++ leafLine 3 Tag.configChange.qname none trueData)

/-- What stands between the tags of an interface. -/
def interfaceContent (castInf : Int) (hypercycle : Nat) (port : LinkedPort) : List Node :=
  leafLine 2 Tag.name.qname none (decimal port.number)
    ++ leafLine 2 Tag.type.qname (some iftypeDeclaration) ethernetData
    ++ (List.range 8).flatMap tableNodes
    ++ gateParametersNodes castInf hypercycle port.values

def interfaceNodes (castInf : Int) (hypercycle : Nat) (port : LinkedPort) : List Node :=
  groupLines 1 Tag.interface.qname none (interfaceContent castInf hypercycle port)

/-- The content of the root: the line break after its start tag, and the interfaces. -/
def interfacesContent (castInf : Int) (ports : List LinkedPort) : List Node :=
  newline :: ports.flatMap (interfaceNodes castInf (linkedHypercycle ports))

def interfacesDocument (castInf : Int) (sw : LinkedSwitch) : Document where
  encoding := "UTF-8".toList
  encoding_valid := by rfl
  gap := ['\n']
  gap_blank := rfl
  name := Tag.interfaces.qname
  attrs := [ifDeclaration.attribute]
  unique := nodup_attributes (some ifDeclaration)
  content := interfacesContent castInf sw.ports
  tail := ['\n']
  tail_blank := rfl

/-! ## Their text -/

theorem renderAll_table (i : Nat) : renderAll (tableNodes i) = xmlWriteTable i := by
  have hgroup : ∀ inner, renderAll
      (groupLines 2 Tag.maxSduTable.qname (some schedDeclaration) inner) =
      ("\t\t<sched:max-sdu-table xmlns:sched=\"urn:ieee:std:802.1Q:yang:ieee802-dot1q-sched\">\n"
        ).toList ++ renderAll inner ++ "\t\t</sched:max-sdu-table>\n".toList :=
    fun _ => renderAll_groupLines rfl rfl (attributes_some rfl rfl) rfl rfl
  have hclass : renderAll (leafLine 3 Tag.trafficClass.qname none (decimal i)) =
      "\t\t\t<sched:traffic-class>".toList ++ formatD i ++ "</sched:traffic-class>\n".toList :=
    renderAll_leafLine rfl rfl rfl rfl
  have hsdu : renderAll (leafLine 3 Tag.queueMaxSdu.qname none zeroData) =
      "\t\t\t<sched:queue-max-sdu>0</sched:queue-max-sdu>\n".toList :=
    renderAll_leafLine_literal rfl rfl attributes_none rfl rfl
  unfold tableNodes xmlWriteTable
  simp only [hgroup, renderAll_append, hclass, hsdu, List.append_assoc]

theorem renderAll_entry (v : PortValues) (index : Int) : renderAll (entryNodes v index) =
    xmlWriteValues v.period (binaryToDecimal v.gateStates) index := by
  have hgroup : ∀ inner, renderAll (groupLines 3 Tag.adminControlList.qname none inner) =
      "\t\t\t<sched:admin-control-list>\n".toList ++ renderAll inner ++
        "\t\t\t</sched:admin-control-list>\n".toList :=
    fun _ => renderAll_groupLines rfl rfl attributes_none rfl rfl
  have hindex : renderAll (leafLine 4 Tag.index.qname none (decimal index)) =
      "\t\t\t\t<sched:index>".toList ++ formatD index ++ "</sched:index>\n".toList :=
    renderAll_leafLine rfl rfl rfl rfl
  have hoperation : renderAll (leafLine 4 Tag.operationName.qname none operationData) =
      "\t\t\t\t<sched:operation-name>sched:set-gate-states</sched:operation-name>\n".toList :=
    renderAll_leafLine_literal rfl rfl attributes_none rfl rfl
  have hparams : ∀ inner, renderAll (groupLines 4 Tag.sgsParams.qname none inner) =
      "\t\t\t\t<sched:sgs-params>\n".toList ++ renderAll inner ++
        "\t\t\t\t</sched:sgs-params>\n".toList :=
    fun _ => renderAll_groupLines rfl rfl attributes_none rfl rfl
  have hgates : renderAll (leafLine 5 Tag.gateStatesValue.qname none
      (decimal (binaryToDecimal v.gateStates))) = "\t\t\t\t\t<sched:gate-states-value>".toList ++
        formatD (binaryToDecimal v.gateStates) ++ "</sched:gate-states-value>\n".toList :=
    renderAll_leafLine rfl rfl rfl rfl
  have htime : renderAll (leafLine 5 Tag.timeIntervalValue.qname none (natural v.period)) =
      "\t\t\t\t\t<sched:time-interval-value>".toList ++ formatLu v.period ++
        "</sched:time-interval-value>\n".toList :=
    renderAll_leafLine rfl rfl rfl rfl
  unfold entryNodes xmlWriteValues
  simp only [hgroup, renderAll_append, hindex, hoperation, hparams, hgates, htime,
    List.append_assoc]

theorem renderAll_entries : ∀ (index : Nat) (vs : List PortValues),
    renderAll (entriesNodes index vs) = xmlWriteEntries index vs
  | _, [] => rfl
  | index, v :: vs => by
    rw [entriesNodes, renderAll_append, renderAll_entry, renderAll_entries (index + 1) vs,
      xmlWriteEntries]

theorem renderAll_cycleTime (castInf : Int) (hypercycle : Nat) :
    renderAll (cycleTimeNodes castInf hypercycle) =
      "\t\t\t<sched:admin-cycle-time>\n".toList
      ++ "\t\t\t\t<sched:numerator>500</sched:numerator>\n".toList
      ++ ("\t\t\t\t<sched:denominator>".toList
        ++ formatD (denominator castInf hypercycle)
        ++ "</sched:denominator>\n".toList)
      ++ "\t\t\t</sched:admin-cycle-time>\n".toList := by
  have hgroup : ∀ inner, renderAll (groupLines 3 Tag.adminCycleTime.qname none inner) =
      "\t\t\t<sched:admin-cycle-time>\n".toList ++ renderAll inner ++
        "\t\t\t</sched:admin-cycle-time>\n".toList :=
    fun _ => renderAll_groupLines rfl rfl attributes_none rfl rfl
  have hnum : renderAll (leafLine 4 Tag.numerator.qname none numeratorData) =
      "\t\t\t\t<sched:numerator>500</sched:numerator>\n".toList :=
    renderAll_leafLine_literal rfl rfl attributes_none rfl rfl
  have hden : ∀ n : Int, renderAll (leafLine 4 Tag.denominator.qname none (decimal n)) =
      "\t\t\t\t<sched:denominator>".toList ++ formatD n ++ "</sched:denominator>\n".toList :=
    fun _ => renderAll_leafLine rfl rfl rfl rfl
  unfold cycleTimeNodes
  simp only [hgroup, renderAll_append, hnum, hden, List.append_assoc]

theorem renderAll_baseTime : renderAll baseTimeNodes =
    "\t\t\t<sched:admin-base-time>\n".toList
    ++ "\t\t\t\t<sched:seconds>0</sched:seconds>\n".toList
    ++ "\t\t\t\t<sched:fractional-seconds>0</sched:fractional-seconds>\n".toList
    ++ "\t\t\t</sched:admin-base-time>\n".toList := by
  have hgroup : ∀ inner, renderAll (groupLines 3 Tag.adminBaseTime.qname none inner) =
      "\t\t\t<sched:admin-base-time>\n".toList ++ renderAll inner ++
        "\t\t\t</sched:admin-base-time>\n".toList :=
    fun _ => renderAll_groupLines rfl rfl attributes_none rfl rfl
  have hsec : renderAll (leafLine 4 Tag.seconds.qname none zeroData) =
      "\t\t\t\t<sched:seconds>0</sched:seconds>\n".toList :=
    renderAll_leafLine_literal rfl rfl attributes_none rfl rfl
  have hfrac : renderAll (leafLine 4 Tag.fractionalSeconds.qname none zeroData) =
      "\t\t\t\t<sched:fractional-seconds>0</sched:fractional-seconds>\n".toList :=
    renderAll_leafLine_literal rfl rfl attributes_none rfl rfl
  unfold baseTimeNodes
  simp only [hgroup, renderAll_append, hsec, hfrac, List.append_assoc]

/-- The whole text of a port. The two elements that `xml_write_port` leaves open are closed by
`xml_write_values_end`. -/
theorem renderAll_interface (castInf : Int) (hypercycle : Nat) (port : LinkedPort) :
    renderAll (interfaceNodes castInf hypercycle port) =
      linkedPortText castInf hypercycle port := by
  have hgroup : ∀ inner, renderAll (groupLines 1 Tag.interface.qname none inner) =
      "\t<if:interface>\n".toList ++ renderAll inner ++ "\t</if:interface>\n".toList :=
    fun _ => renderAll_groupLines rfl rfl attributes_none rfl rfl
  have hname : renderAll (leafLine 2 Tag.name.qname none (decimal port.number)) =
      "\t\t<if:name>".toList ++ formatD port.number ++ "</if:name>\n".toList :=
    renderAll_leafLine rfl rfl rfl rfl
  have htype : renderAll (leafLine 2 Tag.type.qname (some iftypeDeclaration) ethernetData) =
      ("\t\t<if:type xmlns:iftype=\"urn:ietf:params:xml:ns:yang:iana-if-type\">" ++
        "iftype:ethernetCsmacd</if:type>\n").toList := by
    simp only [String.reduceAppend]
    exact renderAll_leafLine_literal rfl rfl (attributes_some rfl rfl) rfl rfl
  have htables : renderAll ((List.range 8).flatMap tableNodes) =
      (List.range 8).flatMap xmlWriteTable :=
    renderAll_flatMap fun i _ => renderAll_table i
  have hparams : ∀ inner, renderAll
      (groupLines 2 Tag.gateParameters.qname (some schedDeclaration) inner) =
      ("\t\t<sched:gate-parameters xmlns:sched=" ++
        "\"urn:ieee:std:802.1Q:yang:ieee802-dot1q-sched\">\n").toList ++ renderAll inner ++
        "\t\t</sched:gate-parameters>\n".toList := by
    intro inner
    simp only [String.reduceAppend]
    exact renderAll_groupLines rfl rfl (attributes_some rfl rfl) rfl rfl
  have henabled : renderAll (leafLine 3 Tag.gateEnabled.qname none trueData) =
      "\t\t\t<sched:gate-enabled>true</sched:gate-enabled>\n".toList :=
    renderAll_leafLine_literal rfl rfl attributes_none rfl rfl
  have hstates : renderAll (leafLine 3 Tag.adminGateStates.qname none zeroData) =
      "\t\t\t<sched:admin-gate-states>0</sched:admin-gate-states>\n".toList :=
    renderAll_leafLine_literal rfl rfl attributes_none rfl rfl
  have hlength : ∀ n : Int,
      renderAll (leafLine 3 Tag.adminControlListLength.qname none (decimal n)) =
        "\t\t\t<sched:admin-control-list-length>".toList ++ formatD n ++
          "</sched:admin-control-list-length>\n".toList :=
    fun _ => renderAll_leafLine rfl rfl rfl rfl
  have hchange : renderAll (leafLine 3 Tag.configChange.qname none trueData) =
      "\t\t\t<sched:config-change>true</sched:config-change>\n".toList :=
    renderAll_leafLine_literal rfl rfl attributes_none rfl rfl
  unfold interfaceNodes interfaceContent gateParametersNodes linkedPortText xmlWritePort
    xmlWriteValuesEnd xmlWriteValuesEndWith
  simp only [hgroup, renderAll_append, hname, htype, htables, hparams, henabled, hstates, hlength,
    renderAll_entries, renderAll_cycleTime, renderAll_baseTime, hchange, List.append_assoc]

/-- **What is written for a switch is the text of a document.** -/
theorem document_text (castInf : Int) (sw : LinkedSwitch) :
    (interfacesDocument castInf sw).text = linkedText castInf sw := by
  have hdeclaration : "<?xml version=\"1.0\" encoding=\"".toList ++ "UTF-8".toList ++
      "\"?>".toList ++ ['\n'] = "<?xml version=\"1.0\" encoding=\"UTF-8\"?>\n".toList := by
    have hnewline : ['\n'] = "\n".toList := eq_literal rfl
    simp only [hnewline, ← String.toList_append, String.reduceAppend]
  have hopen : startTag Tag.interfaces.qname [ifDeclaration.attribute] ++ ['\n'] =
      "<if:interfaces xmlns:if=\"urn:ietf:params:xml:ns:yang:ietf-interfaces\">\n".toList := by
    have hstart := @startTag_literal Tag.interfaces.qname (some ifDeclaration) _ _ _ rfl rfl
      (attributes_some rfl rfl)
    exact (congrArg (· ++ ['\n']) hstart).trans (eq_literal rfl)
  have hclose : endTag Tag.interfaces.qname ++ ['\n'] = "</if:interfaces>\n".toList :=
    (congrArg (· ++ ['\n']) (endTag_literal rfl rfl)).trans (eq_literal rfl)
  have hports : renderAll (interfacesContent castInf sw.ports) =
      '\n' :: sw.ports.flatMap (linkedPortText castInf (linkedHypercycle sw.ports)) := by
    show ['\n'] ++ renderAll _ = _
    rw [renderAll_flatMap fun port _ => renderAll_interface castInf _ port]
    rfl
  show "<?xml version=\"1.0\" encoding=\"".toList ++ "UTF-8".toList ++ "\"?>".toList ++ ['\n'] ++
    (startTag Tag.interfaces.qname [ifDeclaration.attribute] ++
      (renderAll (interfacesContent castInf sw.ports) ++ endTag Tag.interfaces.qname)) ++ ['\n'] = _
  unfold linkedText
  rw [hdeclaration, hports, ← hopen, ← hclose]
  simp only [List.append_assoc, List.cons_append, List.nil_append]

/-! ## Their scope -/

section Scope

variable {env : Env}

theorem bound_sched : Bound namespaces (declared (some schedDeclaration) ++ env) "sched" :=
  ⟨_, List.lookup_cons_self, rfl⟩

theorem bound_if : Bound namespaces (declared (some ifDeclaration) ++ env) "if" :=
  ⟨_, List.lookup_cons_self, List.lookup_cons_self⟩

/-- The declaration of a value's prefix does not hide the one of its element. -/
theorem bound_if_type : Bound namespaces
    (declared (some iftypeDeclaration) ++ (declared (some ifDeclaration) ++ env)) "if" := by
  refine ⟨_, ?_, List.lookup_cons_self⟩
  have hne : ("if" == "iftype") = false := by decide
  show List.lookup "if" (("iftype", _) :: ("if", _) :: env) = _
  rw [List.lookup_cons, hne]
  exact List.lookup_cons_self

theorem scoped_table (i : Nat) : ScopedAll namespaces env (tableNodes i) :=
  scopedAll_groupLines bound_sched
    ((scopedAll_leafLine bound_sched).append (scopedAll_leafLine bound_sched))

theorem scoped_entry (v : PortValues) (index : Int) :
    ScopedAll namespaces (declared (some schedDeclaration) ++ env) (entryNodes v index) := by
  refine scopedAll_groupLines bound_sched
    (((scopedAll_leafLine bound_sched).append (scopedAll_leafLine bound_sched)).append ?_)
  exact scopedAll_groupLines bound_sched
    ((scopedAll_leafLine bound_sched).append (scopedAll_leafLine bound_sched))

theorem scoped_entries : ∀ (index : Nat) (vs : List PortValues),
    ScopedAll namespaces (declared (some schedDeclaration) ++ env) (entriesNodes index vs)
  | _, [] => trivial
  | index, v :: vs => (scoped_entry v (toInt index)).append (scoped_entries (index + 1) vs)

theorem scoped_cycleTime (castInf : Int) (hypercycle : Nat) :
    ScopedAll namespaces (declared (some schedDeclaration) ++ env)
      (cycleTimeNodes castInf hypercycle) :=
  scopedAll_groupLines bound_sched
    ((scopedAll_leafLine bound_sched).append (scopedAll_leafLine bound_sched))

theorem scoped_baseTime :
    ScopedAll namespaces (declared (some schedDeclaration) ++ env) baseTimeNodes :=
  scopedAll_groupLines bound_sched
    ((scopedAll_leafLine bound_sched).append (scopedAll_leafLine bound_sched))

theorem scoped_gateParameters (castInf : Int) (hypercycle : Nat) (values : List PortValues) :
    ScopedAll namespaces env (gateParametersNodes castInf hypercycle values) := by
  have hfirst : ScopedAll namespaces (declared (some schedDeclaration) ++ env)
      (leafLine 3 Tag.gateEnabled.qname none trueData
        ++ leafLine 3 Tag.adminGateStates.qname none zeroData
        ++ leafLine 3 Tag.adminControlListLength.qname none
          (decimal (adminControlListLength values))) :=
    ((scopedAll_leafLine bound_sched).append (scopedAll_leafLine bound_sched)).append
      (scopedAll_leafLine bound_sched)
  have hchange : ScopedAll namespaces (declared (some schedDeclaration) ++ env)
      (leafLine 3 Tag.configChange.qname none trueData) := scopedAll_leafLine bound_sched
  exact scopedAll_groupLines bound_sched ((((hfirst.append (scoped_entries 0 values)).append
    (scoped_cycleTime castInf hypercycle)).append scoped_baseTime).append hchange)

theorem scoped_interface (castInf : Int) (hypercycle : Nat) (port : LinkedPort) :
    ScopedAll namespaces (declared (some ifDeclaration) ++ env)
      (interfaceNodes castInf hypercycle port) := by
  have hname : ScopedAll namespaces (declared (some ifDeclaration) ++ env)
      (leafLine 2 Tag.name.qname none (decimal port.number)) := scopedAll_leafLine bound_if
  have htype : ScopedAll namespaces (declared (some ifDeclaration) ++ env)
      (leafLine 2 Tag.type.qname (some iftypeDeclaration) ethernetData) :=
    scopedAll_leafLine bound_if_type
  exact scopedAll_groupLines bound_if (((hname.append htype).append
    (scopedAll_flatMap fun i _ => scoped_table i)).append (scoped_gateParameters _ _ _))

end Scope

/-- No declaration is in force outside of the root, and none is needed. -/
theorem scoped_document (castInf : Int) (sw : LinkedSwitch) :
    (interfacesDocument castInf sw).root.Scoped namespaces [] := by
  show (element Tag.interfaces.qname (some ifDeclaration) _).Scoped namespaces []
  refine scoped_element bound_if ⟨trivial, ?_⟩
  exact scopedAll_flatMap fun port _ => scoped_interface castInf _ port

/-! ## Their elements -/

def tableTags : List Tag := [.maxSduTable, .trafficClass, .queueMaxSdu]

def entryTags : List Tag :=
  [.adminControlList, .index, .operationName, .sgsParams, .gateStatesValue, .timeIntervalValue]

/-- The elements of an interface with a number of entries, itself left out. -/
def interfaceTags (entries : Nat) : List Tag :=
  [Tag.name, .type] ++ (List.replicate 8 tableTags).flatten
    ++ [Tag.gateParameters, .gateEnabled, .adminGateStates, .adminControlListLength]
    ++ (List.replicate entries entryTags).flatten
    ++ [Tag.adminCycleTime, .numerator, .denominator, .adminBaseTime, .seconds, .fractionalSeconds,
      .configChange]

theorem namesAll_table (i : Nat) : namesAll (tableNodes i) = tableTags.map Tag.qname := by
  rw [tableNodes, namesAll_groupLines, namesAll_append, namesAll_leafLine, namesAll_leafLine]
  rfl

theorem namesAll_entries : ∀ (index : Nat) (vs : List PortValues),
    namesAll (entriesNodes index vs) =
      ((List.replicate vs.length entryTags).flatten).map Tag.qname
  | _, [] => rfl
  | index, v :: vs => by
    rw [entriesNodes, namesAll_append, namesAll_entries (index + 1) vs, List.length_cons,
      List.replicate_succ, List.flatten_cons, List.map_append]
    rfl

theorem namesAll_interfaceContent (castInf : Int) (hypercycle : Nat) (port : LinkedPort) :
    namesAll (interfaceContent castInf hypercycle port) =
      (interfaceTags port.values.length).map Tag.qname := by
  have htables : namesAll ((List.range 8).flatMap tableNodes) =
      ((List.replicate 8 tableTags).flatten).map Tag.qname := by
    simp only [namesAll_flatMap, namesAll_table]
    rfl
  have hcycle : namesAll (cycleTimeNodes castInf hypercycle) =
      [Tag.adminCycleTime, .numerator, .denominator].map Tag.qname := rfl
  have hbase : namesAll baseTimeNodes =
      [Tag.adminBaseTime, .seconds, .fractionalSeconds].map Tag.qname := rfl
  unfold interfaceContent gateParametersNodes interfaceTags
  simp only [namesAll_append, namesAll_leafLine, namesAll_groupLines, namesAll_entries, htables,
    hcycle, hbase, List.map_append, List.map_cons, List.map_nil, List.append_assoc,
    List.cons_append, List.nil_append]

/-- The gate parameters occur once, however many entries there are. -/
theorem count_gateParameters (entries : Nat) :
    (interfaceTags entries).count .gateParameters = 1 := by
  unfold interfaceTags
  simp only [List.count_append, List.count_flatten, List.map_replicate, List.sum_replicate]
  rfl

theorem count_interface (entries : Nat) : (interfaceTags entries).count .interface = 0 := by
  unfold interfaceTags
  simp only [List.count_append, List.count_flatten, List.map_replicate, List.sum_replicate]
  rfl

theorem count_names_interface (castInf : Int) (hypercycle : Nat) (port : LinkedPort) :
    (namesAll (interfaceContent castInf hypercycle port)).count Tag.gateParameters.qname = 1 := by
  rw [namesAll_interfaceContent, Tag.count_map_qname Tag.loc_gateParameters, count_gateParameters]

/-- There is no interface inside an interface. -/
theorem interface_not_mem (castInf : Int) (hypercycle : Nat) (port : LinkedPort) :
    Tag.interface.qname ∉ namesAll (interfaceContent castInf hypercycle port) := by
  rw [← List.count_eq_zero, namesAll_interfaceContent, Tag.count_map_qname Tag.loc_interface,
    count_interface]

/-- A well-formed document with the interfaces of a switch: its root, its prefixes, and the gate
parameters of each interface. -/
def IsInterfacesDocument (t : Text) : Prop :=
  ∃ d : Document, d.text = t ∧ d.name = Tag.interfaces.qname ∧ d.root.Scoped namespaces [] ∧
    ∀ x ∈ d.root.elements, x.name? = some Tag.interface.qname →
      x.names.count Tag.gateParameters.qname = 1

theorem count_of_mem_interface (castInf : Int) (hypercycle : Nat) (port : LinkedPort) {x : Node}
    (hx : x ∈ elementsAll (interfaceNodes castInf hypercycle port))
    (hname : x.name? = some Tag.interface.qname) :
    x.names.count Tag.gateParameters.qname = 1 := by
  rw [interfaceNodes, elementsAll_groupLines] at hx
  rcases List.mem_cons.mp hx with rfl | hx
  · have hne : ¬ Tag.interface.qname = Tag.gateParameters.qname := by
      intro h
      have hloc := congrArg (fun q : QName => q.loc.str) h
      exact absurd (Tag.loc_gateParameters .interface hloc) (by simp)
    rw [names_group, List.count_cons_of_ne hne, count_names_interface]
  · exact absurd (mem_namesAll hx hname) (interface_not_mem castInf hypercycle port)

theorem isInterfacesDocument_linkedText (castInf : Int) (sw : LinkedSwitch) :
    IsInterfacesDocument (linkedText castInf sw) := by
  refine ⟨interfacesDocument castInf sw, document_text castInf sw, rfl,
    scoped_document castInf sw, fun x hx hname => ?_⟩
  have hroot : (interfacesDocument castInf sw).root.elements =
      (interfacesDocument castInf sw).root :: elementsAll (interfacesContent castInf sw.ports) :=
    rfl
  rw [hroot] at hx
  rcases List.mem_cons.mp hx with rfl | hx
  · -- the root itself has another name
    have hloc := congrArg (fun q : QName => q.loc.str) (Option.some.inj hname)
    exact absurd (Tag.loc_interface .interfaces hloc) (by simp)
  · have hports : elementsAll (interfacesContent castInf sw.ports) = elementsAll
        (sw.ports.flatMap (interfaceNodes castInf (linkedHypercycle sw.ports))) := rfl
    rw [hports, elementsAll_flatMap] at hx
    obtain ⟨port, _, hport⟩ := List.mem_flatMap.mp hx
    exact count_of_mem_interface castInf _ port hport hname

/-- **Every document that is written is well formed**: one declaration, one `if:interfaces`, tags
that match, prefixes in the scope of their declarations, and for each interface its gate
parameters once. -/
theorem xmlWriteInstance_wellFormed (castInf : Int) :
    (∀ (opens : Text → Bool) (list : CellList Switch),
      ∀ file ∈ (xmlWriteInstance opens castInf list).files, IsInterfacesDocument file.2) ∧
    ∀ list : List LinkedSwitch, ∀ file ∈ writeLinked castInf list,
      IsInterfacesDocument file.2 := by
  have hlinked : ∀ list : List LinkedSwitch, ∀ file ∈ writeLinked castInf list,
      IsInterfacesDocument file.2 := by
    intro list file hfile
    obtain ⟨sw, _, rfl⟩ := List.mem_map.mp hfile
    exact isInterfacesDocument_linkedText castInf sw
  refine ⟨fun opens list file hfile => ?_, hlinked⟩
  have hdocument := mem_of_mem_writeFiles hfile
  rw [documents_eq_writeLinked] at hdocument
  exact hlinked _ file hdocument

/-- One switch with a port and a value in it. -/
def oneSwitch : CellList Switch :=
  .create ⟨"alpha".toList, .create ⟨-1, .create ⟨500, 1010⟩⟩⟩

/-- A switch of the client's, and one without ports. -/
theorem xmlWriteInstance_wellFormed_samples :
    (∃ file ∈ (xmlWriteInstance (fun _ => true) 0 oneSwitch).files, IsInterfacesDocument file.2) ∧
    ∃ file ∈ writeLinked 0 [⟨"beta".toList, []⟩], IsInterfacesDocument file.2 := by
  have hone : (outputPath "alpha".toList, instanceText 0 oneSwitch.head.value) ∈
      (xmlWriteInstance (fun _ => true) 0 oneSwitch).files := List.mem_cons_self
  have hnone : (outputPath "beta".toList, linkedText 0 ⟨"beta".toList, []⟩) ∈
      writeLinked 0 [⟨"beta".toList, []⟩] := List.mem_cons_self
  exact ⟨⟨_, hone, (xmlWriteInstance_wellFormed 0).1 _ _ _ hone⟩,
    ⟨_, hnone, (xmlWriteInstance_wellFormed 0).2 _ _ hnone⟩⟩

end Client
end TsnController

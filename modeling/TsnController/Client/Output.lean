import Mathlib.Algebra.Order.BigOperators.Group.List
import Mathlib.Algebra.Order.Ring.Nat
import TsnController.Client.Emit

/-!
# What the client leaves behind

Three questions about a run that do not need the documents to be read: which switches get a file,
which of the files are still there at the end, and which cycle time the ports are given.

The answers to the last two are not what one would hope for. A file is opened by the name of its
switch alone, so of several switches with one name the last one wins. And the cycle time is not
summed up at all: `=+` is an assignment followed by a sign, and the variable is neither reset
between ports nor used before all of them have been visited, so that every port of a switch is
given the last period of its last port.
-/

set_option autoImplicit false

namespace TsnController
namespace Client

open CLib Lib Json

/-- The list `main` has read when it starts to write. -/
def clientList (junk : Junk) (config : Text) : Option (CellList Switch) :=
  (jsonParse config).bind fun node => (readAll junk node).toOption

/-- A result is there and has a property, by evaluation. -/
theorem exists_of_any {α : Type} {o : Option α} {P : α → Prop} [DecidablePred P]
    (h : o.any (fun a => decide (P a)) = true) : ∃ a, o = some a ∧ P a := by
  obtain ⟨a, ha, hP⟩ := (Option.any_eq_true _ _).mp h
  exact ⟨a, ha, of_decide_eq_true hP⟩

/-! ## Which switches are read -/

section Main

variable {t : Text} {tree : JsonTree} {list : CellList Switch} {junk : Junk}

/-- The run on a document from which a list is read. -/
theorem clientMain_of_read (opens : Text → Bool) (castInf : Int) (h : jsonParse t = some tree)
    (hread : readAll junk tree = .ok list) :
    clientMain opens junk castInf t = xmlWriteInstance opens castInf list := by
  unfold clientMain
  simp only [h, hread]

theorem clientMain_of_error (opens : Text → Bool) (castInf : Int) {halt : Halt}
    (h : jsonParse t = some tree) (hread : readAll junk tree = .error halt) :
    clientMain opens junk castInf t = ⟨some halt, []⟩ := by
  unfold clientMain
  simp only [h, hread]

/-- Where every file can be opened, every document is written. -/
theorem xmlWriteInstance_of_opens {opens : Text → Bool} (castInf : Int)
    (hopens : ∀ sw ∈ list.values, opens (outputPath sw.name) = true) :
    xmlWriteInstance opens castInf list = ⟨none, documents castInf list⟩ := by
  apply writeFiles_of_opens
  intro file hfile
  obtain ⟨sw, hsw, rfl⟩ := List.mem_map.mp hfile
  exact hopens sw hsw

end Main

/-- **All or nothing.** A selected node without an array of ports ends the program before a file
is opened; otherwise the switches are the selected nodes in document order, each with one port for
every item of its array, and the documents of all of them are written unless one cannot be
opened. -/
theorem clientMain_selects (opens : Text → Bool) (junk : Junk) (castInf : Int) {t : Text}
    {tree : JsonTree} (h : jsonParse t = some tree)
    (hname : ∀ n ∈ preorder tree, isSwitch n = true → ShortName n) :
    ((∃ n ∈ preorder tree, isSwitch n = true ∧ hasPorts n = false) →
      clientMain opens junk castInf t = ⟨some (.exit 1), []⟩) ∧
    ((∀ n ∈ preorder tree, isSwitch n = true → hasPorts n = true) →
      ∃ list, readAll junk tree = .ok list ∧
        clientMain opens junk castInf t = xmlWriteInstance opens castInf list ∧
        ((∀ sw ∈ list.values, opens (outputPath sw.name) = true) →
          clientMain opens junk castInf t = ⟨none, documents castInf list⟩) ∧
        List.Forall₂ (fun n sw =>
            jsonString (jsonNode n.1 "switch".toList) = some sw.name ∧
            sw.portList.held.length = jsonItems (jsonNode n.1 "port_list".toList) ∧
            sw.portList.held = (children (jsonNode n.1 "port_list".toList)).mapIdx fun i =>
              readPort ((junk.ports n.2).values i))
          ((preorder tree).filter isSwitch).zipIdx list.held) := by
  refine ⟨fun hbad => clientMain_of_error opens castInf h (readAll_exits junk h hname hbad),
    fun hall => ?_⟩
  obtain ⟨list, hread, hheld⟩ := readAll_held junk h hname hall
  have hmain := clientMain_of_read opens castInf h hread
  refine ⟨list, hread, hmain, fun hopens => hmain.trans (xmlWriteInstance_of_opens castInf hopens),
    ?_⟩
  rw [hheld, List.mapIdx_eq_zipIdx_map, List.forall₂_map_right_iff, List.forall₂_same]
  rintro ⟨n, k⟩ hn
  obtain ⟨hmem, hs⟩ := List.mem_filter.mp (List.fst_mem_of_mem_zipIdx hn)
  refine ⟨jsonString_eq_switchOf _ (switchName_ne_none h hmem hs), ?_, held_readPorts _ _⟩
  show (readPorts _ _).held.length = _
  rw [held_readPorts, List.length_mapIdx, jsonItems_eq]

/-- A switch hidden in a port of another, with this for its ports. -/
def nestedSwitch (ports : String) : Text :=
  ("[\x7b\"switch\":\"a\",\"port_list\":[\x7b\"port_number\":1,\"values\":[[1,1]]," ++
    "\"sub\":\x7b\"switch\":\"b\",\"port_list\":" ++ ports ++ "\x7d\x7d]\x7d]").toList

/-- An object where the ports should be, and an array. -/
theorem clientMain_selects_nested :
    clientMain (fun _ => true) default 0 (nestedSwitch "\x7b\x7d") = ⟨some (.exit 1), []⟩ ∧
    ∃ list, clientMain (fun _ => true) default 0 (nestedSwitch "[1,2]") =
      ⟨none, documents 0 list⟩ ∧ list.held.length = 2 := by
  obtain ⟨tree, htree, hname, hbad⟩ : ∃ tree,
      jsonParse (nestedSwitch "\x7b\x7d") = some tree ∧
      (∀ n ∈ preorder tree, isSwitch n = true → ShortName n) ∧
      ∃ n ∈ preorder tree, isSwitch n = true ∧ hasPorts n = false :=
    exists_of_any (by decide +kernel)
  obtain ⟨tree', htree', hname', hports, hcount⟩ : ∃ tree,
      jsonParse (nestedSwitch "[1,2]") = some tree ∧
      (∀ n ∈ preorder tree, isSwitch n = true → ShortName n) ∧
      (∀ n ∈ preorder tree, isSwitch n = true → hasPorts n = true) ∧
      ((preorder tree).filter isSwitch).length = 2 :=
    exists_of_any (by decide +kernel)
  refine ⟨(clientMain_selects (fun _ => true) default 0 htree hname).1 hbad, ?_⟩
  obtain ⟨list, _, _, hmain, hall⟩ :=
    (clientMain_selects (fun _ => true) default 0 htree' hname').2 hports
  refine ⟨list, hmain fun _ _ => rfl, ?_⟩
  rw [← hall.length_eq, List.length_zipIdx, hcount]

/-! ## The cycle time -/

/-- The cycle time a port should get. -/
def periodSum (port : Port) : Nat := (port.values.values.map (·.period)).sum

def lastPort (sw : Switch) : Port := sw.portList.values.getLast sw.portList.values_ne_nil

/-- All ports have the same cycle time, and the last one has all of it in its last entry. -/
def EvenCycle (sw : Switch) : Prop :=
  (∀ port ∈ sw.portList.values, periodSum port = periodSum (lastPort sw)) ∧
  ∀ v ∈ (lastPort sw).values.values.dropLast, v.period = 0

theorem hypercyclePort_eq (h : Nat) (values : CellList PortValues) :
    hypercyclePort h values.values = (values.values.getLast values.values_ne_nil).period := by
  unfold hypercyclePort
  conv_lhs => rw [← List.dropLast_append_getLast values.values_ne_nil]
  rw [List.foldl_append]
  rfl

/-- Only the last entry of the last port is left in the variable. -/
theorem hypercycle_eq (sw : Switch) : hypercycle sw.portList.values =
    ((lastPort sw).values.values.getLast (lastPort sw).values.values_ne_nil).period := by
  unfold hypercycle
  conv_lhs => rw [← List.dropLast_append_getLast sw.portList.values_ne_nil]
  rw [List.foldl_append, List.foldl_cons, List.foldl_nil]
  exact hypercyclePort_eq _ (lastPort sw).values

theorem periodSum_eq (port : Port) : periodSum port =
    (port.values.values.dropLast.map (·.period)).sum +
      (port.values.values.getLast port.values.values_ne_nil).period := by
  unfold periodSum
  conv_lhs => rw [← List.dropLast_append_getLast port.values.values_ne_nil]
  simp

/-- **The cycle time is the port's own** exactly in the lists where it makes no difference that only
the last period counts. -/
theorem hypercycle_own_iff (list : CellList Switch) :
    (∀ sw ∈ list.values, ∀ call ∈ valuesEndCalls sw, call.2 = periodSum call.1) ↔
      ∀ sw ∈ list.values, EvenCycle sw := by
  have hlast : ∀ sw : Switch, hypercycle sw.portList.values = periodSum (lastPort sw) ↔
      ∀ v ∈ (lastPort sw).values.values.dropLast, v.period = 0 := by
    intro sw
    rw [hypercycle_eq, periodSum_eq, right_eq_add, List.sum_eq_zero_iff]
    exact List.forall_mem_map
  constructor
  · intro h sw hsw
    have hcall : ∀ port ∈ sw.portList.values, hypercycle sw.portList.values = periodSum port := by
      intro port hport
      exact h sw hsw (port, _) (List.mem_map_of_mem hport)
    have hself := hcall (lastPort sw) (List.getLast_mem sw.portList.values_ne_nil)
    refine ⟨?_, (hlast sw).mp hself⟩
    intro port hport
    rw [← hcall port hport, hself]
  · intro h sw hsw call hmem
    obtain ⟨port, hport, rfl⟩ := List.mem_map.mp hmem
    obtain ⟨hsame, hzero⟩ := h sw hsw
    show hypercycle sw.portList.values = periodSum port
    rw [(hlast sw).mpr hzero, hsame port hport]

/-- Two entries in one port are enough: it is given `20` instead of `30`. -/
theorem hypercycle_not_own : ∃ list,
    clientList default ("[\x7b\"switch\":\"a\",\"port_list\":[\x7b\"port_number\":1," ++
      "\"values\":[[10,1],[20,0]]\x7d]\x7d]").toList = some list ∧
    ¬ ∀ sw ∈ list.values, ∀ call ∈ valuesEndCalls sw, call.2 = periodSum call.1 := by
  exact exists_of_any (by decide +kernel)

/-! ## The directory

A directory maps files to contents, and opening a file for writing replaces what was there. Which
file a path leads to is up to the system; where nothing is said about it, every path is a file of
its own. -/

abbrev Directory (Inode : Type) := Inode → Option Text

section Directory

variable {Inode : Type} [DecidableEq Inode] (resolve : Text → Inode)

/-- `fopen(path, "w")`, the writes and `fclose`. -/
def writeFile (dir : Directory Inode) (file : Text × Text) : Directory Inode :=
  Function.update dir (resolve file.1) (some file.2)

theorem writeFile_frame {f : Inode} (files : List (Text × Text))
    (h : ∀ file ∈ files, resolve file.1 ≠ f) : ∀ dir : Directory Inode,
    files.foldl (writeFile resolve) dir f = dir f := by
  induction files with
  | nil => intro dir; rfl
  | cons file files ih =>
    intro dir
    rw [List.foldl_cons, ih fun f hf => h f (List.mem_cons_of_mem file hf)]
    exact Function.update_of_ne (h file List.mem_cons_self).symm _ _

end Directory

/-- The directory after `xml_write_instance`. -/
def outputAfter (opens : Text → Bool) (castInf : Int) (dir : Directory Text)
    (list : CellList Switch) : Directory Text :=
  (xmlWriteInstance opens castInf list).files.foldl (writeFile id) dir

theorem outputPath_injective : Function.Injective outputPath := by
  intro a b h
  unfold outputPath at h
  exact List.append_cancel_left (List.append_cancel_right h)

/-- Of several files of one path the last stays. -/
theorem outputAfter_last {opens : Text → Bool} {castInf : Int} (dir : Directory Text)
    {list : CellList Switch} (hne : list.held ≠ [])
    (hopens : ∀ sw ∈ list.held, opens (outputPath sw.name) = true) {pre post : List Switch}
    {sw : Switch} (hsplit : list.held = pre ++ sw :: post)
    (hlast : ∀ s ∈ post, s.name ≠ sw.name) :
    outputAfter opens castInf dir list (outputPath sw.name) = some (instanceText castInf sw) := by
  have hvalues : list.values = list.held := CellList.values_eq_held hne
  unfold outputAfter
  rw [xmlWriteInstance_of_opens castInf (hvalues ▸ hopens)]
  unfold documents
  rw [hvalues, hsplit, List.map_append, List.map_cons, List.foldl_append, List.foldl_cons,
    writeFile_frame]
  · exact Function.update_self _ _ _
  · intro file hfile heq
    obtain ⟨s, hs, rfl⟩ := List.mem_map.mp hfile
    exact hlast s hs (outputPath_injective heq)

theorem exists_last_named (name : Text) (list : List Switch) (h : ∃ sw ∈ list, sw.name = name) :
    ∃ pre last post, list = pre ++ last :: post ∧ last.name = name ∧
      ∀ s ∈ post, s.name ≠ name := by
  induction list with
  | nil =>
    obtain ⟨sw, hsw, _⟩ := h
    exact absurd hsw (by simp)
  | cons sw list ih =>
    by_cases hlater : ∃ s ∈ list, s.name = name
    · obtain ⟨pre, last, post, hsplit, hname, hlast⟩ := ih hlater
      exact ⟨sw :: pre, last, post, by rw [hsplit, List.cons_append], hname, hlast⟩
    · obtain ⟨s, hs, hname⟩ := h
      rcases List.mem_cons.mp hs with rfl | hs
      · exact ⟨[], s, list, rfl, hname, fun s' hs' heq => hlater ⟨s', hs', heq⟩⟩
      · exact absurd ⟨s, hs, hname⟩ hlater

/-- **The file named after a switch** holds the last switch of that name, complete. So a switch
keeps its own document as long as no later one has its name. -/
theorem output_holds_last {opens : Text → Bool} (castInf : Int) (dir : Directory Text)
    {list : CellList Switch} (hne : list.held ≠ [])
    (hopens : ∀ sw ∈ list.held, opens (outputPath sw.name) = true) :
    (∀ sw ∈ list.held, ∃ pre last post, list.held = pre ++ last :: post ∧ last.name = sw.name ∧
      (∀ s ∈ post, s.name ≠ sw.name) ∧
      outputAfter opens castInf dir list (outputPath sw.name) =
        some (instanceText castInf last)) ∧
    ∀ pre sw post, list.held = pre ++ sw :: post → (∀ s ∈ post, s.name ≠ sw.name) →
      outputAfter opens castInf dir list (outputPath sw.name) =
        some (instanceText castInf sw) := by
  refine ⟨?_, fun pre sw post hsplit hlast => outputAfter_last dir hne hopens hsplit hlast⟩
  intro sw hsw
  obtain ⟨pre, last, post, hsplit, hname, hlast⟩ :=
    exists_last_named sw.name list.held ⟨sw, hsw, rfl⟩
  refine ⟨pre, last, post, hsplit, hname, hlast, ?_⟩
  rw [← hname] at hlast ⊢
  exact outputAfter_last dir hne hopens hsplit hlast

/-- Three switches, the first and the last of one name. -/
def repeatedName : Text :=
  ("[\x7b\"switch\":\"a\",\"port_list\":[1]\x7d,\x7b\"switch\":\"b\",\"port_list\":[2]\x7d," ++
    "\x7b\"switch\":\"a\",\"port_list\":[\x7b\"port_number\":3,\"values\":[[10,1]]\x7d]" ++
    "\x7d]").toList

theorem output_holds_last_repeated : ∃ first second third list,
    clientList default repeatedName = some list ∧ list.held = [first, second, third] ∧
    first.name = third.name ∧
    outputAfter (fun _ => true) 0 (fun _ => none) list (outputPath first.name) =
      some (instanceText 0 third) := by
  obtain ⟨list, hlist, hnames⟩ : ∃ list, clientList default repeatedName = some list ∧
      list.held.map (·.name) = ["a".toList, "b".toList, "a".toList] :=
    exists_of_any (by decide +kernel)
  obtain ⟨first, l, hheld, hfirst, h⟩ := List.map_eq_cons_iff.mp hnames
  obtain ⟨second, l, rfl, _, h⟩ := List.map_eq_cons_iff.mp h
  obtain ⟨third, l, rfl, hthird, h⟩ := List.map_eq_cons_iff.mp h
  obtain rfl := List.map_eq_nil_iff.mp h
  have hname : first.name = third.name := hfirst.trans hthird.symm
  refine ⟨first, second, third, list, hlist, hheld, hname, ?_⟩
  rw [hname]
  exact (output_holds_last 0 (fun _ => none) (hheld ▸ List.cons_ne_nil _ _) fun _ _ => rfl).2
    [first, second] third [] hheld (by simp)

/-- Two switches of one name: the ports of the first are in no file. -/
theorem output_lost : ∃ list,
    clientList default ("[\x7b\"switch\":\"a\",\"port_list\":[" ++
      "\x7b\"port_number\":1,\"values\":[[10,1]]\x7d]\x7d,\x7b\"switch\":\"a\"," ++
      "\"port_list\":[\x7b\"port_number\":2,\"values\":[[10,1]]\x7d]\x7d]").toList = some list ∧
    list.held ≠ [] ∧ ∃ sw ∈ list.held,
      outputAfter (fun _ => true) 0 (fun _ => none) list (outputPath sw.name) ≠
        some (instanceText 0 sw) := by
  generalize ht : String.toList _ = t
  obtain ⟨list, hlist, sw, hsw, hlost⟩ : ∃ list, clientList default t = some list ∧
      ∃ sw ∈ list.held, outputAfter (fun _ => true) 0 (fun _ => none) list (outputPath sw.name) ≠
        some (instanceText 0 sw) := by
    rw [← ht]
    exact exists_of_any (by decide +kernel)
  exact ⟨list, hlist, List.ne_nil_of_mem hsw, sw, hsw, hlost⟩

end Client
end TsnController

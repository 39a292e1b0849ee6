import TsnController.Client.Memory
import TsnController.Client.Output

/-!
# `Main.c`, `switch.c`: is every access good, and is everything freed?

The lists the client builds stand one behind the other: the values of a port are read when nothing
else is allocated in their heap, and so are the ports of a switch. `Built` says where each of them
is, and `readJson_follows` that a visit of `read_json` in memory does what it does on lists, whether
it pushes a switch or ends the program. What is printed, written and freed is then read off the
places.

Two things are missing in the source. A list that nobody has pushed to has a first cell whose record
was never written, and all three loops go through it; in the record of a switch or of a port there
is a pointer. For ports this cannot happen: an array always has a node below it, an empty one an
empty node, and `read_json` makes a port of that too. The record of an entry has no pointer, and a
port without values does no harm here. And a file that could not be opened is written to all the
same. So the run is good, whatever is in memory, exactly if the document describes a switch and the
files of all its switches can be opened (`memory_safe_iff`).
-/

set_option autoImplicit false

namespace TsnController
namespace Client

open CLib Lib Json HeapList

/-! ## Places -/

def portRecord (start : Ptr) (port : Port) : PortRecord := ⟨port.number, some start⟩

/-- Where the values of the next port start. -/
def portEnd (start : Ptr) (port : Port) : Ptr := start + port.values.cells.length

/-- The values of the port stand from `start` on. -/
def PortAt (h : Heap (ChainCell PortValues)) (start : Ptr) (port : Port) : Prop :=
  Seg h (List.range' start port.values.cells.length) port.values.cells none

/-- The list of ports in memory, when the values of the first of them start at `start`. -/
def portCells (first : PortRecord) (start : Ptr) (ports : List Port) : CellList PortRecord :=
  .ofPushes first (records portRecord portEnd start ports)

/-- Where a switch is: how many are in front of it, where its list of ports starts, and where their
values do. -/
structure Place where
  number : Nat
  ports : Ptr
  values : Ptr

def Place.start : Place := ⟨0, 0, 0⟩

def switchRecord (l : Place) (sw : Switch) : SwitchRecord := ⟨sw.name, some l.ports⟩

def switchEnd (l : Place) (sw : Switch) : Place where
  number := l.number + 1
  ports := l.ports + max 1 sw.portList.held.length
  values := sw.portList.held.foldl portEnd l.values

/-- The list of ports of the switch. -/
def switchCells (residue : Residue) (l : Place) (sw : Switch) : CellList PortRecord :=
  portCells (residue.ports l.number).first l.values sw.portList.held

structure SwitchAt (residue : Residue) (m : Memory) (l : Place) (sw : Switch) : Prop where
  ports : Seg m.ports (List.range' l.ports (switchCells residue l sw).cells.length)
    (switchCells residue l sw).cells none
  values : AllAt portEnd (PortAt m.values) l.values sw.portList.held

/-- Where the next switch goes. -/
def Memory.place (m : Memory) : Place := ⟨m.made, m.ports.next, m.values.next⟩

/-- These switches have been pushed, and nothing else is in memory. -/
structure Built (residue : Residue) (m : Memory) (sws : List Switch) : Prop where
  list : Newest m.switches 0 (.ofPushes residue.first (records switchRecord switchEnd .start sws))
  all : AllAt switchEnd (SwitchAt residue m) .start sws
  ends : sws.foldl switchEnd .start = m.place

theorem length_records {Λ β α : Type} {record : Λ → β → α} {advance : Λ → β → Λ} :
    ∀ (l : Λ) (xs : List β), (records record advance l xs).length = xs.length
  | _, [] => rfl
  | l, x :: xs => congrArg Nat.succ (length_records (advance l x) xs)

theorem length_portCells (first : PortRecord) (start : Ptr) (ports : List Port) :
    (portCells first start ports).cells.length = max 1 ports.length := by
  rw [CellList.length_cells, portCells, CellList.held_ofPushes, length_records]

theorem number_foldl_switchEnd (sws : List Switch) : ∀ l : Place,
    (sws.foldl switchEnd l).number = l.number + sws.length := by
  induction sws with
  | nil => exact fun _ => rfl
  | cons sw sws ih =>
    intro l
    rw [List.foldl_cons, ih, List.length_cons, Nat.add_comm sws.length, ← Nat.add_assoc]
    rfl

/-- So many lists of ports have been made. -/
theorem Built.made_eq {residue : Residue} {m : Memory} {sws : List Switch}
    (hb : Built residue m sws) : m.made = sws.length := by
  have hnumber := number_foldl_switchEnd sws .start
  rw [hb.ends] at hnumber
  exact hnumber.trans (Nat.zero_add _)

/-! ## Reading -/

theorem readValuesLoop_follows {head : Ptr} (t : JsonTree) : ∀ (current : PortValues)
    {h : Heap (ChainCell PortValues)} {list : CellList PortValues}, Newest h head list →
    ∃ h', Memory.readValuesLoop head t current h = some h' ∧
      Newest h' head (readValuesLoop t current list) ∧ SameBelow head h h' := by
  induction t with
  | nil => exact fun _ h _ hl => ⟨h, rfl, hl, fun _ _ => rfl⟩
  | node a l r _ ihr =>
    intro current h list hl
    rw [Memory.readValuesLoop, readValuesLoop]
    generalize (if jsonIsReal (jsonItem (.node a l r) 1) = true then _ else _ : PortValues) = next
    obtain ⟨h', hpush, hl', hbelow⟩ := hl.push next
    obtain ⟨h'', hloop, hl'', hbelow'⟩ := ihr next hl'
    refine ⟨h'', ?_, hl'', hbelow.trans hbelow'⟩
    rw [hpush]
    exact hloop

/-- A port's values get the place that is next. -/
theorem readPort_follows (junk : ValuesJunk) (nPort : JsonTree) (h : Heap (ChainCell PortValues)) :
    ∃ h', Memory.readPort junk nPort h = some (portRecord h.next (readPort junk nPort), h') ∧
      Newest h' h.next (readPort junk nPort).values ∧ SameBelow h.next h h' := by
  obtain ⟨h', hloop, hl, hbelow⟩ := readValuesLoop_follows
    (jsonItem (jsonNode nPort "values".toList) 0) junk.current (newest_create h junk.first)
  refine ⟨h', ?_, hl, (sameBelow_create h junk.first).trans hbelow⟩
  unfold Memory.readPort Memory.readValues portRecord readPort
  dsimp only [create] at hloop ⊢
  rw [hloop]
  rfl

/-- A list of ports under construction. -/
structure PortsBuilt (first : PortRecord) (m : Memory) (l : Place) (ports : List Port) :
    Prop where
  list : Newest m.ports l.ports (portCells first l.values ports)
  all : AllAt portEnd (PortAt m.values) l.values ports
  ends : ports.foldl portEnd l.values = m.values.next

theorem le_foldl_portEnd (ports : List Port) : ∀ start : Ptr,
    start ≤ ports.foldl portEnd start := by
  induction ports with
  | nil => exact fun start => Nat.le_refl start
  | cons port ports ih => exact fun start => Nat.le_trans (Nat.le_add_right _ _) (ih _)

/-- Nothing that was there before has been touched. -/
structure Beyond (l : Place) (m m' : Memory) : Prop where
  switches : m'.switches = m.switches
  made : m'.made = m.made
  ports : SameBelow l.ports m.ports m'.ports
  values : SameBelow l.values m.values m'.values

theorem Beyond.trans {l : Place} {m m' m'' : Memory} (h : Beyond l m m') (h' : Beyond l m' m'') :
    Beyond l m m'' :=
  ⟨h'.switches.trans h.switches, h'.made.trans h.made, h.ports.trans h'.ports,
    h.values.trans h'.values⟩

theorem pushPort_follows {first : PortRecord} {m : Memory} {l : Place} {ports : List Port}
    (hb : PortsBuilt first m l ports) (junk : ValuesJunk) (nPort : JsonTree) :
    ∃ m', Memory.pushPort l.ports m junk nPort = some m' ∧
      PortsBuilt first m' l (ports ++ [readPort junk nPort]) ∧ Beyond l m m' := by
  obtain ⟨values, hread, hnew, hvalues⟩ := readPort_follows junk nPort m.values
  obtain ⟨heap, hpush, hlist, hports⟩ :=
    hb.list.push (portRecord m.values.next (readPort junk nPort))
  have hstart : l.values ≤ m.values.next := hb.ends ▸ le_foldl_portEnd ports l.values
  refine ⟨{ m with values := values, ports := heap }, ?_, ⟨?_, ?_, ?_⟩, rfl, rfl, hports,
    hvalues.mono hstart⟩
  · unfold Memory.pushPort
    rw [hread, Option.bind_some, hpush]
    rfl
  · unfold portCells
    rw [records_append, hb.ends, records, records, CellList.ofPushes_concat]
    exact hlist
  · rw [allAt_append_iff, hb.ends]
    exact ⟨hb.all.imp fun _ _ _ hport => hport.of_sameBelow hvalues, hnew.seg, trivial⟩
  · rw [List.foldl_append, hb.ends]
    exact hnew.next.symm

theorem foldlM_pushPort {first : PortRecord} {l : Place} (nodes : List (ValuesJunk × JsonTree)) :
    ∀ {m : Memory} {ports : List Port}, PortsBuilt first m l ports →
    ∃ m', nodes.foldlM (fun m n => Memory.pushPort l.ports m n.1 n.2) m = some m' ∧
      PortsBuilt first m' l (ports ++ nodes.map fun n => readPort n.1 n.2) ∧ Beyond l m m' := by
  induction nodes with
  | nil =>
    intro m ports hb
    refine ⟨m, rfl, ?_, rfl, rfl, fun _ _ => rfl, fun _ _ => rfl⟩
    rwa [List.map_nil, List.append_nil]
  | cons n nodes ih =>
    intro m ports hb
    obtain ⟨m', hpush, hb', hbeyond⟩ := pushPort_follows hb n.1 n.2
    obtain ⟨m'', hfold, hb'', hbeyond'⟩ := ih hb'
    refine ⟨m'', ?_, ?_, hbeyond.trans hbeyond'⟩
    · rw [List.foldlM_cons, hpush]
      exact hfold
    · rw [List.append_assoc] at hb''
      exact hb''

theorem readPorts_follows {first : PortRecord} {m : Memory} {l : Place}
    (hb : PortsBuilt first m l []) (residue : PortsResidue) (dataPortList : JsonTree) :
    ∃ m', Memory.readPorts residue dataPortList l.ports m = some m' ∧
      PortsBuilt first m' l (readPorts residue.junk dataPortList).held ∧ Beyond l m m' := by
  obtain ⟨m', hfold, hb', hbeyond⟩ := foldlM_pushPort ((List.range (jsonItems dataPortList)).map
    fun i => (residue.values i, jsonItem dataPortList i)) hb
  refine ⟨m', ?_, ?_, hbeyond⟩
  · rw [List.foldlM_map] at hfold
    exact hfold
  · rw [held_readPorts, ← map_range_jsonItem]
    rw [List.map_map] at hb'
    exact hb'

/-- A switch that was there before. -/
theorem SwitchAt.of_beyond {residue : Residue} {m m' : Memory} {l : Place} {sw : Switch}
    (hports : SameBelow m.ports.next m.ports m'.ports)
    (hvalues : SameBelow m.values.next m.values m'.values) (hs : SwitchAt residue m l sw) :
    SwitchAt residue m' l sw :=
  ⟨hs.ports.of_sameBelow hports, hs.values.imp fun _ _ _ hp => hp.of_sameBelow hvalues⟩

/-- The same end, or memories and lists that belong together. -/
def Follows {α β : Type} (R : α → β → Prop) : Except Halt α → Except Halt β → Prop
  | .ok a, .ok b => R a b
  | .error e, .error e' => e = e'
  | _, _ => False

/-- **A visit in memory does what a visit does.** -/
theorem readJson_follows {residue : Residue} {m : Memory} {list : CellList Switch}
    (hb : Built residue m list.held) (node : JsonTree) :
    Follows (fun m list => Built residue m list.held) (Memory.readJson residue 0 node m)
      (readJson residue.junk node list) := by
  unfold Memory.readJson readJson
  dsimp only
  by_cases hs : jsonIsString (jsonNode node "switch".toList) = true
  · rw [if_pos hs, if_pos hs]
    cases strcpy maxSwitchNameLength (jsonString (jsonNode node "switch".toList)) with
    | error e => exact rfl
    | ok name =>
      dsimp only [bind, Except.bind]
      by_cases hp : jsonIsArray (jsonNode node "port_list".toList) = true
      · rw [if_pos hp, if_pos hp]
        generalize jsonNode node "port_list".toList = dataPortList
        -- the list of ports is new, and everything else is as it was
        have hmade := hb.made_eq
        have hnew : PortsBuilt (residue.ports m.made).first
            { m with ports := (create m.ports (residue.ports m.made).first).2,
                     made := m.made + 1 } m.place [] :=
          ⟨newest_create m.ports _, trivial, rfl⟩
        obtain ⟨m', hread, hb', hbeyond⟩ :=
          readPorts_follows hnew (residue.ports m.made) dataPortList
        have hbelow : SameBelow m.ports.next m.ports m'.ports :=
          (sameBelow_create m.ports _).trans hbeyond.ports
        have hlist := hb.list
        rw [← hbeyond.switches] at hlist
        obtain ⟨switches, hpush, hlist', _⟩ := hlist.push ⟨name, some m.ports.next⟩
        rw [show (create m.ports (residue.ports m.made).first).1 = m.place.ports from rfl, hread]
        dsimp only [orUndefined]
        rw [show m.place.ports = m.ports.next from rfl, hpush]
        show Built residue { m' with switches := switches } _
        rw [switchPush, CellList.held_push, ← hmade]
        refine ⟨?_, ?_, ?_⟩
        · rw [records_append, hb.ends, records, records, CellList.ofPushes_concat]
          exact hlist'
        · rw [allAt_append_iff, hb.ends]
          refine ⟨hb.all.imp fun _ _ _ hsw => ?_, ⟨hb'.list.seg, hb'.all⟩, trivial⟩
          exact ⟨(hsw.of_beyond hbelow hbeyond.values).ports,
            (hsw.of_beyond hbelow hbeyond.values).values⟩
        · rw [List.foldl_append, hb.ends]
          show (⟨m.made + 1, m.ports.next + _, _⟩ : Place) =
            ⟨m'.made, m'.ports.next, m'.values.next⟩
          rw [← hb'.ends, hb'.list.next, length_portCells, hbeyond.made]
          rfl
      · rw [if_neg hp, if_neg hp]
        exact rfl
  · rw [if_neg hs, if_neg hs]
    exact hb

theorem foldlM_readJson_follows {residue : Residue} (nodes : List JsonTree) :
    ∀ {m : Memory} {list : CellList Switch}, Built residue m list.held →
    Follows (fun m list => Built residue m list.held)
      (nodes.foldlM (fun m node => Memory.readJson residue 0 node m) m)
      (nodes.foldlM (fun list node => readJson residue.junk node list) list) := by
  induction nodes with
  | nil => exact fun hb => hb
  | cons n nodes ih =>
    intro m list hb
    have hstep := readJson_follows hb n
    rw [List.foldlM_cons, List.foldlM_cons]
    cases hm : Memory.readJson residue 0 n m with
    | error e =>
      cases hl : readJson residue.junk n list with
      | error e' => rw [hm, hl] at hstep; exact hstep
      | ok list' => rw [hm, hl] at hstep; exact hstep.elim
    | ok m' =>
      cases hl : readJson residue.junk n list with
      | error e' => rw [hm, hl] at hstep; exact hstep.elim
      | ok list' => rw [hm, hl] at hstep; exact ih hstep

theorem readAll_follows (residue : Residue) (node : JsonTree) :
    Follows (fun m list => Built residue m list.held) (Memory.readAll residue node)
      (readAll residue.junk node) := by
  unfold Memory.readAll readAll
  rw [jsonForeach_eq, jsonForeach_eq]
  exact foldlM_readJson_follows (preorder node)
    ⟨newest_create Heap.empty residue.first, trivial, rfl⟩

/-! ## Going through the lists -/

section Loops

variable {residue : Residue} {m : Memory}

/-- A loop over the values of a port. -/
theorem PortAt.loop_eq {σ : Type} {start : Ptr} {port : Port} (hp : PortAt m.values start port)
    (f : σ → PortValues → σ) (s : σ) :
    loop m.values (fun v s => some (f s v)) m.values.next (some start) s =
      some (port.values.values.foldl f s) := by
  have hfuel := hp.length_le List.nodup_range'
  have hloop := Seg.loop_eq (fun v s => some (f s v)) s hp hfuel
  exact hloop.trans List.foldlM_pure

/-- A loop over the ports of a switch that has some. -/
theorem SwitchAt.loop_eq {σ : Type} {l : Place} {sw : Switch} (hs : SwitchAt residue m l sw)
    (hne : sw.portList.held ≠ []) {body : PortRecord → σ → Option σ} {f : σ → Port → σ}
    (hbody : ∀ start port s, PortAt m.values start port →
      body (portRecord start port) s = some (f s port)) (s : σ) :
    loop m.ports body m.ports.next (some l.ports) s = some (sw.portList.values.foldl f s) := by
  have hloop := Seg.loop_eq body s hs.ports (hs.ports.length_le List.nodup_range')
  have hvalues : (switchCells residue l sw).values = _ :=
    CellList.values_ofPushes (residue.ports l.number).first (mt records_eq_nil_iff.mp hne)
  rw [CellList.values_eq_held hne, ← hs.values.foldlM_eq hbody s, ← hvalues]
  exact hloop

/-- Every switch has a port. -/
def AllHavePorts (sws : List Switch) : Prop := ∀ sw ∈ sws, sw.portList.held ≠ []

/-- The records the loops over the switches go through, if there is one. -/
theorem Built.loop_records {σ : Type} {sws : List Switch} (hb : Built residue m sws)
    (hne : sws ≠ []) (body : SwitchRecord → σ → Option σ) (s : σ) :
    loop m.switches body m.switches.next (some 0) s =
      (records switchRecord switchEnd .start sws).foldlM (fun s sw => body sw s) s := by
  rw [hb.list.loop_eq, CellList.values_ofPushes residue.first (mt records_eq_nil_iff.mp hne)]

theorem Built.loop_eq {σ : Type} {sws : List Switch} (hb : Built residue m sws) (hne : sws ≠ [])
    {P : Switch → Prop} (hP : ∀ sw ∈ sws, P sw) {body : SwitchRecord → σ → Option σ}
    {f : σ → Switch → σ} (hbody : ∀ l sw s, SwitchAt residue m l sw → P sw →
      body (switchRecord l sw) s = some (f s sw)) (s : σ) :
    loop m.switches body m.switches.next (some 0) s = some (sws.foldl f s) := by
  have hall := hb.all.imp fun l sw hsw hat => And.intro hat (hP sw hsw)
  rw [hb.loop_records hne]
  exact hall.foldlM_eq (fun l sw s h => hbody l sw s h.1 h.2) s

theorem foldl_append_eq_flatMap {α β : Type} (g : α → List β) (xs : List α) (out : List β) :
    xs.foldl (fun out x => out ++ g x) out = out ++ xs.flatMap g := by
  rw [List.foldl_append_eq_append, List.flatMap_def]

/-! ### Printing -/

theorem printValues_eq {start : Ptr} {port : Port} (hp : PortAt m.values start port) (out : Text) :
    m.printValues (some start) out =
      some (out ++ (valuesVisits port.values).flatMap printCell) := by
  have hloop := hp.loop_eq (fun out v => out ++ printCell (.values v)) out
  rw [foldl_append_eq_flatMap] at hloop
  rw [valuesVisits, List.flatMap_map]
  exact hloop

theorem printPorts_eq {l : Place} {sw : Switch} (hs : SwitchAt residue m l sw)
    (hne : sw.portList.held ≠ []) (out : Text) :
    m.printPorts (some l.ports) out =
      some (out ++ sw.portList.values.flatMap fun p => (printPortVisits p).flatMap printCell) := by
  rw [← foldl_append_eq_flatMap]
  refine hs.loop_eq hne (fun start port out hp => ?_) out
  rw [portRecord]
  dsimp only
  rw [printValues_eq hp, printPortVisits, List.flatMap_cons, List.append_assoc]
  rfl

theorem Built.print_eq {list : CellList Switch} (hb : Built residue m list.held)
    (hne : list.held ≠ []) (hports : AllHavePorts list.held) :
    m.switchPrintList 0 = some (switchPrintList list) := by
  have hbody : ∀ l sw out, SwitchAt residue m l sw → sw.portList.held ≠ [] →
      m.printPorts (switchRecord l sw).portList
          (out ++ ("Switch:".toList ++ (switchRecord l sw).name ++ "\n".toList)) =
        some (out ++ (printSwitchVisits sw).flatMap printCell) := by
    intro l sw out hs hne
    rw [switchRecord]
    dsimp only
    rw [printPorts_eq hs hne, printSwitchVisits, List.flatMap_cons, List.flatMap_assoc,
      List.append_assoc]
    rfl
  have hloop : m.switchPrintList 0 = some (list.held.foldl
      (fun out sw => out ++ (printSwitchVisits sw).flatMap printCell) []) :=
    hb.loop_eq hne hports hbody []
  rw [hloop, foldl_append_eq_flatMap, List.nil_append, switchPrintList, printVisits,
    List.flatMap_assoc, CellList.values_eq_held hne]

/-! ### Writing -/

theorem hypercycle_follows {l : Place} {sw : Switch} (hs : SwitchAt residue m l sw)
    (hne : sw.portList.held ≠ []) :
    m.hypercycle (some l.ports) = some (hypercycle sw.portList.values) :=
  hs.loop_eq hne (fun _ _ h hp => hp.loop_eq (fun _ v => v.period) h) 0

theorem length_follows {start : Ptr} {port : Port} (hp : PortAt m.values start port) :
    m.length (some start) = some port.values.values.length := by
  have hloop := hp.loop_eq (fun n _ => n + 1) 0
  rw [List.foldl_add_const, Nat.zero_add, Nat.one_mul] at hloop
  exact hloop

theorem foldl_entries (vs : List PortValues) : ∀ (index : Nat) (out : Text),
    (vs.foldl (fun s v => (s.1 + 1,
      s.2 ++ xmlWriteValues v.period (binaryToDecimal v.gateStates) (toInt s.1))) (index, out)).2 =
      out ++ xmlWriteEntries index vs := by
  induction vs with
  | nil => exact fun _ out => (List.append_nil out).symm
  | cons v vs ih =>
    intro index out
    rw [List.foldl_cons, ih, List.append_assoc]
    rfl

theorem xmlWriteEntries_follows {start : Ptr} {port : Port} (hp : PortAt m.values start port)
    (out : Text) : ∃ n, m.xmlWriteEntries (some start) (0, out) =
      some (n, out ++ xmlWriteEntries 0 port.values.values) := by
  have hloop : m.xmlWriteEntries (some start) (0, out) = _ :=
    hp.loop_eq (fun s v => (s.1 + 1,
      s.2 ++ xmlWriteValues v.period (binaryToDecimal v.gateStates) (toInt s.1))) (0, out)
  rw [hloop, ← foldl_entries]
  exact ⟨_, rfl⟩

theorem xmlWritePortAll_follows (castInf : Int) (h : Nat) {start : Ptr} {port : Port}
    (hp : PortAt m.values start port) (out : Text) :
    m.xmlWritePortAll castInf h (portRecord start port) out =
      some (out ++ xmlWritePortAll castInf port h) := by
  obtain ⟨n, hentries⟩ := xmlWriteEntries_follows hp
    (out ++ xmlWritePort port.number (adminControlListLength port.values.values))
  unfold Memory.xmlWritePortAll portRecord
  dsimp only
  rw [length_follows hp, Option.bind_some, ← adminControlListLength, hentries, Option.map_some]
  unfold xmlWritePortAll
  rw [List.append_assoc, List.append_assoc, List.append_assoc]

theorem instanceText_follows (castInf : Int) {l : Place} {sw : Switch}
    (hs : SwitchAt residue m l sw) (hne : sw.portList.held ≠ []) :
    m.instanceText castInf (some l.ports) = some (instanceText castInf sw) := by
  have hloop := fun out => hs.loop_eq hne
    (fun _ _ out hp => xmlWritePortAll_follows castInf (hypercycle sw.portList.values) hp out) out
  unfold Memory.instanceText
  rw [hypercycle_follows hs hne, Option.bind_some, hloop, foldl_append_eq_flatMap, Option.map_some]
  unfold instanceText valuesEndCalls
  rw [List.flatMap_map]

theorem Built.xml_eq {list : CellList Switch} (hb : Built residue m list.held)
    (hne : list.held ≠ []) (hports : AllHavePorts list.held) {opens : Text → Bool}
    (hopens : ∀ sw ∈ list.held, opens (outputPath sw.name) = true) (castInf : Int) :
    m.xmlWriteInstance opens castInf 0 = some (documents castInf list) := by
  have hbody : ∀ l sw (files : List (Text × Text)), SwitchAt residue m l sw →
      sw.portList.held ≠ [] ∧ opens (outputPath sw.name) = true →
      (if opens (outputPath (switchRecord l sw).name) then
        (m.instanceText castInf (switchRecord l sw).portList).map fun text =>
          files ++ [(outputPath (switchRecord l sw).name, text)]
      else none) = some (files ++ [(outputPath sw.name, instanceText castInf sw)]) := by
    intro l sw files hs hsw
    rw [switchRecord]
    dsimp only
    rw [if_pos hsw.2, instanceText_follows castInf hs hsw.1]
    rfl
  have hloop : m.xmlWriteInstance opens castInf 0 = some (list.held.foldl
      (fun files sw => files ++ [(outputPath sw.name, instanceText castInf sw)]) []) :=
    hb.loop_eq hne (fun sw hsw => ⟨hports sw hsw, hopens sw hsw⟩) hbody []
  rw [hloop, foldl_append_eq_flatMap, List.nil_append, documents, CellList.values_eq_held hne,
    List.map_eq_flatMap]

end Loops

/-! ## Freeing -/

section Freeing

variable {residue : Residue} {m : Memory}

theorem freeValues_follows {h : Heap (ChainCell PortValues)} {start : Ptr} {port : Port}
    (hp : PortAt h start port) : ∃ h', Memory.freeValues (some start) h = some h' ∧
      Hole h h' start (portEnd start port) := by
  obtain ⟨h', hc, hdrain⟩ := Seg.drain_eq (fun (_ : PortValues) (s : Unit) => some s) h () hp
    List.nodup_range' (hp.length_le List.nodup_range')
  refine ⟨h', ?_, hc.hole⟩
  have hbody : (port.values.cells.map (·.value)).foldlM (fun s (_ : PortValues) => some s) () =
      some () := List.foldlM_pure
  rw [hbody] at hdrain
  unfold Memory.freeValues
  exact congrArg (Option.map Prod.fst) hdrain

theorem PortAt.of_hole {h h' : Heap (ChainCell PortValues)} {a b start : Ptr} {ports : List Port}
    (hole : Hole h h' a b) (hle : b ≤ start) (hall : AllAt portEnd (PortAt h) start ports) :
    AllAt portEnd (PortAt h') start ports :=
  hall.imp_from (J := fun l => b ≤ l) (fun l _ hl => Nat.le_trans hl (Nat.le_add_right l _)) hle
    fun _ hl _ _ hp => Seg.of_hole hole hl hp

theorem foldlM_freeValues (ports : List Port) : ∀ {h : Heap (ChainCell PortValues)} {start : Ptr},
    AllAt portEnd (PortAt h) start ports →
    ∃ h', (records portRecord portEnd start ports).foldlM
        (fun h port => Memory.freeValues port.values h) h = some h' ∧
      Hole h h' start (ports.foldl portEnd start) := by
  induction ports with
  | nil => exact fun {h start} _ => ⟨h, rfl, .refl h start⟩
  | cons port ports ih =>
    intro h start hall
    obtain ⟨h', hfree, hhole⟩ := freeValues_follows hall.1
    obtain ⟨h'', hfold, hhole'⟩ := ih (PortAt.of_hole hhole (Nat.le_refl _) hall.2)
    refine ⟨h'', ?_, hhole.trans hhole' (Nat.le_add_right _ _) (le_foldl_portEnd ports _)⟩
    rw [records, List.foldlM_cons, portRecord, hfree]
    exact hfold

theorem freePorts_follows {l : Place} {sw : Switch} (hs : SwitchAt residue m l sw)
    (hne : sw.portList.held ≠ []) :
    ∃ ports values, Memory.freePorts (some l.ports) (m.ports, m.values) = some (ports, values) ∧
      Hole m.ports ports l.ports (switchEnd l sw).ports ∧
      Hole m.values values l.values (switchEnd l sw).values := by
  obtain ⟨values, hfold, hvalues⟩ := foldlM_freeValues sw.portList.held hs.values
  obtain ⟨ports, hc, hdrain⟩ := Seg.drain_eq (fun port h => Memory.freeValues port.values h)
    m.ports m.values hs.ports List.nodup_range' (hs.ports.length_le List.nodup_range')
  have hcells : (switchCells residue l sw).values = _ :=
    CellList.values_ofPushes (residue.ports l.number).first (mt records_eq_nil_iff.mp hne)
  have hports := hc.hole
  rw [switchCells, length_portCells] at hports
  refine ⟨ports, values, ?_, hports, hvalues⟩
  rw [← hcells] at hfold
  rw [CellList.values, ← CellList.cells] at hfold
  rw [hfold] at hdrain
  exact hdrain

theorem SwitchAt.of_hole {ports : Heap (ChainCell PortRecord)}
    {values : Heap (ChainCell PortValues)} {a b l : Place} {sws : List Switch}
    (hports : Hole m.ports ports a.ports b.ports) (hvalues : Hole m.values values a.values b.values)
    (hle : b.ports ≤ l.ports ∧ b.values ≤ l.values)
    (hall : AllAt switchEnd (SwitchAt residue m) l sws) :
    AllAt switchEnd (SwitchAt residue { m with values := values, ports := ports }) l sws := by
  refine hall.imp_from (J := fun l => b.ports ≤ l.ports ∧ b.values ≤ l.values)
    (fun l sw hl => ?_) hle ?_
  · exact ⟨Nat.le_trans hl.1 (Nat.le_add_right _ _),
      Nat.le_trans hl.2 (le_foldl_portEnd sw.portList.held l.values)⟩
  · exact fun l hl sw _ hs =>
      ⟨hs.ports.of_hole hports hl.1, PortAt.of_hole hvalues hl.2 hs.values⟩

theorem le_foldl_switchEnd (sws : List Switch) : ∀ l : Place,
    l.ports ≤ (sws.foldl switchEnd l).ports ∧ l.values ≤ (sws.foldl switchEnd l).values := by
  induction sws with
  | nil => exact fun l => ⟨Nat.le_refl _, Nat.le_refl _⟩
  | cons sw sws ih =>
    intro l
    exact ⟨Nat.le_trans (Nat.le_add_right _ _) (ih (switchEnd l sw)).1,
      Nat.le_trans (le_foldl_portEnd sw.portList.held l.values) (ih (switchEnd l sw)).2⟩

theorem foldlM_freePorts (sws : List Switch) : ∀ {m : Memory} {l : Place},
    AllAt switchEnd (SwitchAt residue m) l sws → AllHavePorts sws →
    ∃ ports values, (records switchRecord switchEnd l sws).foldlM
        (fun s sw => Memory.freePorts sw.portList s) (m.ports, m.values) = some (ports, values) ∧
      Hole m.ports ports l.ports (sws.foldl switchEnd l).ports ∧
      Hole m.values values l.values (sws.foldl switchEnd l).values := by
  induction sws with
  | nil => exact fun {m l} _ _ => ⟨m.ports, m.values, rfl, .refl _ _, .refl _ _⟩
  | cons sw sws ih =>
    intro m l hall hne
    obtain ⟨ports, values, hfree, hports, hvalues⟩ :=
      freePorts_follows hall.1 (hne sw List.mem_cons_self)
    have hrest := SwitchAt.of_hole hports hvalues ⟨Nat.le_refl _, Nat.le_refl _⟩ hall.2
    obtain ⟨ports', values', hfold, hports', hvalues'⟩ :=
      ih hrest fun sw' hsw => hne sw' (List.mem_cons_of_mem sw hsw)
    obtain ⟨hle, hle'⟩ := le_foldl_switchEnd sws (switchEnd l sw)
    refine ⟨ports', values', ?_, hports.trans hports' (Nat.le_add_right _ _) hle,
      hvalues.trans hvalues' (le_foldl_portEnd sw.portList.held l.values) hle'⟩
    rw [records, List.foldlM_cons, switchRecord, hfree]
    exact hfold

/-- Nothing is allocated. -/
structure Memory.Empty (m : Memory) : Prop where
  values : ∀ p, m.values.read p = none
  ports : ∀ p, m.ports.read p = none
  switches : ∀ p, m.switches.read p = none

/-- A hole from the first cell to the last. -/
theorem read_of_hole {α : Type} {h h' : Heap (ChainCell α)} (hole : Hole h h' 0 h.next) (p : Ptr) :
    h'.read p = none := by
  rw [hole.2]
  by_cases hp : p < h.next
  · exact if_pos ⟨Nat.zero_le p, hp⟩
  · exact (if_neg fun hin => hp hin.2).trans (h.fresh p (Nat.le_of_not_lt hp))

theorem Built.free_eq {sws : List Switch} (hb : Built residue m sws) (hne : sws ≠ [])
    (hports : AllHavePorts sws) : ∃ m', m.freeSwitchList 0 = some m' ∧ m'.Empty := by
  obtain ⟨ports, values, hfold, hhole, hhole'⟩ := foldlM_freePorts sws hb.all hports
  obtain ⟨switches, hc, hdrain⟩ := Seg.drain_eq (fun sw s => Memory.freePorts sw.portList s)
    m.switches (m.ports, m.values) hb.list.seg List.nodup_range'
    (hb.list.seg.length_le List.nodup_range')
  have hrecords : records switchRecord switchEnd .start sws ≠ [] := mt records_eq_nil_iff.mp hne
  have hcells := CellList.values_ofPushes residue.first hrecords
  have hswitches := hc.hole
  rw [← hb.list.next] at hswitches
  rw [hb.ends] at hhole hhole'
  rw [← hcells, CellList.values, ← CellList.cells] at hfold
  rw [hfold] at hdrain
  refine ⟨⟨values, ports, switches, m.made⟩, ?_, read_of_hole hhole', read_of_hole hhole,
    read_of_hole hswitches⟩
  exact congrArg (Option.map _) hdrain

end Freeing

/-! ## Where a run stops -/

section Stops

variable {residue : Residue} {m : Memory}

/-- One element for which the body fails is enough. -/
theorem foldlM_eq_none {α σ : Type} {body : α → σ → Option σ} {xs : List α}
    (h : ∃ a ∈ xs, ∀ s, body a s = none) : ∀ s, xs.foldlM (fun s a => body a s) s = none := by
  induction xs with
  | nil =>
    obtain ⟨a, ha, _⟩ := h
    exact absurd ha List.not_mem_nil
  | cons x xs ih =>
    intro s
    obtain ⟨a, ha, hnone⟩ := h
    rw [List.foldlM_cons]
    rcases List.mem_cons.mp ha with rfl | ha
    · rw [hnone]
      rfl
    · cases body x s with
      | none => rfl
      | some s' => exact ih ⟨a, ha, hnone⟩ s'

theorem mem_records {Λ β α : Type} {record : Λ → β → α} {advance : Λ → β → Λ} {x : β} :
    ∀ {xs : List β} (l : Λ), x ∈ xs → ∃ l', record l' x ∈ records record advance l xs
  | y :: ys, l, h => by
    rcases List.mem_cons.mp h with rfl | h
    · exact ⟨l, List.mem_cons_self⟩
    · obtain ⟨l', hl'⟩ := mem_records (advance l y) h
      exact ⟨l', List.mem_cons_of_mem _ hl'⟩

/-- The document of a switch that cannot be opened. -/
theorem Built.xml_eq_none {sws : List Switch} (hb : Built residue m sws) {opens : Text → Bool}
    (h : ∃ sw ∈ sws, opens (outputPath sw.name) = false) (castInf : Int) :
    m.xmlWriteInstance opens castInf 0 = none := by
  obtain ⟨sw, hsw, hopens⟩ := h
  obtain ⟨l, hl⟩ := @mem_records _ _ _ switchRecord switchEnd _ _ .start hsw
  unfold Memory.xmlWriteInstance
  rw [hb.loop_records (List.ne_nil_of_mem hsw)]
  refine foldlM_eq_none ⟨_, hl, fun files => ?_⟩ _
  exact if_neg (by rw [switchRecord, hopens]; simp)

/-- Without a switch, the ports of none are looked for. -/
theorem print_eq_none_of_nil (hb : Built residue m []) (hstray : residue.first.portList = some 0) :
    m.switchPrintList 0 = none := by
  have hempty : m.ports.read 0 = none :=
    m.ports.fresh 0 (Nat.le_of_eq (congrArg Place.ports hb.ends).symm)
  unfold Memory.switchPrintList
  rw [hb.list.loop_eq]
  apply foldlM_eq_none
  refine ⟨residue.first, List.mem_singleton_self _, fun out => ?_⟩
  rw [hstray]
  exact loop_of_read_none hempty _ _

end Stops

/-! ## The whole run -/

/-- The run up to the point where the lists are there. -/
theorem built_of_parse {t : Text} {tree : JsonTree} (h : jsonParse t = some tree)
    (hname : ∀ n ∈ preorder tree, isSwitch n = true → ShortName n)
    (hports : ∀ n ∈ preorder tree, isSwitch n = true → hasPorts n = true) (residue : Residue) :
    ∃ list m, readAll residue.junk tree = .ok list ∧ Memory.readAll residue tree = .ok m ∧
      Built residue m list.held ∧
      list.held = ((preorder tree).filter isSwitch).mapIdx fun k =>
        switchOf (residue.junk.ports k) := by
  obtain ⟨list, hlist, hheld⟩ := readAll_held residue.junk h hname hports
  have hfollows := readAll_follows residue tree
  rw [hlist] at hfollows
  cases hm : Memory.readAll residue tree with
  | error e => rw [hm] at hfollows; exact hfollows.elim
  | ok m => rw [hm] at hfollows; exact ⟨list, m, hlist, rfl, hfollows, hheld⟩

theorem held_ne_nil {junk : Junk} {t : Text} {tree : JsonTree} {list : CellList Switch}
    (h : jsonParse t = some tree) (hname : ∀ n ∈ preorder tree, isSwitch n = true → ShortName n)
    (hports : ∀ n ∈ preorder tree, isSwitch n = true → hasPorts n = true)
    (hex : ∃ n ∈ preorder tree, isSwitch n = true) (hread : readAll junk tree = .ok list) :
    list.held ≠ [] := by
  obtain ⟨n, hn, hs⟩ := hex
  obtain ⟨list', hread', hheld⟩ := readAll_held junk h hname hports
  obtain rfl : list' = list := Except.ok.inj (hread'.symm.trans hread)
  rw [hheld]
  exact mt List.mapIdx_eq_nil_iff.mp (List.ne_nil_of_mem (List.mem_filter.mpr ⟨hn, hs⟩))

/-- Memory full of zeros, but for the pointer in the record of a switch. -/
def Residue.zero (portList : Option Ptr) : Residue :=
  ⟨⟨[], portList⟩, fun _ => ⟨⟨0, none⟩, fun _ => ⟨⟨0, 0⟩, ⟨0, 0⟩⟩⟩⟩

section Run

variable {opens : Text → Bool} {residue : Residue} {t : Text} {tree : JsonTree} {m : Memory}

/-- What is left of `main` behind the reading. -/
theorem Memory.clientMain_of_readAll (castInf : Int) (h : jsonParse t = some tree)
    (hm : Memory.readAll residue tree = .ok m) : Memory.clientMain opens residue castInf t = (do
      let printed ← orUndefined (m.switchPrintList 0)
      let files ← orUndefined (m.xmlWriteInstance opens castInf 0)
      let m ← orUndefined (m.freeSwitchList 0)
      .ok ⟨printed, files, m⟩) := by
  unfold Memory.clientMain
  rw [h]
  dsimp only
  rw [hm]
  rfl

theorem Memory.clientMain_of_print (castInf : Int) (h : jsonParse t = some tree)
    (hm : Memory.readAll residue tree = .ok m) (hprint : m.switchPrintList 0 = none) :
    Memory.clientMain opens residue castInf t = .error .undefined := by
  rw [clientMain_of_readAll castInf h hm, hprint]
  rfl

theorem Memory.clientMain_of_xml {printed : Text} (castInf : Int) (h : jsonParse t = some tree)
    (hm : Memory.readAll residue tree = .ok m) (hprint : m.switchPrintList 0 = some printed)
    (hxml : m.xmlWriteInstance opens castInf 0 = none) :
    Memory.clientMain opens residue castInf t = .error .undefined := by
  rw [clientMain_of_readAll castInf h hm, hprint, hxml]
  rfl

theorem Memory.clientMain_of_free {printed : Text} {files : List (Text × Text)} {m' : Memory}
    (castInf : Int) (h : jsonParse t = some tree) (hm : Memory.readAll residue tree = .ok m)
    (hprint : m.switchPrintList 0 = some printed)
    (hxml : m.xmlWriteInstance opens castInf 0 = some files)
    (hfree : m.freeSwitchList 0 = some m') :
    Memory.clientMain opens residue castInf t = .ok ⟨printed, files, m'⟩ := by
  rw [clientMain_of_readAll castInf h hm, hprint, hxml, hfree]
  rfl

end Run

/-- **The client in memory.** Take a document that `read_json` does not end the program on. If it
describes a switch, then whatever is in memory every pointer the run goes through leads to a cell
that has been allocated and not freed, as far as the files can be opened: if all of them can, what
is printed and written is what the lists say, and when `main` returns nothing is allocated any more;
if one of them cannot, `fprintf` gets a null pointer. If the document describes no switch, there is
a content of the memory for which the run reads through a pointer that leads nowhere. -/
theorem memory_safe_iff (opens : Text → Bool) (castInf : Int) {t : Text} {tree : JsonTree}
    (h : jsonParse t = some tree)
    (hname : ∀ n ∈ preorder tree, isSwitch n = true → ShortName n)
    (hports : ∀ n ∈ preorder tree, isSwitch n = true → hasPorts n = true) :
    ((∃ n ∈ preorder tree, isSwitch n = true) → ∀ residue, ∃ list,
      readAll residue.junk tree = .ok list ∧
      ((∀ sw ∈ list.held, opens (outputPath sw.name) = true) → ∃ m,
        Memory.clientMain opens residue castInf t =
          .ok ⟨switchPrintList list, documents castInf list, m⟩ ∧ m.Empty) ∧
      ((∃ sw ∈ list.held, opens (outputPath sw.name) = false) →
        Memory.clientMain opens residue castInf t = .error .undefined)) ∧
    ((∀ n ∈ preorder tree, isSwitch n = false) →
      ∃ residue, Memory.clientMain opens residue castInf t = .error .undefined) := by
  constructor
  · intro hex residue
    obtain ⟨list, m, hlist, hm, hb, hheld⟩ := built_of_parse h hname hports residue
    have hne := held_ne_nil h hname hports hex hlist
    have hall : AllHavePorts list.held := by
      rw [hheld]
      intro sw hmem
      obtain ⟨i, hi, rfl⟩ := List.mem_mapIdx.mp hmem
      obtain ⟨hn, hs⟩ := List.mem_filter.mp (List.getElem_mem hi)
      exact held_switchOf_ne_nil h hn (hports _ hn hs)
    have hprint := hb.print_eq hne hall
    refine ⟨list, hlist, fun hopens => ?_, fun hopens => ?_⟩
    · obtain ⟨m', hfree, hempty⟩ := hb.free_eq hne hall
      have hxml := hb.xml_eq hne hall hopens castInf
      exact ⟨m', Memory.clientMain_of_free castInf h hm hprint hxml hfree, hempty⟩
    · exact Memory.clientMain_of_xml castInf h hm hprint (hb.xml_eq_none hopens castInf)
  · intro hno
    obtain ⟨list, m, _, hm, hb, hheld⟩ := built_of_parse h hname hports (.zero (some 0))
    have hnil : (preorder tree).filter isSwitch = [] :=
      List.filter_eq_nil_iff.mpr fun n hn => by simp [hno n hn]
    rw [hnil, List.mapIdx_nil] at hheld
    rw [hheld] at hb
    exact ⟨_, Memory.clientMain_of_print castInf h hm (print_eq_none_of_nil hb rfl)⟩

/-- A switch without a port, which has one all the same. -/
def noPort : Text := "[\x7b\"switch\":\"a\",\"port_list\":[]\x7d]".toList

/-- A document that is read in full and has no switch. -/
def noSwitch : Text := "[]".toList

theorem memory_safe_without :
    (∃ finished, Memory.clientMain (fun _ => true) (.zero none) 0 noPort = .ok finished ∧
      finished.memory.Empty) ∧
    Memory.clientMain (fun _ => false) (.zero none) 0 noPort = .error .undefined ∧
    ∃ residue, Memory.clientMain (fun _ => true) residue 0 noSwitch = .error .undefined := by
  obtain ⟨tree, htree, hname, hports, hsome⟩ : ∃ tree, jsonParse noPort = some tree ∧
      (∀ n ∈ preorder tree, isSwitch n = true → ShortName n) ∧
      (∀ n ∈ preorder tree, isSwitch n = true → hasPorts n = true) ∧
      ∃ n ∈ preorder tree, isSwitch n = true :=
    exists_of_any (by decide +kernel)
  obtain ⟨tree', htree', hname', hports', hno⟩ : ∃ tree, jsonParse noSwitch = some tree ∧
      (∀ n ∈ preorder tree, isSwitch n = true → ShortName n) ∧
      (∀ n ∈ preorder tree, isSwitch n = true → hasPorts n = true) ∧
      ∀ n ∈ preorder tree, isSwitch n = false :=
    exists_of_any (by decide +kernel)
  obtain ⟨list, _, hopens, _⟩ :=
    (memory_safe_iff (fun _ => true) 0 htree hname hports).1 hsome (.zero none)
  obtain ⟨list', hread, _, hstops⟩ :=
    (memory_safe_iff (fun _ => false) 0 htree hname hports).1 hsome (.zero none)
  obtain ⟨m, hrun, hempty⟩ := hopens fun _ _ => rfl
  obtain ⟨sw, hsw⟩ := List.exists_mem_of_ne_nil _ (held_ne_nil htree hname hports hsome hread)
  exact ⟨⟨_, hrun, hempty⟩, hstops ⟨sw, hsw, rfl⟩,
    (memory_safe_iff (fun _ => true) 0 htree' hname' hports').2 hno⟩

end Client
end TsnController

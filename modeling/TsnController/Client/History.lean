import TsnController.Client.Buffers
import TsnController.Client.Document
import TsnController.Client.Files

/-!
# The directory over many runs

The client is run again whenever the configuration has changed, and nothing but the directory is
left of the runs before. It never removes a document. So what is there is a matter of all runs
together: those that wrote a switch, those that did not get that far because the configuration could
not be read or was not one, and those that were cut off half way, at a document that could not be
opened for writing (`fopen` is not asked whether it has succeeded).

`history_follows` says it in terms of the switches in the configurations, however deep they are
hidden there and whatever their numbers look like. Of the runs it is only asked that no name that is
copied leaves its buffer (`Run.Defined`). Two names may lead to one file, as `a` and `./a` do; which
file a path leads to is a parameter.
-/

set_option autoImplicit false

namespace TsnController
namespace Client

open CLib Lib Json

/-- A run: the memory it finds and the cast of an infinite quotient, the configuration file, and
which paths could be opened for writing. -/
structure Run where
  junk : Junk
  castInf : Int
  file : Option File
  opens : Text → Bool

/-- How it ends, and what it has written by then. -/
def Run.outcome (run : Run) : Outcome := clientRun run.opens run.junk run.castInf run.file

/-! ## What a run gets to write -/

/-- The document that is parsed, if there is one. -/
def Run.document (run : Run) : Option JsonTree :=
  (fileRead run.file).bind fun text => jsonParse (cString text)

/-- The switches of a document, as they are read. -/
def switchesOf (junk : Junk) (tree : JsonTree) : List Switch :=
  ((preorder tree).filter isSwitch).mapIdx fun k => switchOf (junk.ports k)

/-- The switches that a run gets to write: none if its configuration could not be read, is not
accepted or has a switch without ports, and those in front of the first one whose document cannot be
opened otherwise. -/
def Run.switches (run : Run) : List Switch :=
  match run.document with
  | none => []
  | some tree =>
    if (preorder tree).any fun n => isSwitch n && !hasPorts n then []
    else (switchesOf run.junk tree).takeWhile fun sw => run.opens (outputPath sw.name)

/-- No name leaves its buffer. -/
def Run.Defined (run : Run) : Prop :=
  ∀ tree ∈ run.document,
    untilExit (preorder tree) ≠ [] ∧ ∀ n ∈ untilExit (preorder tree), ShortName n

/-- The file is the document of the switch: it is for its path, and a reader finds in it its ports
with their entries. -/
def Documents (sw : Switch) (file : Text × Text) : Prop :=
  file.1 = outputPath sw.name ∧
    interfacesOf file.2 = some (sw.portList.held.map Port.interface)

theorem Run.outcome_of_none {run : Run} (h : run.document = none) :
    run.outcome = ⟨some (.exit 1), []⟩ := by
  unfold document at h
  unfold outcome clientRun
  cases hread : fileRead run.file with
  | none => rfl
  | some text =>
    rw [hread] at h
    simp only [clientMain, show jsonParse (cString text) = none from h]

theorem Run.outcome_of_some {run : Run} {tree : JsonTree} (h : run.document = some tree) :
    ∃ text, jsonParse text = some tree ∧
      run.outcome = clientMain run.opens run.junk run.castInf text := by
  obtain ⟨block, hread, hparse⟩ := Option.bind_eq_some_iff.mp h
  refine ⟨cString block, hparse, ?_⟩
  unfold outcome clientRun
  rw [hread]

section Accepted

variable {t : Text} {tree : JsonTree}

/-- A switch without ports ends the program, if no name has done it before. -/
theorem readAll_of_portless (junk : Junk) (h : jsonParse t = some tree)
    (hshort : ∀ n ∈ untilExit (preorder tree), ShortName n)
    (hbad : ∃ n ∈ preorder tree, isSwitch n = true ∧ hasPorts n = false) :
    readAll junk tree = .error (.exit 1) := by
  have hvalue := fun n hn => switchName_ne_none (n := n) h hn
  unfold readAll
  rw [jsonForeach_eq, foldlM_untilExit hvalue]
  exact (foldlM_readJson (untilExit (preorder tree))
    (fun n hn => hvalue n (mem_of_mem_untilExit hn).1) (fun n hn _ => hshort n hn) _).1
      (exists_portless_untilExit hbad)

/-- The documents of the switches of a document. -/
theorem documents_of_read {junk : Junk} {castInf : Int} {list : CellList Switch}
    (h : jsonParse t = some tree)
    (hports : ∀ n ∈ preorder tree, isSwitch n = true → hasPorts n = true)
    (hheld : list.held = switchesOf junk tree) (hne : list.held ≠ []) :
    List.Forall₂ Documents (switchesOf junk tree) (documents castInf list) := by
  unfold documents
  rw [CellList.values_eq_held hne, hheld, List.forall₂_map_right_iff, List.forall₂_same]
  intro sw hsw
  obtain ⟨i, hi, rfl⟩ := List.mem_mapIdx.mp hsw
  obtain ⟨hn, hs⟩ := List.mem_filter.mp (List.getElem_mem hi)
  refine ⟨rfl, ?_⟩
  rw [interfacesOf_instanceText, CellList.values_eq_held]
  exact held_switchOf_ne_nil h hn (hports _ hn hs)

end Accepted

/-- Documents are written until one cannot be opened. -/
theorem documents_takeWhile {opens : Text → Bool} {sws : List Switch} {files : List (Text × Text)}
    (h : List.Forall₂ Documents sws files) :
    List.Forall₂ Documents (sws.takeWhile fun sw => opens (outputPath sw.name))
      (files.takeWhile fun file => opens file.1) := by
  induction h with
  | nil => exact .nil
  | @cons sw file sws files hsw _ ih =>
    rw [List.takeWhile_cons, List.takeWhile_cons, hsw.1]
    split
    · exact .cons hsw ih
    · exact .nil

/-- **One run.** -/
theorem Run.Defined.documents {run : Run} (h : run.Defined) :
    List.Forall₂ Documents run.switches run.outcome.files := by
  unfold switches
  cases hdoc : run.document with
  | none =>
    rw [outcome_of_none hdoc]
    exact .nil
  | some tree =>
    obtain ⟨text, hparse, hrun⟩ := outcome_of_some hdoc
    obtain ⟨hne, hshort⟩ := h tree hdoc
    rw [hrun]
    dsimp only
    by_cases hbad : ∃ n ∈ preorder tree, isSwitch n = true ∧ hasPorts n = false
    · have hexit := readAll_of_portless run.junk hparse hshort hbad
      rw [if_pos (by simpa using hbad), clientMain_of_error run.opens run.castInf hparse hexit]
      exact .nil
    · have hports : ∀ n ∈ preorder tree, isSwitch n = true → hasPorts n = true := by
        intro n hn hs
        by_contra hp
        exact hbad ⟨n, hn, hs, Bool.eq_false_iff.mpr hp⟩
      rw [untilExit_of_ports hports] at hne hshort
      obtain ⟨list, hread, hheld⟩ := readAll_held run.junk hparse
        (fun n hn hs => hshort n (List.mem_filter.mpr ⟨hn, hs⟩)) hports
      have hlist : list.held ≠ [] := by
        rw [hheld]
        exact mt List.mapIdx_eq_nil_iff.mp hne
      rw [if_neg (by simpa using hbad), clientMain_of_read run.opens run.castInf hparse hread,
        xmlWriteInstance, files_writeFiles]
      exact documents_takeWhile (documents_of_read hparse hports hheld hlist)

/-! ## All runs -/

section History

variable {Inode : Type} [DecidableEq Inode] (resolve : Text → Inode)

/-- The directory after runs one after the other, however each of them ended. -/
def history (dir : Directory Inode) (runs : List Run) : Directory Inode :=
  runs.foldl (fun dir run => run.outcome.files.foldl (writeFile resolve) dir) dir

/-- What has become of a file: none of the switches belongs there and it is as it was, or it holds a
document that says all of the last switch that belongs there. -/
def FileFollows (switches : List Switch) (f : Inode) (before after : Option Text) : Prop :=
  ((∀ sw ∈ switches, resolve (outputPath sw.name) ≠ f) ∧ after = before) ∨
  ∃ pre sw post text, switches = pre ++ sw :: post ∧ resolve (outputPath sw.name) = f ∧
    (∀ s ∈ post, resolve (outputPath s.name) ≠ f) ∧ after = some text ∧
    interfacesOf text = some (sw.portList.held.map Port.interface)

theorem follows_foldl {switches : List Switch} {files : List (Text × Text)}
    (h : List.Forall₂ Documents switches files) (f : Inode) : ∀ dir : Directory Inode,
    FileFollows resolve switches f (dir f) (files.foldl (writeFile resolve) dir f) := by
  induction h with
  | nil => exact fun dir => .inl ⟨by simp, rfl⟩
  | @cons sw file switches files hsw _ ih =>
    intro dir
    rw [List.foldl_cons]
    rcases ih (writeFile resolve dir file) with
      ⟨hnone, hdir⟩ | ⟨pre, last, post, text, hsplit, hlast⟩
    · rw [hdir, writeFile, hsw.1]
      by_cases hfile : resolve (outputPath sw.name) = f
      · refine .inr ⟨[], sw, switches, file.2, rfl, hfile, hnone, ?_, hsw.2⟩
        rw [hfile, Function.update_self]
      · refine .inl ⟨List.forall_mem_cons.mpr ⟨hfile, hnone⟩, ?_⟩
        exact Function.update_of_ne (Ne.symm hfile) _ _
    · exact .inr ⟨sw :: pre, last, post, text, by rw [hsplit, List.cons_append], hlast⟩

theorem history_eq (dir : Directory Inode) (runs : List Run) :
    history resolve dir runs =
      (runs.flatMap fun run => run.outcome.files).foldl (writeFile resolve) dir := by
  rw [List.foldl_flatMap]
  rfl

/-- **The directory follows the configurations.** Take any runs one after the other, each with the
switches that it got to write: none if its configuration could not be read, was rejected or has a
switch without ports, and those in front of the first document that could not be opened otherwise.
Then every file is as it was before all runs, if no run wrote a switch that belongs there, or holds
a document of the last switch that any of them wrote there. -/
theorem history_follows {runs : List Run} (h : ∀ run ∈ runs, run.Defined)
    (dir : Directory Inode) (f : Inode) :
    FileFollows resolve (runs.flatMap Run.switches) f (dir f) (history resolve dir runs f) := by
  have hall : List.Forall₂ Documents (runs.flatMap Run.switches)
      (runs.flatMap fun run => run.outcome.files) := by
    induction runs with
    | nil => exact .nil
    | cons run runs ih =>
      rw [List.flatMap_cons, List.flatMap_cons]
      exact List.rel_append (h run List.mem_cons_self).documents
        (ih fun r hr => h r (List.mem_cons_of_mem run hr))
  rw [history_eq]
  exact follows_foldl resolve hall f dir

end History

instance : DecidablePred Run.Defined := fun run =>
  inferInstanceAs (Decidable (∀ tree ∈ run.document, _))

/-- A path without steps to where it already is. -/
def withoutDots : Text → Text
  | '/' :: '.' :: '/' :: rest => '/' :: withoutDots rest
  | c :: rest => c :: withoutDots rest
  | [] => []

/-- A file that can be read. -/
def fileOf (content : Text) : File := ⟨content, true, true, true, true, content.length⟩

/-- Three runs: one writes a switch and another that is hidden in its port, one finds no file, and
one writes a switch whose name leads to the first file again. -/
def sampleRuns : List Run :=
  let run (file : Option File) : Run := ⟨default, 0, file, fun _ => true⟩
  [run (some (fileOf (nestedSwitch "[1,2]"))), run none,
    run (some (fileOf "[\x7b\"switch\":\"./a\",\"port_list\":[3]\x7d]".toList))]

theorem history_follows_sample : FileFollows withoutDots (sampleRuns.flatMap Run.switches)
    (outputPath "a".toList) none
    (history withoutDots (fun _ => none) sampleRuns (outputPath "a".toList)) :=
  history_follows withoutDots (by decide +kernel) (fun _ => none) _

end Client
end TsnController

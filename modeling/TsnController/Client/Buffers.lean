import TsnController.Client.Output

/-!
# Names and the buffers they are copied to

A switch's name is copied three times on its way from the document to the name of a file: by
`strcpy` into the 20 characters of its record, by `sprintf` into a buffer of 24 and by `strcat` into
one of 34 that already holds the 10 characters of the directory. None of the three looks at a
length. The sizes go together, so that a name that fits the record fits the other two; but nothing
makes it fit the record, because a string in a document may have any length.

`read_json` copies the name before it looks for the ports, and a switch without ports ends the
program. So the names that matter are those of the switches up to the first one without ports
(`untilExit`). And if there is no switch at all the loop that writes still stands on the first cell
of the list, whose name is whatever is in memory.
-/

set_option autoImplicit false

namespace TsnController
namespace Client

open CLib Lib Json

/-! ## The writes, with their bounds -/

/-- `strcat` in a buffer of `size` characters. -/
def strcat (size : Nat) (dst src : Text) : Except Halt Text :=
  if dst.length + src.length < size then .ok (dst ++ src) else .error .undefined

/-- The path `xml_write_instance` puts together for a switch: `name_file`, then `path`. -/
def xmlPath (s : Switch) : Except Halt Text := do
  let nameFile ← strcpy (maxSwitchNameLength + 4) (some (s.name ++ ".xml".toList))
  strcat (10 + maxSwitchNameLength + 4) "../Output/".toList nameFile

/-- `main` with every write to a buffer checked: the paths it opens, or how it ends. -/
def clientPaths (junk : Junk) (config : Text) : Except Halt (List Text) :=
  match jsonParse config with
  | none => .error (.exit 1)
  | some node => do
    let list ← readAll junk node
    list.values.mapM xmlPath

theorem strcpy_error {size : Nat} {src : Text} (h : ¬ src.length < size) :
    strcpy size (some src) = .error .undefined := by
  unfold strcpy
  exact if_neg h

theorem strcat_ok {size : Nat} {dst src : Text} (h : dst.length + src.length < size) :
    strcat size dst src = .ok (dst ++ src) := by
  unfold strcat
  exact if_pos h

/-- All three buffers are of one size, up to what is added to the name. -/
theorem xmlPath_eq (s : Switch) :
    xmlPath s = if s.name.length ≤ 19 then .ok (outputPath s.name) else .error .undefined := by
  have hmax : maxSwitchNameLength = 20 := rfl
  have hdir : "../Output/".toList.length = 10 := rfl
  have hfile : (s.name ++ ".xml".toList).length = s.name.length + 4 := List.length_append
  have hpath : outputPath s.name = "../Output/".toList ++ (s.name ++ ".xml".toList) :=
    List.append_assoc _ _ _
  rw [hpath, xmlPath]
  generalize s.name ++ ".xml".toList = file at hfile ⊢
  by_cases h : s.name.length ≤ 19
  · have hfits : file.length < maxSwitchNameLength + 4 := by omega
    have hfits' : "../Output/".toList.length + file.length < 10 + maxSwitchNameLength + 4 := by
      omega
    rw [if_pos h, strcpy_ok hfits]
    exact strcat_ok hfits'
  · have hlong : ¬ file.length < maxSwitchNameLength + 4 := by omega
    rw [if_neg h, strcpy_error hlong]
    rfl

theorem mapM_xmlPath_of_short {xs : List Switch} (h : ∀ s ∈ xs, s.name.length ≤ 19) :
    xs.mapM xmlPath = .ok (xs.map fun s => outputPath s.name) := by
  induction xs with
  | nil => rfl
  | cons x xs ih =>
    rw [List.mapM_cons, xmlPath_eq, if_pos (h x List.mem_cons_self),
      ih fun s hs => h s (List.mem_cons_of_mem x hs)]
    rfl

/-- The first name that is too long is the end. -/
theorem mapM_xmlPath_of_long {xs : List Switch} {s : Switch} (hs : s ∈ xs)
    (hlong : ¬ s.name.length ≤ 19) : xs.mapM xmlPath = .error .undefined := by
  induction xs with
  | nil => exact absurd hs List.not_mem_nil
  | cons x xs ih =>
    rw [List.mapM_cons, xmlPath_eq]
    by_cases hx : x.name.length ≤ 19
    · have hne : s ≠ x := by
        intro heq
        exact hlong (heq ▸ hx)
      rw [if_pos hx, ih (List.mem_of_ne_of_mem hne hs)]
      rfl
    · rw [if_neg hx]
      rfl

/-- As long as no write leaves its buffer these are the files the run opens. -/
theorem clientMain_of_clientPaths {junk : Junk} {config : Text} {paths : List Text}
    (h : clientPaths junk config = .ok paths) (opens : Text → Bool) (castInf : Int) :
    ∃ files, clientMain opens junk castInf config = writeFiles opens files ∧
      files.map Prod.fst = paths := by
  unfold clientPaths at h
  cases hparse : jsonParse config with
  | none => rw [hparse] at h; exact absurd h (by simp)
  | some node =>
    rw [hparse] at h
    cases hread : readAll junk node with
    | error halt => simp only [hread] at h; exact absurd h (by simp [bind, Except.bind])
    | ok list =>
      simp only [hread] at h
      have hok : list.values.mapM xmlPath = .ok paths := h
      refine ⟨documents castInf list, clientMain_of_read opens castInf hparse hread, ?_⟩
      by_cases hshort : ∀ s ∈ list.values, s.name.length ≤ 19
      · rw [mapM_xmlPath_of_short hshort] at hok
        rw [← Except.ok.inj hok, documents, List.map_map]
        rfl
      · obtain ⟨s, hs, hlong⟩ : ∃ s ∈ list.values, ¬ s.name.length ≤ 19 := by
          simpa using hshort
        rw [mapM_xmlPath_of_long hs hlong] at hok
        exact absurd hok (by simp)

/-! ## Which names are copied -/

/-- The switches of a document up to the first one without ports, which ends the program. -/
def untilExit : List JsonTree → List JsonTree
  | [] => []
  | n :: ns =>
    if isSwitch n then n :: (if hasPorts n then untilExit ns else []) else untilExit ns

theorem mem_of_mem_untilExit {n : JsonTree} : ∀ {nodes : List JsonTree}, n ∈ untilExit nodes →
    n ∈ nodes ∧ isSwitch n = true := by
  intro nodes
  induction nodes with
  | nil => intro h; exact absurd h (by simp [untilExit])
  | cons m nodes ih =>
    intro h
    rw [untilExit] at h
    split at h
    · rename_i hs
      rcases List.mem_cons.mp h with rfl | h
      · exact ⟨List.mem_cons_self, hs⟩
      · split at h
        · exact ⟨List.mem_cons_of_mem m (ih h).1, (ih h).2⟩
        · exact absurd h (by simp)
    · exact ⟨List.mem_cons_of_mem m (ih h).1, (ih h).2⟩

/-- Without one that ends the program these are all of them. -/
theorem untilExit_of_ports {nodes : List JsonTree}
    (h : ∀ n ∈ nodes, isSwitch n = true → hasPorts n = true) :
    untilExit nodes = nodes.filter isSwitch := by
  induction nodes with
  | nil => rfl
  | cons n nodes ih =>
    have hrest := ih fun m hm => h m (List.mem_cons_of_mem n hm)
    rw [untilExit]
    by_cases hs : isSwitch n = true
    · rw [if_pos hs, if_pos (h n List.mem_cons_self hs), hrest, List.filter_cons_of_pos hs]
    · rw [if_neg hs, hrest, List.filter_cons_of_neg hs]

/-- Otherwise one of them is. -/
theorem exists_portless_untilExit {nodes : List JsonTree}
    (h : ∃ n ∈ nodes, isSwitch n = true ∧ hasPorts n = false) :
    ∃ n ∈ untilExit nodes, isSwitch n = true ∧ hasPorts n = false := by
  induction nodes with
  | nil =>
    obtain ⟨n, hn, _⟩ := h
    exact absurd hn List.not_mem_nil
  | cons m nodes ih =>
    obtain ⟨n, hn, hns, hnp⟩ := h
    rw [untilExit]
    by_cases hs : isSwitch m = true
    · rw [if_pos hs]
      by_cases hp : hasPorts m = true
      · rw [if_pos hp]
        have hmem : n ∈ nodes := by
          refine List.mem_of_ne_of_mem ?_ hn
          rintro rfl
          exact absurd hp (by simp [hnp])
        obtain ⟨k, hk, hkp⟩ := ih ⟨n, hmem, hns, hnp⟩
        exact ⟨k, List.mem_cons_of_mem m hk, hkp⟩
      · exact ⟨m, List.mem_cons_self, hs, Bool.eq_false_iff.mpr hp⟩
    · rw [if_neg hs]
      refine ih ⟨n, List.mem_of_ne_of_mem ?_ hn, hns, hnp⟩
      rintro rfl
      exact hs hns

/-- A visit that copies a name that is too long. -/
theorem readJson_long {junk : Junk} {node : JsonTree} (list : CellList Switch)
    (hs : isSwitch node = true)
    (hvalue : jsonString (jsonNode node "switch".toList) ≠ none) (hlong : ¬ ShortName node) :
    readJson junk node list = .error .undefined := by
  obtain ⟨name, hn⟩ := Option.ne_none_iff_exists'.mp hvalue
  have hsize : ¬ name.length < maxSwitchNameLength := by
    intro hlt
    apply hlong
    intro name' hname'
    rw [hn] at hname'
    obtain rfl := Option.some.inj hname'
    exact Nat.le_of_lt_succ hlt
  have hdef : readJson junk node list = if isSwitch node then
      (strcpy maxSwitchNameLength (jsonString (jsonNode node "switch".toList))).bind fun name =>
        if hasPorts node then
          .ok (switchPush list
            ⟨name, readPorts (junk.ports list.held.length) (jsonNode node "port_list".toList)⟩)
        else .error (.exit 1)
      else .ok list := rfl
  rw [hdef, if_pos hs, hn, strcpy_error hsize]
  rfl

theorem readJson_skip {junk : Junk} {node : JsonTree} (list : CellList Switch)
    (hs : ¬ isSwitch node = true) : readJson junk node list = .ok list := if_neg hs

/-- A switch without ports ends the program, one way or the other. -/
theorem readJson_portless {junk : Junk} {node : JsonTree} (list : CellList Switch)
    (hs : isSwitch node = true)
    (hvalue : jsonString (jsonNode node "switch".toList) ≠ none)
    (hp : ¬ hasPorts node = true) : ∃ e, readJson junk node list = .error e := by
  by_cases hname : ShortName node
  · rw [readJson_eq list (fun _ => hvalue) fun _ => hname, if_pos hs, if_neg hp]
    exact ⟨_, rfl⟩
  · exact ⟨_, readJson_long list hs hvalue hname⟩

section Visit

variable {junk : Junk} {nodes : List JsonTree}

/-- **What is visited before the program ends, and not skipped, is all that matters.** -/
theorem foldlM_untilExit
    (hvalue : ∀ n ∈ nodes, isSwitch n = true → jsonString (jsonNode n "switch".toList) ≠ none) :
    ∀ list : CellList Switch,
      nodes.foldlM (fun list node => readJson junk node list) list
        = (untilExit nodes).foldlM (fun list node => readJson junk node list) list := by
  induction nodes with
  | nil => intro list; rfl
  | cons n nodes ih =>
    intro list
    have hih := ih fun m hm => hvalue m (List.mem_cons_of_mem n hm)
    rw [List.foldlM_cons, untilExit]
    by_cases hs : isSwitch n = true
    · rw [if_pos hs, List.foldlM_cons]
      by_cases hp : hasPorts n = true
      · rw [if_pos hp]
        cases readJson junk n list with
        | error e => rfl
        | ok list' => exact hih list'
      · obtain ⟨e, he⟩ := @readJson_portless junk n list hs (hvalue n (by simp) hs) hp
        rw [he]
        rfl
    · rw [if_neg hs, readJson_skip list hs]
      exact hih list

/-- A long name among those copied leaves its buffer. -/
theorem foldlM_readJson_of_long {m : JsonTree}
    (hvalue : ∀ n ∈ nodes, isSwitch n = true → jsonString (jsonNode n "switch".toList) ≠ none)
    (hm : m ∈ untilExit nodes) (hlong : ¬ ShortName m) : ∀ list : CellList Switch,
      nodes.foldlM (fun list node => readJson junk node list) list = .error .undefined := by
  induction nodes with
  | nil => exact absurd hm (by simp [untilExit])
  | cons n nodes ih =>
    intro list
    have hih := ih fun m hm => hvalue m (List.mem_cons_of_mem n hm)
    rw [List.foldlM_cons]
    rw [untilExit] at hm
    by_cases hs : isSwitch n = true
    · rw [if_pos hs] at hm
      by_cases hname : ShortName n
      · -- not this one, so there is one behind it and the program has gone on
        have hne : m ≠ n := by
          intro heq
          exact hlong (heq ▸ hname)
        have hrest := List.mem_of_ne_of_mem hne hm
        by_cases hp : hasPorts n = true
        · rw [readJson_eq list (hvalue n (by simp)) fun _ => hname, if_pos hs, if_pos hp]
          rw [if_pos hp] at hrest
          exact hih hrest _
        · rw [if_neg hp] at hrest
          exact absurd hrest List.not_mem_nil
      · rw [readJson_long list hs (hvalue n (by simp) hs) hname]
        rfl
    · rw [if_neg hs] at hm
      rw [readJson_skip list hs]
      exact hih hm list

/-- Otherwise the program has exited, or holds the switches of all of them. -/
theorem foldlM_readJson_of_short
    (hvalue : ∀ n ∈ nodes, isSwitch n = true → jsonString (jsonNode n "switch".toList) ≠ none)
    (hshort : ∀ n ∈ untilExit nodes, ShortName n) (list : CellList Switch) :
    nodes.foldlM (fun list node => readJson junk node list) list = .error (.exit 1) ∨
    ∃ list', nodes.foldlM (fun list node => readJson junk node list) list = .ok list' ∧
      list'.held = list.held ++ (untilExit nodes).mapIdx fun i =>
        switchOf (junk.ports (list.held.length + i)) := by
  rw [foldlM_untilExit hvalue]
  obtain ⟨hbad, hgood⟩ := @foldlM_readJson junk (untilExit nodes)
    (fun n hn => hvalue n (mem_of_mem_untilExit hn).1) (fun n hn _ => hshort n hn) list
  have hall : (untilExit nodes).filter isSwitch = untilExit nodes :=
    List.filter_eq_self.mpr fun n hn => (mem_of_mem_untilExit hn).2
  rw [hall] at hgood
  by_cases hexit : ∃ n ∈ untilExit nodes, isSwitch n = true ∧ hasPorts n = false
  · exact .inl (hbad hexit)
  · right
    apply hgood
    intro n hn hs
    by_contra hp
    exact hexit ⟨n, hn, hs, Bool.eq_false_iff.mpr hp⟩

end Visit

/-- The name of the switch a node describes. -/
theorem length_switchOf {junk : PortsJunk} {n : JsonTree} (h : ShortName n) :
    (switchOf junk n).name.length ≤ 19 := by
  unfold switchOf
  cases hn : jsonString (jsonNode n "switch".toList) with
  | none => exact Nat.zero_le _
  | some name => exact h name hn

section Accepted

variable {t : Text} {tree : JsonTree}

/-- The run on an accepted document: the visit, and the paths of what it leaves in the list. -/
theorem clientPaths_eq (h : jsonParse t = some tree) (junk : Junk) :
    clientPaths junk t = ((preorder tree).foldlM (fun list node => readJson junk node list)
      (switchCreateList junk)).bind fun list => list.values.mapM xmlPath := by
  unfold clientPaths
  rw [h, ← jsonForeach_eq]
  rfl

theorem clientPaths_of_long {n : JsonTree} (h : jsonParse t = some tree)
    (hn : n ∈ untilExit (preorder tree)) (hlong : ¬ ShortName n) (junk : Junk) :
    clientPaths junk t = .error .undefined := by
  rw [clientPaths_eq h, foldlM_readJson_of_long (fun _ hm => switchName_ne_none h hm) hn hlong]
  rfl

/-- Without a switch, the path is that of the first cell of the list. -/
theorem clientPaths_of_none (h : jsonParse t = some tree)
    (hnil : untilExit (preorder tree) = []) (junk : Junk) :
    clientPaths junk t = [junk.first].mapM xmlPath := by
  rw [clientPaths_eq h, foldlM_untilExit fun _ hm => switchName_ne_none h hm, hnil]
  rfl

theorem clientPaths_of_short (h : jsonParse t = some tree)
    (hne : untilExit (preorder tree) ≠ [])
    (hshort : ∀ n ∈ untilExit (preorder tree), ShortName n) (junk : Junk) :
    clientPaths junk t ≠ .error .undefined := by
  rw [clientPaths_eq h]
  rcases foldlM_readJson_of_short (fun _ hm => switchName_ne_none h hm) hshort
    (switchCreateList junk) with hexit | ⟨list, hfold, hheld⟩
  · rw [hexit]
    exact fun h => absurd h (by simp [Except.bind])
  · rw [switchCreateList, CellList.held_create, List.nil_append] at hheld
    have hvalues : list.values = list.held := by
      rw [CellList.values_eq_held (by rw [hheld]; simpa using hne)]
    have hfit : ∀ s ∈ list.values, s.name.length ≤ 19 := by
      intro s hs
      rw [hvalues, hheld] at hs
      obtain ⟨i, hi, rfl⟩ := List.mem_mapIdx.mp hs
      exact length_switchOf (hshort _ (List.getElem_mem hi))
    rw [hfold, Except.bind, mapM_xmlPath_of_short hfit]
    exact fun h => absurd h (by simp)

end Accepted

/-- **No write leaves its buffer exactly if the names copied are short and there is one.** For an
accepted document, whatever is in memory: the switches up to the first one without ports are there
and have names of at most 19 characters. -/
theorem clientPaths_safe_iff {t : Text} {tree : JsonTree} (h : jsonParse t = some tree) :
    (∀ junk, clientPaths junk t ≠ .error .undefined) ↔
      untilExit (preorder tree) ≠ [] ∧ ∀ n ∈ untilExit (preorder tree), ShortName n := by
  constructor
  · intro hsafe
    constructor
    · intro hnil
      -- The first cell of the list, with a long name in memory.
      let junk : Junk :=
        { (default : Junk) with first := ⟨List.replicate 20 'a', (default : Junk).first.portList⟩ }
      apply hsafe junk
      rw [clientPaths_of_none h hnil]
      exact mapM_xmlPath_of_long (List.mem_singleton_self junk.first) (by decide)
    · intro n hn
      by_contra hlong
      exact hsafe default (clientPaths_of_long h hn hlong default)
  · rintro ⟨hne, hshort⟩ junk
    exact clientPaths_of_short h hne hshort junk

/-- A name of 19 characters. -/
theorem clientPaths_safe_nineteen :
    (jsonParse "[\x7b\"switch\":\"abcdefghijklmnopqrs\",\"port_list\":[]\x7d]".toList).isSome
      = true ∧
    ∀ junk, clientPaths junk
      "[\x7b\"switch\":\"abcdefghijklmnopqrs\",\"port_list\":[]\x7d]".toList
        ≠ .error .undefined := by
  obtain ⟨tree, htree, hsafe⟩ : ∃ tree,
      jsonParse "[\x7b\"switch\":\"abcdefghijklmnopqrs\",\"port_list\":[]\x7d]".toList
        = some tree ∧
      (untilExit (preorder tree) ≠ [] ∧ ∀ n ∈ untilExit (preorder tree), ShortName n) :=
    exists_of_any (by decide +kernel)
  exact ⟨by rw [htree]; rfl, (clientPaths_safe_iff htree).mpr hsafe⟩

/-- One more, and `strcpy` writes the terminator behind the record's name. -/
theorem clientPaths_twenty :
    (jsonParse "[\x7b\"switch\":\"abcdefghijklmnopqrst\",\"port_list\":[]\x7d]".toList).isSome
      = true ∧
    clientPaths default
      "[\x7b\"switch\":\"abcdefghijklmnopqrst\",\"port_list\":[]\x7d]".toList
        = .error .undefined := by
  decide +kernel

end Client
end TsnController

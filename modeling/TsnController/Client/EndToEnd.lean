import TsnController.Client.Config
import TsnController.Client.Document
import TsnController.Client.Output

/-!
# From the configuration to the documents

The two ends of the client put together. A configuration text is parsed into a tree
(`Json.Completeness`), the tree is read into lists (`Client.Config`), and every list is written to a
document in which a reader finds it again (`Client.Document`).

What a document says about a port is compared with the configuration as text: numbers are the
decimal texts of the configured ones, gates the decimal text of their base-two reading. The length
of a list and the index of an entry are counted in an `int`, which is what `SwitchConfig.Small` is
for.

What the client does not see to is that the files can be opened. A name is a part of a path, and one
with a slash in it leads to a directory that nobody has made; `clientMain_config` says that this is
all that can go wrong, and `clientMain_slash` that it does.
-/

set_option autoImplicit false

namespace TsnController
namespace Client

open CLib Lib Json

/-- What the document should say about a configured port. -/
def PortConfig.interface (config : PortConfig) : Interface where
  name := Nat.toDigits 10 config.number
  length := Nat.toDigits 10 config.pairs.length
  entries := config.pairs.zipIdx.map fun e =>
    ⟨Nat.toDigits 10 e.2, Nat.toDigits 10 e.1.2, Nat.toDigits 10 e.1.1⟩

/-- The entries can be counted. -/
def PortConfig.Small (config : PortConfig) : Prop := config.pairs.length < 2 ^ 31

def SwitchConfig.Small (config : SwitchConfig) : Prop := ∀ port ∈ config.ports, port.Small

theorem entries_eq {values : List PortValues} {pairs : List (Nat × Nat)}
    (h : List.Forall₂ HoldsPair values pairs) : ∀ i : Nat, i + pairs.length ≤ 2 ^ 31 →
    (values.zipIdx i).map (fun e => (⟨formatD (toInt e.2),
      formatD (binaryToDecimal e.1.gateStates), formatLu e.1.period⟩ : GateEntry)) =
    (pairs.zipIdx i).map fun e =>
      ⟨Nat.toDigits 10 e.2, Nat.toDigits 10 e.1.2, Nat.toDigits 10 e.1.1⟩ := by
  induction h with
  | nil => exact fun _ _ => rfl
  | @cons v pair values pairs hv _ ih =>
    intro i hi
    obtain ⟨hperiod, hgates⟩ := hv
    rw [List.length_cons] at hi
    have hindex : toInt i = i := toInt_of_lt (by omega)
    rw [List.zipIdx_cons, List.zipIdx_cons, List.map_cons, List.map_cons, ih (i + 1) (by omega),
      hperiod, hgates, hindex, formatD_natCast, formatD_natCast]
    rfl

theorem interface_eq {port : Port} {config : PortConfig} (h : HoldsPort port config)
    (hsmall : config.Small) : port.interface = config.interface := by
  obtain ⟨hnumber, hpairs⟩ := h
  have hlength : adminControlListLength port.values.values = config.pairs.length := by
    unfold adminControlListLength
    rw [hpairs.length_eq, toInt_of_lt hsmall]
  unfold Port.interface PortConfig.interface
  rw [hnumber, hlength, formatD_natCast, formatD_natCast,
    entries_eq hpairs 0 (by rw [Nat.zero_add]; exact Nat.le_of_lt hsmall)]

theorem interfaces_eq {ports : List Port} {configs : List PortConfig}
    (h : List.Forall₂ HoldsPort ports configs) (hsmall : ∀ config ∈ configs, config.Small) :
    ports.map Port.interface = configs.map PortConfig.interface := by
  induction h with
  | nil => rfl
  | @cons port config ports configs hport _ ih =>
    rw [List.map_cons, List.map_cons, interface_eq hport (hsmall config List.mem_cons_self),
      ih fun c hc => hsmall c (List.mem_cons_of_mem config hc)]

/-- The file is for the switch, and a reader finds in it the ports of the switch with their
entries. -/
def SaysAll (sw : SwitchConfig) (file : Text × Text) : Prop :=
  file.1 = outputPath sw.name ∧ interfacesOf file.2 = some (sw.ports.map PortConfig.interface)

theorem saysAll_documents (castInf : Int) {list : CellList Switch} {config : List SwitchConfig}
    (h : List.Forall₂ HoldsSwitch list.values config) (hsmall : ∀ sw ∈ config, sw.Small) :
    List.Forall₂ SaysAll config (documents castInf list) := by
  unfold documents
  rw [List.forall₂_map_right_iff]
  generalize list.values = sws at h ⊢
  induction h with
  | nil => exact .nil
  | @cons sw c sws config hsw _ ih =>
    obtain ⟨hname, hports⟩ := hsw
    refine .cons ⟨by rw [hname], ?_⟩ (ih fun s hs => hsmall s (List.mem_cons_of_mem c hs))
    rw [interfacesOf_instanceText, interfaces_eq hports (hsmall c List.mem_cons_self)]

/-- The paths of the documents are those of the switches. -/
theorem opens_documents_iff {opens : Text → Bool} (castInf : Int) {list : CellList Switch}
    {config : List SwitchConfig} (h : List.Forall₂ HoldsSwitch list.values config) :
    (∀ file ∈ documents castInf list, opens file.1 = true) ↔
      ∀ sw ∈ config, opens (outputPath sw.name) = true := by
  unfold documents
  rw [List.forall_mem_map]
  generalize list.values = sws at h ⊢
  induction h with
  | nil => simp
  | cons hsw _ ih => rw [List.forall_mem_cons, List.forall_mem_cons, ih, hsw.1]

/-- **The documents say what the configuration says, if the files can be opened.** Whatever text
writes the configuration, there is one document for each switch, in order, in which a reader finds
the ports of that switch with their entries. The client writes these documents up to the first one
it cannot open, and it writes all of them and ends normally exactly if it can open them all. -/
theorem clientMain_config (opens : Text → Bool) (junk : Junk) (castInf : Int) {t : Text} {v : Value}
    {config : List SwitchConfig} (hw : Writes v t) (h : IsConfig v config)
    (hsmall : ∀ sw ∈ config, sw.Small) :
    (∃ files, List.Forall₂ SaysAll config files ∧
      clientMain opens junk castInf t = writeFiles opens files) ∧
    ((∃ files, clientMain opens junk castInf t = ⟨none, files⟩ ∧
        List.Forall₂ SaysAll config files) ↔
      ∀ sw ∈ config, opens (outputPath sw.name) = true) := by
  have hparse : jsonParse t = some v.tree :=
    (Cursor.accepts_of_writes hw).jsonParse_eq
  obtain ⟨list, hread, hholds⟩ := readAll_config junk hparse h
  have hsays := saysAll_documents castInf hholds hsmall
  have hmain : clientMain opens junk castInf t = writeFiles opens (documents castInf list) :=
    clientMain_of_read opens castInf hparse hread
  refine ⟨⟨_, hsays, hmain⟩, ?_⟩
  rw [hmain, ← opens_documents_iff castInf hholds]
  constructor
  · rintro ⟨files, hfiles, _⟩
    exact opens_of_halt_eq_none (by rw [hfiles])
  · intro hopens
    exact ⟨_, writeFiles_of_opens hopens, hsays⟩

/-- A string without escapes. -/
def plainString (w : Text) (h : w.all (fun c => c ≠ '"' ∧ c ≠ '\\') = true) : Quoted :=
  ⟨w.attach.map fun c => .plain c.1 (of_decide_eq_true (List.all_eq_true.mp h c.1 c.2)), []⟩

/-- One switch with two entries in one port; the gates have leading zeros. -/
def namedValue (name : Quoted) : Value :=
  .array [.object [
    (plainString "switch".toList rfl, .scalar (.strings name)),
    (plainString "port_list".toList rfl, .array [.object [
      (plainString "port_number".toList rfl, .scalar (.number "7".toList (by decide))),
      (plainString "values".toList rfl, .array [
        .array [.scalar (.number "10".toList (by decide)),
          .scalar (.number "0011".toList (by decide))],
        .array [.scalar (.number "20".toList (by decide)),
          .scalar (.number "0100".toList (by decide))]])]])]]

def sampleValue : Value := namedValue (plainString "a".toList rfl)

theorem isPair_of_check {period gates : Text} (hp : IsNumeral period) (hg : IsNumeral gates)
    (hdp : period.all Char.isDigit = true) (hle : Nat.ofDigitChars 10 period 0 ≤ ulongMax)
    (hbin : gates.all (fun c => c = '0' ∨ c = '1') = true)
    (hlen : (gates.dropWhile (· = '0')).length ≤ 10) :
    IsPair (.array [.scalar (.number period hp), .scalar (.number gates hg)])
      (Nat.ofDigitChars 10 period 0, Nat.ofDigitChars 2 gates 0) :=
  ⟨period, gates, hp, hg, rfl, List.all_eq_true.mp hdp, rfl, hle,
    fun c hc => of_decide_eq_true (List.all_eq_true.mp hbin c hc), hlen, rfl⟩

theorem isConfig_namedValue {name : Quoted} (hshort : name.content.length ≤ 19) :
    IsConfig (namedValue name) [⟨name.content, [⟨7, [(10, 3), (20, 4)]⟩]⟩] := by
  refine ⟨_, rfl, by simp, .cons ⟨⟨_, rfl, rfl⟩, hshort, ⟨_, rfl, by simp, .cons ⟨?_, ?_⟩ .nil⟩,
    ?_⟩ .nil⟩
  · exact ⟨_, rfl, List.all_eq_true.mp rfl, rfl, by decide⟩
  · refine ⟨_, rfl, by simp, .cons ?_ (.cons ?_ .nil)⟩
    · exact isPair_of_check _ _ rfl (by decide) rfl (by decide)
    · exact isPair_of_check _ _ rfl (by decide) rfl (by decide)
  · intro ms hms m hm
    cases hms
    have hpair : ∀ x y : Scalar, Quiet (.array [.scalar x, .scalar y]) := by
      intro x y
      exact .array _ (List.forall_mem_cons.mpr
        ⟨.scalar x, List.forall_mem_singleton.mpr (.scalar y)⟩)
    have hvalues := Quiet.array _ (List.forall_mem_cons.mpr
      ⟨hpair (.number "10".toList (by decide)) (.number "0011".toList (by decide)),
        List.forall_mem_singleton.mpr
          (hpair (.number "20".toList (by decide)) (.number "0100".toList (by decide)))⟩)
    revert m
    refine List.forall_mem_cons.mpr ⟨.scalar _, List.forall_mem_singleton.mpr (.array _ ?_)⟩
    refine List.forall_mem_singleton.mpr (.object _ ?_ ?_)
    · intro hsel
      obtain ⟨q, hq⟩ := hsel
      exact absurd (show none = some _ from hq) (by simp)
    · exact List.forall_mem_cons.mpr ⟨.scalar _, List.forall_mem_singleton.mpr hvalues⟩

theorem isConfig_sampleValue : IsConfig sampleValue [⟨"a".toList, [⟨7, [(10, 3), (20, 4)]⟩]⟩] :=
  isConfig_namedValue (by decide)

theorem small_sample (name : Text) :
    ∀ sw ∈ [(⟨name, [⟨7, [(10, 3), (20, 4)]⟩]⟩ : SwitchConfig)], sw.Small :=
  List.forall_mem_singleton.mpr (List.forall_mem_singleton.mpr (show 2 < 2 ^ 31 by decide))

/-- Its text, with some space. -/
def sampleText (name : String) : Text :=
  ("[ \x7b\"switch\" : \"" ++ name ++ "\",\n \"port_list\":[\x7b\"port_number\":7," ++
    "\"values\":[ [10, 0011],[20,0100] ]\x7d]\x7d ]").toList

theorem clientMain_config_sample : ∃ files,
    clientMain (fun _ => true) default 0 (sampleText "a") = ⟨none, files⟩ ∧
    List.Forall₂ SaysAll [⟨"a".toList, [⟨7, [(10, 3), (20, 4)]⟩]⟩] files :=
  (clientMain_config (fun _ => true) default 0 (v := sampleValue)
    (padded_of_spells (by decide +kernel)) isConfig_sampleValue (small_sample _)).2.mpr
      fun _ _ => rfl

/-- Only what is in `../Output/` itself can be opened: there are no directories in it. -/
def opensFlat (path : Text) : Bool := '/' ∉ path.drop "../Output/".toList.length

/-- A configuration whose one switch is named `x/y`. The client neither ends normally nor writes its
document. -/
theorem clientMain_slash : Writes (namedValue (plainString "x/y".toList rfl)) (sampleText "x/y") ∧
    IsConfig (namedValue (plainString "x/y".toList rfl))
      [⟨"x/y".toList, [⟨7, [(10, 3), (20, 4)]⟩]⟩] ∧
    ¬ ∃ files, clientMain opensFlat default 0 (sampleText "x/y") = ⟨none, files⟩ ∧
      List.Forall₂ SaysAll [⟨"x/y".toList, [⟨7, [(10, 3), (20, 4)]⟩]⟩] files := by
  refine ⟨padded_of_spells (by decide +kernel), isConfig_namedValue (by decide), ?_⟩
  have hmain : clientMain opensFlat default 0 (sampleText "x/y") = ⟨some .undefined, []⟩ := by
    decide +kernel
  rintro ⟨files, hfiles, _⟩
  rw [hmain] at hfiles
  exact absurd hfiles (by simp)

end Client
end TsnController

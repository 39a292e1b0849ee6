import TsnController.Client.CycleTime
import TsnController.Client.EndToEnd
import TsnController.Client.Schema

/-!
# From the configuration to valid documents

`Client.EndToEnd` says what the documents say, `Client.Schema` when a document is valid. Put
together, a configuration text can be judged before the client is run on it: its documents are valid
for the modules exactly if the numbers in it are, and the numbers are all there is to look at.

Which numbers these are is said about the configuration, not about the lists in memory. The gates
are its binary numerals, of which the client takes ten digits and the module eight.
-/

set_option autoImplicit false

namespace TsnController
namespace Client

open CLib Lib Json

/-- A pair that can be written for the module: a period and gates. -/
def PairFits (pair : Nat × Nat) : Prop := pair.1 < 2 ^ 32 ∧ pair.2 < 2 ^ 8

/-- Which switches of a configuration get a valid document. -/
structure SwitchConfig.Fits (castInf : Int) (sw : SwitchConfig) : Prop where
  numbers : (sw.ports.map (·.number)).Nodup
  pairs : ∀ port ∈ sw.ports, port.pairs.length < 2 ^ 31 ∧ ∀ pair ∈ port.pairs, PairFits pair
  /-- the period that the cycle time is made of -/
  cycle : ∀ port ∈ sw.ports.getLast?, ∀ pair ∈ port.pairs.getLast?, pair.1 = 0 →
    0 ≤ castInf ∧ castInf < 2 ^ 32

section Transfer

variable {α β : Type} {R : α → β → Prop} {xs : List α} {ys : List β}

theorem forall_mem_iff_of_forall₂ {P : α → Prop} {Q : β → Prop} (h : List.Forall₂ R xs ys)
    (hPQ : ∀ x y, R x y → (P x ↔ Q y)) : (∀ x ∈ xs, P x) ↔ ∀ y ∈ ys, Q y := by
  induction h with
  | nil => exact iff_of_true (by simp) (by simp)
  | cons hxy _ ih => rw [List.forall_mem_cons, List.forall_mem_cons, hPQ _ _ hxy, ih]

theorem getLast?_of_forall₂ (h : List.Forall₂ R xs ys) (hne : xs ≠ []) :
    ∃ y, ys.getLast? = some y ∧ R (xs.getLast hne) y := by
  induction h with
  | nil => exact absurd rfl hne
  | @cons x y xs ys hxy htail ih =>
    cases htail with
    | nil => exact ⟨y, rfl, hxy⟩
    | cons _ _ =>
      rw [List.getLast?_cons_cons, List.getLast_cons_cons]
      exact ih (List.cons_ne_nil _ _)

end Transfer

theorem entryFits_iff {v : PortValues} {pair : Nat × Nat} (h : HoldsPair v pair) :
    EntryFits v ↔ PairFits pair := by
  obtain ⟨hperiod, hgates⟩ := h
  rw [EntryFits, PairFits, hperiod, hgates]
  omega

theorem portEntries_iff {port : Port} {config : PortConfig} (h : HoldsPort port config) :
    (port.values.values.length < 2 ^ 31 ∧ ∀ v ∈ port.values.values, EntryFits v) ↔
      config.pairs.length < 2 ^ 31 ∧ ∀ pair ∈ config.pairs, PairFits pair := by
  rw [h.2.length_eq, forall_mem_iff_of_forall₂ h.2 fun v pair => entryFits_iff]

theorem numbers_eq {ports : List Port} {configs : List PortConfig}
    (h : List.Forall₂ HoldsPort ports configs) :
    ports.map (·.number) = (configs.map (·.number)).map fun n : Nat => (n : Int) := by
  induction h with
  | nil => rfl
  | cons hport _ ih =>
    rw [List.map_cons, List.map_cons, List.map_cons, ih]
    exact congrArg (· :: _) hport.1

/-- The last pair of the last port. -/
theorem hypercycle_config {sw : Switch} {config : SwitchConfig} (h : HoldsSwitch sw config) :
    ∃ port pair, config.ports.getLast? = some port ∧ port.pairs.getLast? = some pair ∧
      hypercycle sw.portList.values = pair.1 := by
  obtain ⟨port, hport, hholds⟩ := getLast?_of_forall₂ h.2 sw.portList.values_ne_nil
  obtain ⟨pair, hpair, hlast⟩ := getLast?_of_forall₂ hholds.2 (lastPort sw).values.values_ne_nil
  exact ⟨port, pair, hport, hpair, (hypercycle_eq sw).trans hlast.1⟩

theorem validInstance_config (classes : TrafficClassType) {castInf : Int} {sw : Switch}
    {config : SwitchConfig} (h : HoldsSwitch sw config) :
    ValidInstance classes (instanceText castInf sw) ↔ config.Fits castInf := by
  have hnumbers : (sw.portList.values.map (·.number)).Nodup ↔
      (config.ports.map (·.number)).Nodup := by
    have hinj : Function.Injective fun n : Nat => (n : Int) := fun m n hmn => Int.ofNat.inj hmn
    rw [numbers_eq h.2, List.nodup_map_iff hinj]
  have hentries := forall_mem_iff_of_forall₂ h.2 fun _ _ => portEntries_iff
  obtain ⟨port, pair, hport, hpair, hcycle⟩ := hypercycle_config h
  rw [validInstance_iff_portFits, forall_portFits_iff, hnumbers, hentries, hcycle]
  constructor
  · rintro ⟨hnodup, hall, hzero⟩
    refine ⟨hnodup, hall, ?_⟩
    intro port' hport' pair' hpair'
    obtain rfl := Option.some.inj (hport.symm.trans hport')
    obtain rfl := Option.some.inj (hpair.symm.trans hpair')
    exact hzero
  · rintro ⟨hnodup, hall, hzero⟩
    exact ⟨hnodup, hall, hzero port hport pair hpair⟩

/-- **A configuration can be judged by its numbers.** Whatever text writes it, there is one document
for each switch, in order, and it is valid for the modules exactly if the numbers of the switch fit.
The client writes these documents up to the first one it cannot open, and ends normally after all of
them exactly if it can open them all. -/
theorem clientMain_valid (classes : TrafficClassType) (opens : Text → Bool) (junk : Junk)
    (castInf : Int) {t : Text} {v : Value} {config : List SwitchConfig} (hw : Writes v t)
    (h : IsConfig v config) :
    ∃ files, List.Forall₂ (fun sw file => file.1 = outputPath sw.name ∧
        (ValidInstance classes file.2 ↔ sw.Fits castInf)) config files ∧
      clientMain opens junk castInf t = writeFiles opens files ∧
      (clientMain opens junk castInf t = ⟨none, files⟩ ↔
        ∀ sw ∈ config, opens (outputPath sw.name) = true) := by
  have hparse : jsonParse t = some v.tree := (Cursor.accepts_of_writes hw).jsonParse_eq
  obtain ⟨list, hread, hholds⟩ := readAll_config junk hparse h
  have hmain : clientMain opens junk castInf t = writeFiles opens (documents castInf list) :=
    clientMain_of_read opens castInf hparse hread
  refine ⟨documents castInf list, ?_, hmain, ?_⟩
  · unfold documents
    rw [List.forall₂_map_right_iff]
    apply hholds.flip.imp
    intro sw s hs
    exact ⟨by rw [hs.1], validInstance_config classes hs⟩
  · rw [hmain, writeFiles_eq_iff, opens_documents_iff castInf hholds]

/-- The numbers of the eight classes and no others. -/
def eightClasses : TrafficClassType := ⟨.uint 7, fun _ hi => admits_formatD.mpr (by omega)⟩

theorem clientMain_valid_sample : ∃ files,
    List.Forall₂ (fun (sw : SwitchConfig) (file : Text × Text) => file.1 = outputPath sw.name ∧
      (ValidInstance eightClasses file.2 ↔ sw.Fits 0))
      [⟨"a".toList, [⟨7, [(10, 3), (20, 4)]⟩]⟩] files ∧
    clientMain (fun _ => true) default 0 (sampleText "a") = ⟨none, files⟩ := by
  obtain ⟨files, hfiles, _, hall⟩ := clientMain_valid eightClasses (fun _ => true) default 0
    (v := sampleValue) (t := sampleText "a") (padded_of_spells (by decide +kernel))
    isConfig_sampleValue
  exact ⟨files, hfiles, hall.mpr fun _ _ => rfl⟩

end Client
end TsnController

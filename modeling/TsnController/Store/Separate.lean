import TsnController.Lib.Separate
import TsnController.Store.Wire

/-!
# Stores of different switches

Two runs of `InsertConfigInDB` at once can be given one list number (`Interleave`), and one of them
can then make the other exit. All of this needs a switch that both of them store. A run asks for the
lists of its own switches and inserts rows of its own switches, and the server looks at no other
rows for that, since the switch number is the first column of the primary key.

So runs for different switches may go on at the same time in any way. Each of them prints and stores
what it would alone, and ends as it would alone (`stores_as_alone`); to put them one after the other
is one way among all.
-/

set_option autoImplicit false

namespace TsnController
namespace Store

open CLib Lib

variable {sqlInt : Text → Option Int}

/-! ## What a statement depends on -/

theorem number_of_rowOf {q : Statement} {r : Row} (h : rowOf sqlInt q = some r) :
    sqlInt q.number = some r.switchNumber.toInt := by
  cases q with
  | select w => exact absurd h (by simp [rowOf])
  | insert w port list index period gates =>
    simp only [rowOf, Option.bind_eq_bind, Option.bind_eq_some_iff, Option.some.injEq] at h
    obtain ⟨s, hs, c, hc, p, _, rfl⟩ := h
    rw [toInt_of_toColumn hc]
    exact hs

/-- Only rows of its own switch can have the key of a row. -/
theorem Info.add_eq_none_iff {t : Info} {r : Row} :
    t.add r = none ↔ r.key ∈ (t.ofSwitch r.switchNumber.toInt).map Row.key := by
  have hkey : r.key ∈ (t.ofSwitch r.switchNumber.toInt).map Row.key ↔
      r.key ∈ t.rows.map Row.key := by
    rw [List.mem_map, List.mem_map]
    constructor
    · rintro ⟨r', hr', heq⟩
      exact ⟨r', (Info.mem_ofSwitch.mp hr').1, heq⟩
    · rintro ⟨r', hr', heq⟩
      exact ⟨r', Info.mem_ofSwitch.mpr ⟨hr', congrArg Int32.toInt (Prod.mk.inj heq).1⟩, heq⟩
  rw [hkey]
  unfold Info.add
  split
  · exact iff_of_true rfl (by assumption)
  · exact iff_of_false (by simp) (by assumption)

/-- The answer depends on the rows of one switch. -/
theorem answer_eq {t u : Info} {q : Statement}
    (h : ∀ s, sqlInt q.number = some s → t.ofSwitch s = u.ofSwitch s) :
    (serve sqlInt t q).1 = (serve sqlInt u q).1 := by
  cases q with
  | select w =>
    rw [serve, serve]
    cases hs : sqlInt w with
    | none => rfl
    | some s =>
      have hlists : t.lists s = u.lists s := by
        unfold Info.lists
        rw [h s hs]
      exact congrArg Answer.lists hlists
  | insert w port list index period gates =>
    rw [serve, serve]
    cases hrow : rowOf sqlInt (.insert w port list index period gates) with
    | none => rfl
    | some r =>
      have hnone : t.add r = none ↔ u.add r = none := by
        rw [Info.add_eq_none_iff, Info.add_eq_none_iff, h _ (number_of_rowOf hrow)]
      rw [Option.bind_some, Option.bind_some]
      cases ht : t.add r with
      | none => rw [hnone.mp ht]
      | some t' =>
        cases hu : u.add r with
        | none => exact absurd (hnone.mpr hu) (by simp [ht])
        | some u' => rfl

/-- What is added to the rows of a switch depends on the answer only. -/
theorem ofSwitch_serve (t : Info) (q : Statement) (s : Int) :
    (serve sqlInt t q).2.ofSwitch s = t.ofSwitch s ++
      (accepted sqlInt (q, (serve sqlInt t q).1)).toList.filter (·.switchNumber.toInt = s) := by
  unfold Info.ofSwitch
  rw [rows_serve, List.filter_append]

/-- The rows of another switch stay as they are. -/
theorem ofSwitch_serve_of_ne (t : Info) {q : Statement} {s : Int} (h : sqlInt q.number ≠ some s) :
    (serve sqlInt t q).2.ofSwitch s = t.ofSwitch s := by
  rw [ofSwitch_serve]
  refine (congrArg _ (List.filter_eq_nil_iff.mpr ?_)).trans (List.append_nil _)
  intro r hr hs
  have hrow : rowOf sqlInt q = some r := by
    have hmem := Option.mem_toList.mp hr
    unfold accepted at hmem
    split at hmem
    · exact hmem
    · exact absurd hmem (by simp)
  exact h ((number_of_rowOf hrow).trans (congrArg some (of_decide_eq_true hs)))

/-! ## Runs -/

section Runs

variable (sqlInt)

/-- The statement is about a switch of the run. -/
def Concerns (switches : List Switx) (q : Statement) : Prop :=
  ∃ sw ∈ switches, q.number = sw.number

/-- The tables have the same rows of the switches of the run. -/
def SameRows (switches : List Switx) (t u : Info) : Prop :=
  ∀ sw ∈ switches, ∀ s, sqlInt sw.number = some s → t.ofSwitch s = u.ofSwitch s

/-- No switch is stored by two of the runs. -/
def DifferentSwitches {ι : Type} (switches : ι → List Switx) : Prop :=
  ∀ i j, i ≠ j → ∀ a ∈ switches i, ∀ b ∈ switches j, ∀ s,
    sqlInt a.number = some s → sqlInt b.number ≠ some s

theorem concerns_insertConfigInDB (switches : List Switx) :
    (insertConfigInDB switches).Asks (Concerns switches) :=
  asks_insertConfigInDB (fun sw hsw => ⟨sw, hsw, rfl⟩) fun sw hsw _ _ _ => ⟨sw, hsw, rfl⟩

variable {sqlInt}

theorem ownParts_stores {ι : Type} {switches : ι → List Switx}
    (h : DifferentSwitches sqlInt switches) :
    OwnParts (serve sqlInt) (fun i => Concerns (switches i))
      (fun i => SameRows sqlInt (switches i)) where
  refl i t sw _ s _ := rfl
  self := by
    rintro i q t u ⟨own, hown, hq⟩ hsame
    have hanswer : (serve sqlInt t q).1 = (serve sqlInt u q).1 :=
      answer_eq fun s hs => hsame own hown s (hq ▸ hs)
    refine ⟨hanswer, fun sw hsw s hs => ?_⟩
    rw [ofSwitch_serve, ofSwitch_serve, hanswer, hsame sw hsw s hs]
  other := by
    rintro i j q t u ⟨other, hother, hq⟩ hji hsame sw hsw s hs
    rw [ofSwitch_serve_of_ne t (hq ▸ h i j (Ne.symm hji) sw hsw other hother s hs)]
    exact hsame sw hsw s hs

variable (sqlInt) in
/-- What several runs have come to: one that has ended has ended as it would have alone, on the
table as it was at the start, with the same list numbers or the same exit, and its switches have the
rows they would have then. The switches that no run stores are as they were. -/
structure StoredAsAlone {ι : Type} (switches : ι → List Switx) (t : Info) (w : Runs ι) : Prop where
  ended : ∀ i result, (w.procs i).Ended result →
    ∃ u, (insertConfigInDB (switches i)).run (serve sqlInt) t = (result, u) ∧
      ∀ sw ∈ switches i, ∀ s, sqlInt sw.number = some s → w.state.ofSwitch s = u.ofSwitch s
  untouched : ∀ s, (∀ i, ∀ sw ∈ switches i, sqlInt sw.number ≠ some s) →
    w.state.ofSwitch s = t.ofSwitch s

/-- **Runs for different switches do not notice each other**, however they take turns. -/
theorem stores_as_alone {ι : Type} [DecidableEq ι] {switches : ι → List Switx}
    (h : DifferentSwitches sqlInt switches) (t : Info) (turns : List ι) :
    StoredAsAlone sqlInt switches t
      ((World.start (fun i => insertConfigInDB (switches i)) t).after (serve sqlInt) turns) := by
  have hasks := fun i => concerns_insertConfigInDB (switches i)
  constructor
  · intro i result hended
    obtain ⟨u, hrun, hsame⟩ := World.asAlone (ownParts_stores h) hasks t turns i
    rw [hended.run_eq] at hrun
    exact ⟨u, hrun.symm, hsame⟩
  · intro s hs
    apply World.keeps_after (P := fun u : Info => u.ofSwitch s = t.ofSwitch s) hasks rfl
    rintro i q u ⟨sw, hsw, hq⟩ hu
    rw [ofSwitch_serve_of_ne u (hq ▸ hs i sw hsw)]
    exact hu

/-- Two runs with a switch each. -/
def ownSwitch (second : Bool) : List Switx :=
  [⟨if second then "65".toList else "64".toList, [⟨1, List.replicate 3 ⟨200000, 128⟩, by decide⟩]⟩]

/-- Their statements, one by one, until both are through. -/
def ownTurns : List Bool := [false, true, true, false, true, false, false, true]

theorem stores_as_alone_two : DifferentSwitches decimal ownSwitch ∧
    (∀ i, ((World.start (fun i => insertConfigInDB (ownSwitch i)) Info.mydata).after
      (serve decimal) ownTurns |>.procs i).next = none) ∧
    StoredAsAlone decimal ownSwitch Info.mydata
      ((World.start (fun i => insertConfigInDB (ownSwitch i)) Info.mydata).after (serve decimal)
        ownTurns) := by
  have h64 : decimal "64".toList = some 64 := by decide
  have h65 : decimal "65".toList = some 65 := by decide
  have hdifferent : DifferentSwitches decimal ownSwitch := by
    intro i j hij a ha b hb s ha' hb'
    rw [List.mem_singleton.mp ha] at ha'
    rw [List.mem_singleton.mp hb] at hb'
    have hsame := ha'.trans hb'.symm
    cases i <;> cases j
    · exact hij rfl
    · exact absurd (h64.symm.trans (hsame.trans h65)) (by decide)
    · exact absurd (h65.symm.trans (hsame.trans h64)) (by decide)
    · exact hij rfl
  exact ⟨hdifferent, by decide +kernel, stores_as_alone hdifferent Info.mydata _⟩

end Runs

end Store
end TsnController

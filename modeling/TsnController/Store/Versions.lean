import Mathlib.Data.List.Forall2
import TsnController.Store.Insert

/-!
# Versions of a switch's configuration

What a sequence of stores leaves behind when every statement succeeds. Each switch that is stored is
one `Version`: the table before it, the number it was given, and the rows it added. A run is a list
of versions, each starting where the one before has ended (`History`), and the statements of the
program are not mentioned any more.

Of what one would like to have, that the rows of a version are the configured entries and stay so,
two things can fail. `%li` prints a period as a signed number, so that one from `2 ^ 63` on is
stored as a negative one if it is stored at all. And a switch without entries leaves no row behind;
the next store of the same switch is given the same number and fills the version that was empty.
-/

set_option autoImplicit false

namespace TsnController
namespace Store

open CLib Lib

/-! ## Entries as they are configured and as they are printed -/

/-- Port, index, period and gates of a row. -/
def Row.shown (r : Row) : Int32 × Int × Int × Int32 :=
  (r.portNumber, r.index.toInt, r.period.toInt, r.gatesState)

def configured (e : Int32 × Nat × Entry) : Int32 × Int × Int × Int32 :=
  (e.1, e.2.1, e.2.2.period.toNat, e.2.2.gatesState)

def printed (e : Int32 × Nat × Entry) : Int32 × Int × Int × Int32 :=
  (e.1, e.2.1, formatLi e.2.2.period, e.2.2.gatesState)

/-- The period is positive as a `long`. -/
def Entry.Signed (e : Entry) : Prop := e.period.toNat < 0x8000000000000000

theorem formatLi_eq_iff (e : Entry) : formatLi e.period = e.period.toNat ↔ e.Signed := by
  have hlt := UInt64.toNat_lt e.period
  unfold formatLi Entry.Signed
  constructor
  · intro h
    have hbound := Int.bmod_lt (x := e.period.toNat) (m := 0x10000000000000000) (by decide)
    omega
  · intro h
    apply Int.bmod_eq_of_le <;> omega

theorem printed_eq_iff (es : List (Int32 × Nat × Entry)) :
    es.map printed = es.map configured ↔ ∀ e ∈ es, e.2.2.Signed := by
  rw [List.map_inj_left]
  constructor
  · intro h e he
    have heq := h e he
    unfold printed configured at heq
    simp only [Prod.mk.injEq] at heq
    exact (formatLi_eq_iff e.2.2).mp heq.2.2.1
  · intro h e he
    unfold printed configured
    rw [(formatLi_eq_iff e.2.2).mpr (h e he)]

theorem index_lt {sw : Switx} {e : Int32 × Nat × Entry} (h : e ∈ sw.entries) :
    e.2.1 < 0x80000000 := by
  obtain ⟨port, _, h⟩ := List.mem_flatMap.mp h
  obtain ⟨x, hx, rfl⟩ := List.mem_map.mp h
  have hlt := List.snd_lt_of_mem_zipIdx hx
  have hbound := port.bounded
  show x.2 < 0x80000000
  omega

/-! ## Versions -/

section Versions

variable (sqlInt : Text → Option Int)

/-- A switch that has been stored. -/
structure Version where
  before : Info
  sw : Switx
  /-- the switch number, as the server understands it -/
  number : Int
  list : Int32
  rows : List Row
  after : Info
  number_eq : sqlInt sw.number = some number
  next : IsNext before number list
  rows_eq : List.Forall₂ (fun e r => r.switchNumber.toInt = number ∧ r.listNumber = list ∧
    r.shown = printed e) sw.entries rows
  after_eq : after.rows = before.rows ++ rows

/-- A run as the versions it has stored. -/
def History : Info → List (Version sqlInt) → Info → Prop
  | t, [], t' => t = t'
  | t, v :: vs, t' => v.before = t ∧ History v.after vs t'

variable {sqlInt}

theorem History.append {t t' t'' : Info} {vs ws : List (Version sqlInt)}
    (h : History sqlInt t vs t') (h' : History sqlInt t' ws t'') :
    History sqlInt t (vs ++ ws) t'' := by
  induction vs generalizing t with
  | nil =>
    cases h
    exact h'
  | cons v vs ih => exact ⟨h.1, ih h.2⟩

/-- A successful series of INSERTs adds their rows. -/
theorem run_insertAll_ok {qs : List Statement} (hqs : ∀ q ∈ qs, q.isInsert = true) :
    ∀ {t t' : Info}, (insertAll qs).run (serve sqlInt) t = (.ok (), t') →
    ∃ rows, List.Forall₂ (fun q r => rowOf sqlInt q = some r) qs rows ∧
      t'.rows = t.rows ++ rows := by
  induction qs with
  | nil =>
    intro t t' h
    cases h
    exact ⟨[], .nil, (List.append_nil _).symm⟩
  | cons q qs ih =>
    intro t t' h
    obtain ⟨k, hcall, herror, hgo⟩ := insertAll_cons q qs
    rw [hcall, Proc.run_call] at h
    rcases serve_cases sqlInt t q with hs | ⟨w, s, rfl, _, _⟩ | ⟨r, t₁, hr, ha, hs⟩
    · rw [hs, herror] at h
      exact absurd (congrArg Prod.fst h) (by simp [Proc.run])
    · exact absurd (hqs _ List.mem_cons_self) (by simp [Statement.isInsert])
    · rw [hs, hgo .done (by simp)] at h
      obtain ⟨rows, hrows, ht'⟩ := ih (fun q' hq' => hqs q' (List.mem_cons_of_mem q hq')) h
      refine ⟨r :: rows, .cons hr hrows, ?_⟩
      rw [ht', Info.rows_of_add ha, List.append_assoc]
      rfl

/-- A switch that is stored is a version. -/
theorem exists_version {sw : Switx} {t t' : Info} {n : Int32}
    (h : (insertSwitch sw).run (serve sqlInt) t = (.ok n, t')) :
    ∃ v : Version sqlInt, v.before = t ∧ v.sw = sw ∧ v.list = n ∧ v.after = t' := by
  rw [insertSwitch_eq, Proc.run_call] at h
  rcases serve_cases sqlInt t (.select sw.number) with hs | ⟨w, s, hw, hnum, hs⟩ | ⟨r, t₁, hr, _, _⟩
  · rw [hs] at h
    exact absurd (congrArg Prod.fst h) (by simp [Proc.run])
  · cases hw
    rw [hs] at h
    rcases nextListNumber_lists t s with ⟨m, hm, hnext⟩ | hundef
    · simp only [hm, Proc.ret_bind] at h
      obtain ⟨u, t₁, hrun, hret⟩ := Proc.exists_of_run_bind (serve sqlInt) h
      cases hret
      obtain ⟨rows, hrows, hafter⟩ := run_insertAll_ok (by
        intro q hq
        obtain ⟨e, _, rfl⟩ := List.mem_map.mp hq
        rfl) hrun
      have hentries := (List.forall₂_and_left _ _).mpr
        ⟨fun e he => index_lt he, List.forall₂_map_left_iff.mp hrows⟩
      refine ⟨⟨t, sw, s, n, rows, t', hnum, hnext, hentries.imp ?_, hafter⟩, rfl, rfl, rfl, rfl⟩
      intro e r her
      obtain ⟨hnumber, hlist, hport, hindex, hperiod, hgates⟩ := rowOf_request her.2
      rw [hnum] at hnumber
      refine ⟨(Option.some.inj hnumber).symm, hlist, ?_⟩
      unfold Row.shown printed
      rw [hport, hindex, hperiod, hgates, Int32.toInt_ofNat_of_lt (by have := her.1; omega)]
    · simp only [hundef, Proc.halt_bind] at h
      exact absurd (congrArg Prod.fst h) (by simp [Proc.run])
  · exact absurd hr (by simp [rowOf])

theorem history_of_run {switches : List Switx} : ∀ {t t' : Info} {ns : List Int32},
    (insertConfigInDB switches).run (serve sqlInt) t = (.ok ns, t') →
    ∃ vs, History sqlInt t vs t' ∧ vs.map (·.sw) = switches ∧ vs.map (·.list) = ns := by
  induction switches with
  | nil =>
    intro t t' ns h
    cases h
    exact ⟨[], rfl, rfl, rfl⟩
  | cons sw rest ih =>
    intro t t' ns h
    obtain ⟨n, t₁, hsw, h⟩ := Proc.exists_of_run_bind (serve sqlInt) h
    obtain ⟨ms, t₂, hrest, h⟩ := Proc.exists_of_run_bind (serve sqlInt) h
    cases h
    obtain ⟨v, hbefore, hvsw, hvlist, hvafter⟩ := exists_version hsw
    obtain ⟨vs, hvs, hsws, hlists⟩ := ih hrest
    refine ⟨v :: vs, ⟨hbefore, hvafter ▸ hvs⟩, ?_, ?_⟩
    · rw [List.map_cons, hvsw, hsws]
    · rw [List.map_cons, hvlist, hlists]

variable (sqlInt) in
/-- Calls one after the other, until one exits. -/
def storeCalls : List (List Switx) → Info → Except Halt (List Int32) × Info
  | [], t => (.ok [], t)
  | call :: calls, t =>
    match (insertConfigInDB call).run (serve sqlInt) t with
    | (.error e, t') => (.error e, t')
    | (.ok ns, t') =>
      match storeCalls calls t' with
      | (.error e, t'') => (.error e, t'')
      | (.ok ms, t'') => (.ok (ns ++ ms), t'')

theorem history_of_storeCalls {calls : List (List Switx)} : ∀ {t t' : Info} {ns : List Int32},
    storeCalls sqlInt calls t = (.ok ns, t') →
    ∃ vs, History sqlInt t vs t' ∧ vs.map (·.sw) = calls.flatten ∧ vs.map (·.list) = ns := by
  induction calls with
  | nil =>
    intro t t' ns h
    cases h
    exact ⟨[], rfl, rfl, rfl⟩
  | cons call calls ih =>
    intro t t' ns h
    unfold storeCalls at h
    cases hcall : (insertConfigInDB call).run (serve sqlInt) t with
    | mk result t₁ =>
      rw [hcall] at h
      cases result with
      | error e => exact absurd (congrArg Prod.fst h) (by simp)
      | ok ns₁ =>
        cases hcalls : storeCalls sqlInt calls t₁ with
        | mk result t₂ =>
          simp only [hcalls] at h
          cases result with
          | error e => exact absurd (congrArg Prod.fst h) (by simp)
          | ok ns₂ =>
            cases h
            obtain ⟨vs, hvs, hsws, hns⟩ := history_of_run hcall
            obtain ⟨ws, hws, hsws', hns'⟩ := ih hcalls
            refine ⟨vs ++ ws, hvs.append hws, ?_, ?_⟩
            · rw [List.map_append, hsws, hsws', List.flatten_cons]
            · rw [List.map_append, hns, hns']

/-! ## What a version keeps -/

theorem Version.mem_rows {v : Version sqlInt} {r : Row} (hr : r ∈ v.rows) :
    r.switchNumber.toInt = v.number ∧ r.listNumber = v.list := by
  have h := v.rows_eq
  generalize v.sw.entries = es, v.rows = rows at h hr
  induction h with
  | nil => exact absurd hr (by simp)
  | cons her _ ih =>
    rcases List.mem_cons.mp hr with rfl | hr
    · exact ⟨her.1, her.2.1⟩
    · exact ih hr

theorem Version.shown_rows (v : Version sqlInt) :
    v.rows.map Row.shown = v.sw.entries.map printed := by
  have h := v.rows_eq
  generalize v.sw.entries = es, v.rows = rows at h ⊢
  induction h with
  | nil => rfl
  | cons her _ ih => rw [List.map_cons, List.map_cons, her.2.2, ih]

theorem Version.rows_eq_nil_iff (v : Version sqlInt) : v.rows = [] ↔ v.sw.entries = [] := by
  have h := congrArg List.length v.shown_rows
  rw [List.length_map, List.length_map] at h
  rw [← List.length_eq_zero_iff, ← List.length_eq_zero_iff, h]

/-- A version adds to its own switch only. -/
theorem Version.ofSwitch_after (v : Version sqlInt) (s : Int) : v.after.ofSwitch s =
    v.before.ofSwitch s ++ if v.number = s then v.rows else [] := by
  unfold Info.ofSwitch
  rw [v.after_eq, List.filter_append]
  congr 1
  split
  · rename_i hs
    apply List.filter_eq_self.mpr
    intro r hr
    exact decide_eq_true ((Version.mem_rows hr).1.trans hs)
  · rename_i hs
    apply List.filter_eq_nil_iff.mpr
    intro r hr hdec
    exact hs ((Version.mem_rows hr).1.symm.trans (of_decide_eq_true hdec))

/-- … and under its own list number only. -/
theorem Version.ofList_after (v : Version sqlInt) (s : Int) (n : Int32) : v.after.ofList s n =
    v.before.ofList s n ++ if v.number = s ∧ v.list = n then v.rows else [] := by
  unfold Info.ofList
  rw [v.ofSwitch_after, List.filter_append]
  congr 1
  by_cases hs : v.number = s
  · rw [if_pos hs]
    split
    · rename_i hn
      apply List.filter_eq_self.mpr
      intro r hr
      exact decide_eq_true ((Version.mem_rows hr).2.trans hn.2)
    · rename_i hn
      apply List.filter_eq_nil_iff.mpr
      intro r hr hdec
      exact hn ⟨hs, (Version.mem_rows hr).2.symm.trans (of_decide_eq_true hdec)⟩
  · rw [if_neg hs, if_neg fun h => hs h.1]
    rfl

theorem IsNext.ofList_eq_nil {t : Info} {s : Int} {n : Int32} (h : IsNext t s n) :
    t.ofList s n = [] := by
  apply List.filter_eq_nil_iff.mpr
  intro r hr hdec
  have hlt := h.lt r hr
  rw [of_decide_eq_true hdec] at hlt
  omega

/-! ## What a run keeps -/

/-- No row is changed or removed. -/
theorem History.rows_prefix {vs : List (Version sqlInt)} : ∀ {t t' : Info},
    History sqlInt t vs t' → t.rows <+: t'.rows := by
  induction vs with
  | nil =>
    intro t t' h
    cases h
    exact List.prefix_rfl
  | cons v vs ih =>
    intro t t' h
    obtain ⟨rfl, h⟩ := h
    refine List.IsPrefix.trans ?_ (ih h)
    rw [v.after_eq]
    exact List.prefix_append _ _

theorem History.split {v : Version sqlInt} {pre post : List (Version sqlInt)} : ∀ {t t' : Info},
    History sqlInt t (pre ++ v :: post) t' →
    History sqlInt t pre v.before ∧ History sqlInt v.after post t' := by
  induction pre with
  | nil =>
    intro t t' h
    exact ⟨h.1.symm, h.2⟩
  | cons w pre ih =>
    intro t t' h
    obtain ⟨hpre, hpost⟩ := ih h.2
    exact ⟨⟨h.1, hpre⟩, hpost⟩

/-- A list number that is in use is not given again, so its list stays as it is. -/
theorem History.ofList_of_used {vs : List (Version sqlInt)} {s : Int} {n : Int32} :
    ∀ {t t' : Info}, History sqlInt t vs t' → (∃ r ∈ t.ofSwitch s, r.listNumber = n) →
    t'.ofList s n = t.ofList s n := by
  induction vs with
  | nil =>
    intro t t' h _
    cases h
    rfl
  | cons v vs ih =>
    intro t t' h hused
    obtain ⟨rfl, h⟩ := h
    obtain ⟨r, hr, hrn⟩ := hused
    have hother : ¬ (v.number = s ∧ v.list = n) := by
      intro heq
      obtain ⟨rfl, rfl⟩ := heq
      have hlt := v.next.lt r hr
      rw [hrn] at hlt
      omega
    have hstill : r ∈ v.after.ofSwitch s := by
      rw [v.ofSwitch_after]
      exact List.mem_append_left _ hr
    rw [ih h ⟨r, hstill, hrn⟩, v.ofList_after, if_neg hother, List.append_nil]

/-- A list is not touched while nothing is stored for its switch. -/
theorem History.ofList_of_idle {vs : List (Version sqlInt)} {s : Int} {n : Int32} :
    ∀ {t t' : Info}, History sqlInt t vs t' → (∀ w ∈ vs, w.number = s → w.rows = []) →
    t'.ofList s n = t.ofList s n := by
  induction vs with
  | nil =>
    intro t t' h _
    cases h
    rfl
  | cons v vs ih =>
    intro t t' h hidle
    obtain ⟨rfl, h⟩ := h
    rw [ih h fun w hw => hidle w (List.mem_cons_of_mem v hw), v.ofList_after]
    split
    · rename_i hv
      rw [hidle v List.mem_cons_self hv.1, List.append_nil]
    · rw [List.append_nil]

/-- While the next list number stays unused, nothing is stored for the switch. -/
theorem History.idle_of_unused {vs : List (Version sqlInt)} {s : Int} {n : Int32} :
    ∀ {t t' : Info}, History sqlInt t vs t' → IsNext t s n → t'.ofList s n = [] →
    ∀ w ∈ vs, w.number = s → w.rows = [] := by
  induction vs with
  | nil => intro t t' _ _ _ w hw; exact absurd hw (by simp)
  | cons v vs ih =>
    intro t t' h hnext hunused
    obtain ⟨rfl, h⟩ := h
    -- the first version either is for another switch or gets the number in question
    have hv : v.number = s → v.rows = [] := by
      intro hs
      have hlist : v.list = n := by
        have hn := v.next
        rw [hs] at hn
        exact hn.unique rfl hnext
      apply List.eq_nil_iff_forall_not_mem.mpr
      intro r hr
      have hin : r ∈ t'.rows := h.rows_prefix.subset (by
        rw [v.after_eq]
        exact List.mem_append_right _ hr)
      have hmem : r ∈ t'.ofList s n := by
        obtain ⟨hnumber, hlist'⟩ := Version.mem_rows hr
        exact List.mem_filter.mpr ⟨Info.mem_ofSwitch.mpr ⟨hin, hnumber.trans hs⟩,
          decide_eq_true (hlist'.trans hlist)⟩
      rw [hunused] at hmem
      exact absurd hmem (by simp)
    have hsame : v.after.ofSwitch s = v.before.ofSwitch s := by
      rw [v.ofSwitch_after]
      split
      · rename_i hs
        rw [hv hs, List.append_nil]
      · exact List.append_nil _
    have hnext' : IsNext v.after s n := by
      unfold IsNext at hnext ⊢
      rw [hsame]
      exact hnext
    intro w hw hs
    rcases List.mem_cons.mp hw with rfl | hw
    · exact hv hs
    · exact ih h hnext' hunused w hw hs

/-! ## Reading back -/

/-- What `Select_args` prints. -/
def Info.readBack (t : Info) (s : Int) (n : Int32) : List (Int32 × Int × Int × Int32) :=
  (t.selectArgs s n).map fun c => (c.1, c.2.1.toInt, c.2.2.1.toInt, c.2.2.2)

/-- In the loops of the program the indices of a port increase, unless two ports have the same
number and both have entries. -/
theorem entries_ordered (sw : Switx)
    (hkeys : sw.entries.Pairwise fun e e' => ¬ (e.1 = e'.1 ∧ e.2.1 = e'.2.1)) :
    sw.entries.Pairwise fun e e' => e.1 = e'.1 → e.2.1 ≤ e'.2.1 := by
  unfold Switx.entries at hkeys ⊢
  rw [List.pairwise_flatMap] at hkeys ⊢
  refine ⟨?_, ?_⟩
  · intro port _
    rw [List.pairwise_map]
    have hindices : (port.entries.zipIdx.map Prod.snd).Pairwise (· < ·) := by
      rw [List.zipIdx_map_snd]
      exact List.pairwise_lt_range'
    rw [List.pairwise_map] at hindices
    apply hindices.imp
    intro a b hlt _
    exact Nat.le_of_lt hlt
  · apply hkeys.2.imp
    intro port port' hdisjoint x hx y hy hxy
    obtain ⟨a, ha, rfl⟩ := List.mem_map.mp hx
    obtain ⟨b, hb, rfl⟩ := List.mem_map.mp hy
    -- both have an entry with index 0
    have hzero : ∀ (es : List Entry) (c : Entry × Nat), c ∈ es.zipIdx →
        ∃ e, (e, 0) ∈ es.zipIdx := by
      intro es c hc
      cases es with
      | nil => exact absurd hc (by simp)
      | cons e es => exact ⟨e, by rw [List.zipIdx_cons]; exact List.mem_cons_self⟩
    obtain ⟨e, he⟩ := hzero _ a ha
    obtain ⟨e', he'⟩ := hzero _ b hb
    exact absurd ⟨hxy, rfl⟩ (hdisjoint _ (List.mem_map_of_mem he) _ (List.mem_map_of_mem he'))

theorem Version.rows_ordered (v : Version sqlInt) : v.rows.Pairwise fun a b =>
    a.portNumber = b.portNumber → a.index.toInt ≤ b.index.toInt := by
  have hnodup : (v.rows.map Row.key).Nodup := by
    have hall := v.after.nodup
    rw [v.after_eq, List.map_append] at hall
    exact (List.nodup_append.mp hall).2.1
  have hkeys : v.rows.Pairwise fun a b =>
      ¬ (a.shown.1 = b.shown.1 ∧ a.shown.2.1 = b.shown.2.1) := by
    apply (List.pairwise_map.mp hnodup).imp_of_mem
    intro a b ha hb hne heq
    obtain ⟨hsa, hla⟩ := Version.mem_rows ha
    obtain ⟨hsb, hlb⟩ := Version.mem_rows hb
    apply hne
    have hport : a.portNumber = b.portNumber := heq.1
    have hindex : a.index.toInt = b.index.toInt := heq.2
    unfold Row.key
    rw [Int32.toInt_inj.mp (hsa.trans hsb.symm), hla, hlb, hport, Int32.toInt_inj.mp hindex]
  have hentries : v.sw.entries.Pairwise fun e e' => ¬ (e.1 = e'.1 ∧ e.2.1 = e'.2.1) := by
    rw [← List.pairwise_map (f := Row.shown)
      (R := fun x y => ¬ (x.1 = y.1 ∧ x.2.1 = y.2.1)), v.shown_rows, List.pairwise_map] at hkeys
    apply hkeys.imp
    intro e e' hne heq
    exact hne ⟨heq.1, congrArg Int.ofNat heq.2⟩
  have hordered : (v.sw.entries.map printed).Pairwise fun x y => x.1 = y.1 → x.2.1 ≤ y.2.1 := by
    rw [List.pairwise_map]
    apply (entries_ordered v.sw hentries).imp
    intro e e' hle heq
    exact Int.ofNat_le.mpr (hle heq)
  rw [← v.shown_rows, List.pairwise_map] at hordered
  exact hordered

theorem filter_readBack {t : Info} {s : Int} {n : Int32}
    (h : (t.ofList s n).Pairwise fun a b => a.portNumber = b.portNumber →
      a.index.toInt ≤ b.index.toInt) (p : Int32) :
    (t.readBack s n).filter (·.1 = p) = ((t.ofList s n).map Row.shown).filter (·.1 = p) := by
  unfold Info.readBack
  rw [List.filter_map, List.filter_map]
  have hselect := Info.filter_selectArgs h p
  show ((t.selectArgs s n).filter (·.1 = p)).map _ =
    ((t.ofList s n).filter (·.portNumber = p)).map _
  rw [hselect, List.map_map]
  rfl

/-! ## Exact versions -/

/-- The rows of the version are its entries, and `Select_args` shows every port's in order. -/
def Exact (t : Info) (v : Version sqlInt) : Prop :=
  (t.ofList v.number v.list).map Row.shown = v.sw.entries.map configured ∧
  ∀ p, (t.readBack v.number v.list).filter (·.1 = p) =
    (v.sw.entries.map configured).filter (·.1 = p)

variable (sqlInt) in
/-- Every period is positive as a `long`, and a switch without entries is not followed by one of the
same number that has some. -/
def Storable (switches : List Switx) : Prop :=
  (∀ sw ∈ switches, ∀ e ∈ sw.entries, e.2.2.Signed) ∧
  switches.Pairwise fun a b => a.entries = [] → sqlInt a.number = sqlInt b.number → b.entries = []

theorem Version.ofList_after_self (v : Version sqlInt) :
    v.after.ofList v.number v.list = v.rows := by
  rw [v.ofList_after, v.next.ofList_eq_nil, if_pos ⟨rfl, rfl⟩]
  rfl

theorem signed_of_exact {t' : Info} {v : Version sqlInt} {post : List (Version sqlInt)}
    (h : History sqlInt v.after post t') (hexact : Exact t' v) :
    ∀ e ∈ v.sw.entries, e.2.2.Signed := by
  have hpre : v.rows <+: t'.ofList v.number v.list := by
    have hfilter := (h.rows_prefix.filter (·.switchNumber.toInt = v.number)).filter
      (·.listNumber = v.list)
    have hself := v.ofList_after_self
    unfold Info.ofList Info.ofSwitch at hself ⊢
    rwa [hself] at hfilter
  have hlength : v.rows.length = (t'.ofList v.number v.list).length := by
    have h₁ := congrArg List.length v.shown_rows
    have h₂ := congrArg List.length hexact.1
    rw [List.length_map, List.length_map] at h₁ h₂
    rw [h₁, h₂]
  rw [← printed_eq_iff, ← v.shown_rows, hpre.eq_of_length hlength]
  exact hexact.1

theorem idle_of_exact {t' : Info} {v : Version sqlInt} {post : List (Version sqlInt)}
    (h : History sqlInt v.after post t') (hexact : Exact t' v) (hempty : v.sw.entries = []) :
    ∀ w ∈ post, w.number = v.number → w.rows = [] := by
  have hrows : v.rows = [] := v.rows_eq_nil_iff.mpr hempty
  have hunused : t'.ofList v.number v.list = [] := by
    have hshown := hexact.1
    rw [hempty, List.map_nil] at hshown
    exact List.map_eq_nil_iff.mp hshown
  have hnext : IsNext v.after v.number v.list := by
    have hsame := v.ofSwitch_after v.number
    rw [if_pos rfl, hrows, List.append_nil] at hsame
    have hn := v.next
    unfold IsNext at hn ⊢
    rwa [hsame]
  exact h.idle_of_unused hnext hunused

theorem ofList_of_storable {t' : Info} {v : Version sqlInt} {post : List (Version sqlInt)}
    (h : History sqlInt v.after post t')
    (hidle : v.sw.entries = [] → ∀ w ∈ post, w.number = v.number → w.rows = []) :
    t'.ofList v.number v.list = v.rows := by
  rw [← v.ofList_after_self]
  cases hrows : v.rows with
  | nil => exact h.ofList_of_idle (hidle (v.rows_eq_nil_iff.mp hrows))
  | cons r rows =>
    have hr : r ∈ v.rows := by
      rw [hrows]
      exact List.mem_cons_self
    apply h.ofList_of_used
    refine ⟨r, ?_, (Version.mem_rows hr).2⟩
    rw [v.ofSwitch_after, if_pos rfl]
    exact List.mem_append_right _ hr

/-- A version is exact as long as its list has its rows and nothing else. -/
theorem exact_of_rows {t : Info} {v : Version sqlInt} (hrows : t.ofList v.number v.list = v.rows)
    (hsigned : ∀ e ∈ v.sw.entries, e.2.2.Signed) : Exact t v := by
  have hshown : (t.ofList v.number v.list).map Row.shown = v.sw.entries.map configured := by
    rw [hrows, v.shown_rows, printed_eq_iff]
    exact hsigned
  refine ⟨hshown, ?_⟩
  intro p
  rw [filter_readBack (hrows ▸ v.rows_ordered), hshown]

/-- Right after its own store only the periods matter. -/
theorem Version.exact_after_iff (v : Version sqlInt) :
    Exact v.after v ↔ ∀ e ∈ v.sw.entries, e.2.2.Signed := by
  constructor
  · have hnothing : History sqlInt v.after [] v.after := rfl
    exact signed_of_exact hnothing
  · exact exact_of_rows v.ofList_after_self

theorem number_eq_iff (v w : Version sqlInt) :
    sqlInt v.sw.number = sqlInt w.sw.number ↔ w.number = v.number := by
  rw [v.number_eq, w.number_eq, Option.some.injEq, eq_comm]

/-- A history ends with all its versions exact just in case its switches are storable. -/
theorem History.exact_iff {vs : List (Version sqlInt)} {t t' : Info} (h : History sqlInt t vs t') :
    (∀ v ∈ vs, Exact t' v) ↔ Storable sqlInt (vs.map (·.sw)) := by
  unfold Storable
  rw [List.pairwise_map, List.forall_mem_map]
  constructor
  · intro hexact
    refine ⟨?_, ?_⟩
    · intro v hv
      obtain ⟨pre, post, rfl⟩ := List.append_of_mem hv
      exact signed_of_exact h.split.2 (hexact v hv)
    · induction vs generalizing t with
      | nil => exact .nil
      | cons v vs ih =>
        refine .cons ?_ (ih h.2 fun w hw => hexact w (List.mem_cons_of_mem v hw))
        intro w hw hempty hnumber
        have hidle := idle_of_exact h.2 (hexact v List.mem_cons_self) hempty
        exact w.rows_eq_nil_iff.mp (hidle w hw ((number_eq_iff v w).mp hnumber))
  · intro hstorable v hv
    obtain ⟨hsigned, hreuse⟩ := hstorable
    obtain ⟨pre, post, rfl⟩ := List.append_of_mem hv
    have hlater := (List.pairwise_cons.mp (List.pairwise_append.mp hreuse).2.1).1
    apply exact_of_rows _ (hsigned v hv)
    apply ofList_of_storable h.split.2
    intro hempty w hw hnumber
    exact w.rows_eq_nil_iff.mpr (hlater w hw hempty ((number_eq_iff v w).mpr hnumber))

/-- **A sequence of successful stores.** Every switch gets the next list number of its own, and no
row is lost. All versions are exact when they are stored just in case the periods are positive as
`long`s, and still are at the end just in case the configurations were storable. -/
theorem storeCalls_versions (sqlInt : Text → Option Int) {calls : List (List Switx)} {t t' : Info}
    {ns : List Int32} (h : storeCalls sqlInt calls t = (.ok ns, t')) :
    ∃ vs : List (Version sqlInt), vs.map (·.sw) = calls.flatten ∧ vs.map (·.list) = ns ∧
      History sqlInt t vs t' ∧ (∀ v ∈ vs, IsNext v.before v.number v.list) ∧
      t.rows <+: t'.rows ∧
      ((∀ v ∈ vs, Exact v.after v) ↔
        ∀ sw ∈ calls.flatten, ∀ e ∈ sw.entries, e.2.2.Signed) ∧
      ((∀ v ∈ vs, Exact t' v) ↔ Storable sqlInt calls.flatten) := by
  obtain ⟨vs, hvs, hsws, hns⟩ := history_of_storeCalls h
  refine ⟨vs, hsws, hns, hvs, fun v _ => v.next, hvs.rows_prefix, ?_, ?_⟩
  · rw [← hsws, List.forall_mem_map]
    exact forall₂_congr fun v _ => v.exact_after_iff
  · rw [hvs.exact_iff, hsws]

/-- A switch with one entry of a given period. -/
def onePeriod (period : UInt64) : Switx where
  number := "64".toList
  ports := [⟨1, [⟨period, 3⟩], by simp⟩]

/-- The same switch, twice in one call and once more in a second. -/
theorem storeCalls_versions_repeated : ∃ vs : List (Version decimal),
    vs.map (·.list) = [1, 2, 3] ∧ (∀ v ∈ vs, IsNext v.before v.number v.list) ∧
    ((∀ v ∈ vs, Exact
      (storeCalls decimal [[onePeriod 10, onePeriod 20], [onePeriod 10]] .empty).2 v) ↔
      Storable decimal [onePeriod 10, onePeriod 20, onePeriod 10]) := by
  have h : storeCalls decimal [[onePeriod 10, onePeriod 20], [onePeriod 10]] .empty =
      (.ok [1, 2, 3],
        (storeCalls decimal [[onePeriod 10, onePeriod 20], [onePeriod 10]] .empty).2) :=
    Prod.ext (by decide +kernel) rfl
  obtain ⟨vs, _, hns, _, hnext, _, _, hexact⟩ := storeCalls_versions decimal h
  exact ⟨vs, hns, hnext, hexact⟩

/-- A period of `2 ^ 64 - 5` is accepted, and stored as `-5`. -/
theorem storeCalls_negative :
    (storeCalls decimal [[onePeriod 0xfffffffffffffffb]] .empty).1 = .ok [1] ∧
    ((storeCalls decimal [[onePeriod 0xfffffffffffffffb]] .empty).2.ofList 64 1).map Row.shown ≠
      (onePeriod 0xfffffffffffffffb).entries.map configured := by
  decide +kernel

end Versions

end Store
end TsnController

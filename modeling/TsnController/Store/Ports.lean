import TsnController.Lib.Writers
import TsnController.Store.Interleave

/-!
# Ports of interleaved stores

Two runs of `InsertConfigInDB` can be given the same list number (`Interleave`), and a run can exit
in the middle of its statements. Neither ever mixes the entries of one port: the first entry of a
port has index `0`, and the primary key lets only one run insert it. In every interleaving, with any
number of runs, what the table holds of a port under a list number is the beginning of what *one*
run has for one port of one switch. Lists are merged port by port, or not at all.

The list numbers of a switch have no gaps either: a number is given out only if the one before it is
in use already.
-/

set_option autoImplicit false

namespace TsnController
namespace Store

open CLib Lib

/-- The switch, the list and the port of a row. -/
def Row.place (r : Row) : Int × Int32 × Int32 :=
  (r.switchNumber.toInt, r.listNumber, r.portNumber)

/-- The rows of one port of a list. -/
def Info.ofPort (t : Info) (s : Int) (n p : Int32) : List Row := ofGroup Row.place t.rows (s, n, p)

/-- The INSERTs for a port. -/
def portRequests (sw : Switx) (n : Int32) (port : Port) : List Statement :=
  port.entries.zipIdx.map fun e => request sw n (port.number, e.2, e.1)

theorem requests_eq (sw : Switx) (n : Int32) :
    requests sw n = (sw.ports.map (portRequests sw n)).flatten := by
  unfold requests Switx.entries portRequests
  rw [List.map_flatMap, List.flatMap_def]
  simp only [List.map_map, Function.comp_def]

theorem eq_of_key {r r' : Row} (hplace : r.place = r'.place) (hindex : r.index = r'.index) :
    r.key = r'.key := by
  obtain ⟨hs, hrest⟩ := Prod.mk.inj hplace
  obtain ⟨hn, hp⟩ := Prod.mk.inj hrest
  unfold Row.key
  rw [Int32.toInt_inj.mp hs, hn, hp, hindex]

theorem Info.key_of_add {t t' : Info} {r : Row} (h : t.add r = some t') :
    ∀ r' ∈ t.rows, r'.key ≠ r.key := by
  intro r' hr' heq
  unfold Info.add at h
  rw [dif_pos (heq ▸ List.mem_map_of_mem hr')] at h
  exact absurd h (by simp)

section Ports

variable (sqlInt : Text → Option Int) {ι : Type} (switches : ι → List Switx)

/-- What a run has for one of its ports, under a list number. -/
def IsPortBlock (g : Int × Int32 × Int32) (b : List Statement) : Prop :=
  ∃ i, ∃ sw ∈ switches i, ∃ port ∈ sw.ports,
    sqlInt sw.number = some g.1 ∧ port.number = g.2.2 ∧ b = portRequests sw g.2.1 port

variable {sqlInt switches}

theorem IsPortBlock.place {g : Int × Int32 × Int32} {b : List Statement}
    (h : IsPortBlock sqlInt switches g b) {q : Statement} (hq : q ∈ b) {r : Row}
    (hr : rowOf sqlInt q = some r) : r.place = g := by
  obtain ⟨i, sw, _, port, _, hnumber, hport, rfl⟩ := h
  obtain ⟨e, _, rfl⟩ := List.mem_map.mp hq
  obtain ⟨hs, hn, hp, _⟩ := rowOf_request hr
  rw [hnumber] at hs
  unfold Row.place
  rw [← Option.some.inj hs, hn, hp, hport]

/-- The first entry of a port has index `0`. -/
theorem IsPortBlock.index {g : Int × Int32 × Int32} {q : Statement} {b : List Statement}
    (h : IsPortBlock sqlInt switches g (q :: b)) {r : Row} (hr : rowOf sqlInt q = some r) :
    r.index = 0 := by
  obtain ⟨i, sw, _, port, _, _, _, hb⟩ := h
  unfold portRequests at hb
  cases hentries : port.entries with
  | nil =>
    rw [hentries] at hb
    exact absurd hb (by simp)
  | cons e es =>
    rw [hentries, List.zipIdx_cons, List.map_cons, List.cons.injEq] at hb
    rw [hb.1] at hr
    exact (rowOf_request hr).2.2.2.1

variable (sqlInt switches)

/-- What is ahead of a run: the rest of its block, and then whole blocks. -/
def Placed (init : Info) (w : Runs ι) (i : ι) (ahead : List Statement) : Prop :=
  ∃ (blocks : List (List Statement)) (rest : List Switx),
    Left (w.procs i) (ahead ++ blocks.flatten) rest ∧
    (∀ b ∈ blocks, ∃ g, IsPortBlock sqlInt switches g b ∧ ofGroup Row.place init.rows g = []) ∧
    ∀ sw ∈ rest, sw ∈ switches i

/-- The rest of the block a run is in, if it is in one. -/
def aheadOf : Option (BlockCursor (Int × Int32 × Int32) Statement) → List Statement
  | none => []
  | some c => c.ahead

structure Unmixed (init : Info) (w : Runs ι)
    (cursor : ι → Option (BlockCursor (Int × Int32 × Int32) Statement)) : Prop where
  guarded : Guarded Row.place (rowOf sqlInt) (IsPortBlock sqlInt switches) init.rows w.state.rows
    cursor
  placed : ∀ i, Placed sqlInt switches init w i (aheadOf (cursor i))

theorem unmixed_start (t : Info) : Unmixed sqlInt switches t
    (World.start (fun i => insertConfigInDB (switches i)) t) fun _ => none where
  guarded := guarded_start t.rows
  placed i := ⟨[], switches i, left_start (switches i), fun _ hb => absurd hb List.not_mem_nil,
    fun _ hsw => hsw⟩

variable {sqlInt switches} {init : Info} {w w' : Runs ι}
  {cursor : ι → Option (BlockCursor (Int × Int32 × Int32) Statement)} {i : ι} {q : Statement}
  {a : Answer} {p : Program (List Int32)} {t : Info}

theorem Unmixed.init_eq_nil (h : Unmixed sqlInt switches init w cursor)
    {g : Int × Int32 × Int32} (hnil : ofGroup Row.place w.state.rows g = []) :
    ofGroup Row.place init.rows g = [] := by
  rcases h.guarded.groups g with heq | ⟨hinit, _⟩
  · rw [← heq, hnil]
  · exact hinit

/-- A run has nothing but INSERTs ahead for its switch. -/
theorem Unmixed.isInsert (h : Unmixed sqlInt switches init w cursor)
    {blocks : List (List Statement)}
    (hblocks : ∀ b ∈ blocks, ∃ g, IsPortBlock sqlInt switches g b ∧
      ofGroup Row.place init.rows g = [])
    (hq : q ∈ aheadOf (cursor i) ++ blocks.flatten) : q.isInsert = true := by
  have hmem : ∀ {g b}, IsPortBlock sqlInt switches g b → q ∈ b → q.isInsert = true := by
    rintro g b ⟨_, sw, _, port, _, _, _, rfl⟩ hq
    obtain ⟨e, _, rfl⟩ := List.mem_map.mp hq
    rfl
  rcases List.mem_append.mp hq with hq | hq
  · cases hcursor : cursor i with
    | none =>
      rw [hcursor] at hq
      exact absurd hq List.not_mem_nil
    | some c =>
      rw [hcursor] at hq
      exact hmem (h.guarded.block i c hcursor).1 (List.mem_append_right _ hq)
  · obtain ⟨b, hb, hq⟩ := List.mem_flatten.mp hq
    obtain ⟨g, hblock, _⟩ := hblocks b hb
    exact hmem hblock hq

/-- Where the first entry of a port is accepted there was none. -/
theorem Unmixed.ofGroup_eq_nil (h : Unmixed sqlInt switches init w cursor)
    {g : Int × Int32 × Int32} {b : List Statement} {r : Row}
    (hblock : IsPortBlock sqlInt switches g (q :: b))
    (hinit : ofGroup Row.place init.rows g = []) (hr : rowOf sqlInt q = some r)
    (hadd : w.state.add r = some t) : ofGroup Row.place w.state.rows g = [] := by
  rcases h.guarded.groups g with heq | ⟨_, b', hblock', hprefix⟩
  · rw [heq, hinit]
  · cases hrows : ofGroup Row.place w.state.rows g with
    | nil => rfl
    | cons r' rows =>
      -- the group begins with a row of index `0`, whose key is that of the new row
      rw [hrows] at hprefix
      cases b' with
      | nil => exact absurd (List.prefix_nil.mp hprefix) (by simp)
      | cons q' b' =>
        have hr' : rowOf sqlInt q' = some r' := (List.cons_prefix_cons.mp hprefix).1.symm
        have hmem : r' ∈ w.state.rows :=
          (List.mem_filter.mp (hrows ▸ List.mem_cons_self : r' ∈ ofGroup _ _ _)).1
        have hplace : r'.place = r.place :=
          (hblock'.place List.mem_cons_self hr').trans (hblock.place List.mem_cons_self hr).symm
        have hindex : r'.index = r.index := (hblock'.index hr').trans (hblock.index hr).symm
        exact absurd (eq_of_key hplace hindex) (Info.key_of_add hadd r' hmem)

variable [DecidableEq ι]

/-- The others do not notice a turn. -/
theorem Unmixed.turn (h : Unmixed sqlInt switches init w cursor)
    (hturn : World.Turn w i q a p t w') {c : Option (BlockCursor (Int × Int32 × Int32) Statement)}
    (hguarded : Guarded Row.place (rowOf sqlInt) (IsPortBlock sqlInt switches) init.rows t.rows
      (Function.update cursor i c))
    (hplaced : Placed sqlInt switches init w' i (aheadOf c)) :
    Unmixed sqlInt switches init w' (Function.update cursor i c) := by
  refine ⟨hturn.state ▸ hguarded, ?_⟩
  intro j
  by_cases hj : j = i
  · subst hj
    rw [Function.update_self]
    exact hplaced
  · obtain ⟨blocks, rest, hleft, hrest⟩ := h.placed j
    rw [Function.update_of_ne hj]
    exact ⟨blocks, rest, (hturn.procs_ne j hj).symm ▸ hleft, hrest⟩

/-- A run that has ended is in no block. -/
theorem Unmixed.halt (h : Unmixed sqlInt switches init w cursor) {e : Halt}
    (hturn : World.Turn w i q a (.halt e) w.state w') :
    Unmixed sqlInt switches init w' (Function.update cursor i none) := by
  refine h.turn hturn (h.guarded.leave i) ⟨[], [], ?_, ?_, ?_⟩
  · rw [hturn.procs_self]
    exact .halted e
  · exact fun b hb => absurd hb List.not_mem_nil
  · exact fun sw hsw => absurd hsw List.not_mem_nil

/-- A list number is new for the switch, and so are all ports under it. -/
theorem ofGroup_eq_nil_of_next {s : Int} {n p : Int32} (hnext : IsNext t s n) :
    ofGroup Row.place t.rows (s, n, p) = [] := by
  apply List.filter_eq_nil_iff.mpr
  intro r hr hplace
  obtain ⟨hs, hrest⟩ := Prod.mk.inj (of_decide_eq_true hplace)
  have hlt := hnext.lt r (Info.mem_ofSwitch.mpr ⟨hr, hs⟩)
  rw [(Prod.mk.inj hrest).1] at hlt
  exact Int.lt_irrefl _ hlt

/-- The answer to a query gives the run a list number. -/
theorem Unmixed.ask (h : Unmixed sqlInt switches init w cursor)
    (hturn : World.Turn w i q a p w.state w') {sw : Switx} {s : Int} {n : Int32}
    {rest : List Switx} (hsw : sw ∈ switches i) (hnumber : sqlInt sw.number = some s)
    (hnext : IsNext w.state s n) (hleft : Left p (requests sw n) rest)
    (hrest : ∀ sw' ∈ rest, sw' ∈ switches i) :
    Unmixed sqlInt switches init w' (Function.update cursor i none) := by
  refine h.turn hturn (h.guarded.leave i) ⟨sw.ports.map (portRequests sw n), rest, ?_, ?_, hrest⟩
  · rw [hturn.procs_self]
    show Left p ([] ++ _) rest
    rw [List.nil_append, ← requests_eq]
    exact hleft
  · intro b hb
    obtain ⟨port, hport, rfl⟩ := List.mem_map.mp hb
    exact ⟨(s, n, port.number), ⟨i, sw, hsw, port, hport, hnumber, rfl, rfl⟩,
      h.init_eq_nil (ofGroup_eq_nil_of_next hnext)⟩

/-- An entry is accepted. -/
theorem Unmixed.insert (h : Unmixed sqlInt switches init w cursor)
    (hturn : World.Turn w i q a p t w') {r : Row} (hr : rowOf sqlInt q = some r)
    (hadd : w.state.add r = some t) {pending : List Statement} {blocks : List (List Statement)}
    {rest : List Switx} (hpending : aheadOf (cursor i) ++ blocks.flatten = q :: pending)
    (hleft : Left p pending rest)
    (hblocks : ∀ b ∈ blocks, ∃ g, IsPortBlock sqlInt switches g b ∧
      ofGroup Row.place init.rows g = [])
    (hrest : ∀ sw ∈ rest, sw ∈ switches i) :
    ∃ cursor', Unmixed sqlInt switches init w' cursor' := by
  have hrows := Info.rows_of_add hadd
  cases hahead : aheadOf (cursor i) with
  | nil =>
    -- the first entry of the next port
    rw [hahead, List.nil_append] at hpending
    obtain ⟨ahead, later, hmem, rfl, hlater⟩ := exists_of_flatten_eq_cons hpending
    obtain ⟨g, hblock, hinit⟩ := hblocks _ hmem
    refine ⟨_, h.turn hturn (c := some ⟨g, [q], ahead⟩) ?_ ⟨later, rest, ?_, ?_, hrest⟩⟩
    · rw [hrows]
      exact h.guarded.begin hr (hblock.place List.mem_cons_self hr)
        (h.ofGroup_eq_nil hblock hinit hr hadd) hblock
    · rw [hturn.procs_self]
      exact hleft
    · exact fun b hb => hblocks b (hlater b hb)
  | cons q' ahead =>
    -- the next entry of the port
    rw [hahead, List.cons_append, List.cons.injEq] at hpending
    obtain ⟨rfl, rfl⟩ := hpending
    cases hcursor : cursor i with
    | none =>
      rw [hcursor] at hahead
      exact absurd hahead (by simp [aheadOf])
    | some c =>
      obtain ⟨g, written, _⟩ := c
      rw [hcursor] at hahead
      cases hahead
      have hblock := (h.guarded.block i _ hcursor).1
      refine ⟨_, h.turn hturn (c := some ⟨g, written ++ [q'], ahead⟩) ?_
        ⟨blocks, rest, ?_, hblocks, hrest⟩⟩
      · rw [hrows]
        exact h.guarded.write hcursor hr
          (hblock.place (List.mem_append_right _ List.mem_cons_self) hr)
      · rw [hturn.procs_self]
        exact hleft

/-- **One turn** of any run. -/
theorem Unmixed.step (h : Unmixed sqlInt switches init w cursor) (i : ι) :
    ∃ cursor', Unmixed sqlInt switches init (World.step (serve sqlInt) w i) cursor' := by
  cases hp : w.procs i with
  | ret ns => exact ⟨cursor, by rwa [step_of_next_eq_none (by rw [hp]; rfl)]⟩
  | halt e => exact ⟨cursor, by rwa [step_of_next_eq_none (by rw [hp]; rfl)]⟩
  | call q k =>
    have hturn := World.turn_of_call (serve sqlInt) hp
    obtain ⟨blocks, rest, hleft, hblocks, hrest⟩ := h.placed i
    rw [hp] at hleft
    rcases serve_cases sqlInt w.state q with hs | ⟨x, s, rfl, hnumber, hs⟩ | ⟨r, t, hr, ht, hs⟩
    · -- refused: the run exits
      have herror : k .error = .halt (.exit 1) := by
        rcases hleft.call_cases with ⟨_, _, he, _⟩ | ⟨_, _, _, _, _, he, _⟩
        · exact he
        · exact he
      rw [hs, herror] at hturn
      exact ⟨_, h.halt hturn⟩
    · rw [hs] at hturn
      rcases hleft.call_cases with ⟨pending, hpending, _, hgo⟩ |
        ⟨sw, rest', _, rfl, hq, _, hgo⟩
      · exact absurd (h.isInsert hblocks (hpending ▸ List.mem_cons_self))
          (by simp [Statement.isInsert])
      · cases hq
        rcases nextListNumber_lists w.state s with ⟨n, hn, hnext⟩ | hover
        · exact ⟨_, h.ask hturn (hrest sw List.mem_cons_self) hnumber hnext ((hgo _).1 n hn)
            fun sw' hsw' => hrest sw' (List.mem_cons_of_mem sw hsw')⟩
        · rw [(hgo _).2 _ hover] at hturn
          exact ⟨_, h.halt hturn⟩
    · rw [hs] at hturn
      rcases hleft.call_cases with ⟨pending, hpending, _, hgo⟩ | ⟨_, _, _, _, rfl, _, _⟩
      · exact h.insert hturn hr ht hpending (hgo .done (by simp)) hblocks hrest
      · exact absurd hr (by simp [rowOf])

end Ports

/-! ## All turns -/

section Turns

variable (sqlInt : Text → Option Int) {ι : Type} [DecidableEq ι] (switches : ι → List Switx)
  (t : Info) (turns : List ι)

/-- The table when the runs have taken these turns. -/
def storedBy : Info :=
  (World.after (serve sqlInt) (World.start (fun i => insertConfigInDB (switches i)) t) turns).state

/-- **Ports are never mixed**, whatever the runs are and in whatever order they take turns. What the
table holds of a port of a list is what it held at the start; or it held nothing at the start, and
holds the first entries that one run has for a port of one of its switches, in their order. -/
theorem ports_never_mixed (s : Int) (n p : Int32) :
    (storedBy sqlInt switches t turns).ofPort s n p = t.ofPort s n p ∨
    (t.ofPort s n p = [] ∧ ∃ i, ∃ sw ∈ switches i, ∃ port ∈ sw.ports,
      sqlInt sw.number = some s ∧ port.number = p ∧
      ((storedBy sqlInt switches t turns).ofPort s n p).map some <+:
        (portRequests sw n port).map (rowOf sqlInt)) := by
  have hstep : ∀ (w : Runs ι) (i : ι), (∃ cursor, Unmixed sqlInt switches t w cursor) → True →
      ∃ cursor, Unmixed sqlInt switches t (World.step (serve sqlInt) w i) cursor := by
    intro w i hw _
    obtain ⟨cursor, hw⟩ := hw
    exact hw.step i
  obtain ⟨cursor, h⟩ := World.invariant (serve sqlInt) hstep turns _
    ⟨_, unmixed_start sqlInt switches t⟩ (World.obeys_true (serve sqlInt) _ turns)
  rcases h.guarded.groups (s, n, p) with heq | ⟨hinit, b, hblock, hprefix⟩
  · exact Or.inl heq
  · obtain ⟨i, sw, hsw, port, hport, hnumber, hp, rfl⟩ := hblock
    exact Or.inr ⟨hinit, i, sw, hsw, port, hport, hnumber, hp, hprefix⟩

end Turns

/-! ## List numbers -/

/-- The row's list is the first one of its switch, or comes behind one that is in the table. -/
def Based (t : Info) (r : Row) : Prop :=
  r.listNumber.toInt = 1 ∨
    ∃ q ∈ t.rows, q.switchNumber = r.switchNumber ∧ q.listNumber.toInt + 1 = r.listNumber.toInt

def Gapless (t : Info) : Prop := ∀ r ∈ t.rows, Based t r

theorem Based.mono {t t' : Info} {r : Row} (h : Based t r) (hrows : ∀ q ∈ t.rows, q ∈ t'.rows) :
    Based t' r := by
  rcases h with hone | ⟨q, hq, hsame, hsucc⟩
  · exact Or.inl hone
  · exact Or.inr ⟨q, hrows q hq, hsame, hsucc⟩

namespace Gapless

variable {t : Info}

/-- By descent: below a list number that is not `1` there is a smaller one. -/
theorem one_le (h : Gapless t) : ∀ (k : Nat) {r : Row}, r ∈ t.rows →
    r.listNumber.toInt + 0x80000000 ≤ k → 1 ≤ r.listNumber.toInt := by
  intro k
  induction k with
  | zero =>
    intro r hr hk
    have hge := r.listNumber.le_toInt
    rcases h r hr with hone | ⟨q, _, _, hsucc⟩
    · exact Int.le_of_eq hone.symm
    · have hge' := q.listNumber.le_toInt
      omega
  | succ k ih =>
    intro r hr hk
    rcases h r hr with hone | ⟨q, hq, _, hsucc⟩
    · exact Int.le_of_eq hone.symm
    · have hle := ih hq (by omega)
      omega

/-- Below a list number all are in use. -/
theorem exists_below (h : Gapless t) : ∀ (k : Nat) {r : Row} {m : Int}, r ∈ t.rows → 1 ≤ m →
    r.listNumber.toInt = m + k →
    ∃ q ∈ t.rows, q.switchNumber = r.switchNumber ∧ q.listNumber.toInt = m := by
  intro k
  induction k with
  | zero =>
    intro r m hr _ heq
    exact ⟨r, hr, rfl, by omega⟩
  | succ k ih =>
    intro r m hr hm heq
    rcases h r hr with hone | ⟨q, hq, hsame, hsucc⟩
    · omega
    · obtain ⟨q', hq', hsame', hlist⟩ := ih hq hm (by omega)
      exact ⟨q', hq', hsame'.trans hsame, hlist⟩

/-- The list numbers of a switch are those up to the greatest. -/
theorem lists_eq (h : Gapless t) (s : Int) :
    ∃ k : Nat, ∀ m : Int, (∃ n ∈ t.lists s, n.toInt = m) ↔ 1 ≤ m ∧ m ≤ k := by
  have hmem : ∀ m : Int, (∃ n ∈ t.lists s, n.toInt = m) ↔
      ∃ r ∈ t.rows, r.switchNumber.toInt = s ∧ r.listNumber.toInt = m := by
    intro m
    constructor
    · rintro ⟨n, hn, rfl⟩
      obtain ⟨r, hr, rfl⟩ := Info.mem_lists.mp hn
      obtain ⟨hr, hs⟩ := Info.mem_ofSwitch.mp hr
      exact ⟨r, hr, hs, rfl⟩
    · rintro ⟨r, hr, hs, rfl⟩
      exact ⟨r.listNumber, Info.mem_lists.mpr ⟨r, Info.mem_ofSwitch.mpr ⟨hr, hs⟩, rfl⟩, rfl⟩
  have hpos : ∀ r ∈ t.rows, 1 ≤ r.listNumber.toInt := by
    intro r hr
    have hge := r.listNumber.le_toInt
    exact h.one_le (r.listNumber.toInt + 0x80000000).toNat hr (by omega)
  cases hlists : t.lists s with
  | nil =>
    refine ⟨0, fun m => ⟨?_, fun hm => by omega⟩⟩
    rintro ⟨n, hn, _⟩
    exact absurd hn List.not_mem_nil
  | cons top rest =>
    obtain ⟨r, hr, hs, htop⟩ := (hmem top.toInt).mp ⟨top, hlists ▸ List.mem_cons_self, rfl⟩
    have hone := hpos r hr
    refine ⟨top.toInt.toNat, fun m => ?_⟩
    rw [← hlists, hmem]
    constructor
    · rintro ⟨r', hr', hs', rfl⟩
      have hle := Info.le_of_lists_eq_cons hlists r' (Info.mem_ofSwitch.mpr ⟨hr', hs'⟩)
      have hone' := hpos r' hr'
      omega
    · rintro ⟨hm, hle⟩
      obtain ⟨q, hq, hsame, hlist⟩ :=
        h.exists_below (top.toInt - m).toNat hr hm (by omega)
      exact ⟨q, hq, by rw [hsame, hs], hlist⟩

end Gapless

section Gaps

variable (sqlInt : Text → Option Int) {ι : Type}

/-- No gap in the table, and none from what the runs are about to insert. -/
structure NoGap (w : Runs ι) : Prop where
  table : Gapless w.state
  ahead : ∀ i, ∃ pending rest, Left (w.procs i) pending rest ∧
    ∀ q ∈ pending, ∀ r, rowOf sqlInt q = some r → Based w.state r

variable {sqlInt} [DecidableEq ι] {w : Runs ι}

theorem based_of_next {t : Info} {s : Int} {sw : Switx} {n : Int32} (hnext : IsNext t s n)
    (hnumber : sqlInt sw.number = some s) {q : Statement} (hq : q ∈ requests sw n) {r : Row}
    (hr : rowOf sqlInt q = some r) : Based t r := by
  obtain ⟨e, _, rfl⟩ := List.mem_map.mp hq
  obtain ⟨hs, hn, _⟩ := rowOf_request hr
  rw [hnumber] at hs
  rcases hnext with ⟨_, hone⟩ | ⟨q, hq, _, hsucc⟩
  · refine Or.inl ?_
    rw [hn, hone]
    rfl
  · obtain ⟨hq, hqs⟩ := Info.mem_ofSwitch.mp hq
    refine Or.inr ⟨q, hq, ?_, ?_⟩
    · exact Int32.toInt_inj.mp (hqs.trans (Option.some.inj hs))
    · rw [hn, hsucc]

/-- A turn that adds these rows, and after which this is ahead of the run. -/
theorem NoGap.turn (h : NoGap sqlInt w) {i : ι} {q : Statement} {a : Answer}
    {p : Program (List Int32)} {t : Info} {w' : Runs ι} (hturn : World.Turn w i q a p t w')
    {new : List Row} (hrows : t.rows = w.state.rows ++ new) (hnew : ∀ r ∈ new, Based w.state r)
    {pending : List Statement} {rest : List Switx} (hleft : Left p pending rest)
    (hpending : ∀ q ∈ pending, ∀ r, rowOf sqlInt q = some r → Based w.state r) :
    NoGap sqlInt w' := by
  have hmono : ∀ r, Based w.state r → Based w'.state r := by
    intro r hr
    refine hr.mono fun q hq => ?_
    rw [hturn.state, hrows]
    exact List.mem_append_left new hq
  refine ⟨?_, ?_⟩
  · intro r hr
    rw [hturn.state, hrows] at hr
    rcases List.mem_append.mp hr with hr | hr
    · exact hmono r (h.table r hr)
    · exact hmono r (hnew r hr)
  · intro j
    by_cases hj : j = i
    · subst hj
      refine ⟨pending, rest, hturn.procs_self.symm ▸ hleft, fun q hq r hr => ?_⟩
      exact hmono r (hpending q hq r hr)
    · obtain ⟨pending', rest', hleft', hpending'⟩ := h.ahead j
      refine ⟨pending', rest', (hturn.procs_ne j hj).symm ▸ hleft', fun q hq r hr => ?_⟩
      exact hmono r (hpending' q hq r hr)

theorem NoGap.step (h : NoGap sqlInt w) (i : ι) :
    NoGap sqlInt (World.step (serve sqlInt) w i) := by
  cases hp : w.procs i with
  | ret ns => rwa [step_of_next_eq_none (by rw [hp]; rfl)]
  | halt e => rwa [step_of_next_eq_none (by rw [hp]; rfl)]
  | call q k =>
    have hturn := World.turn_of_call (serve sqlInt) hp
    obtain ⟨pending, rest, hleft, hpending⟩ := h.ahead i
    rw [hp] at hleft
    have hsame : w.state.rows = w.state.rows ++ [] := (List.append_nil _).symm
    have hnone : ∀ r ∈ ([] : List Row), Based w.state r := fun r hr => absurd hr List.not_mem_nil
    have hidle : ∀ q ∈ ([] : List Statement), ∀ r, rowOf sqlInt q = some r → Based w.state r :=
      fun q hq => absurd hq List.not_mem_nil
    rcases serve_cases sqlInt w.state q with hs | ⟨x, s, rfl, hnumber, hs⟩ | ⟨r, t, hr, ht, hs⟩
    · -- refused: the run exits
      have herror : k .error = .halt (.exit 1) := by
        rcases hleft.call_cases with ⟨_, _, he, _⟩ | ⟨_, _, _, _, _, he, _⟩
        · exact he
        · exact he
      rw [hs, herror] at hturn
      exact h.turn hturn hsame hnone (.halted _) hidle
    · rw [hs] at hturn
      rcases hleft.call_cases with ⟨pending', rfl, _, hgo⟩ | ⟨sw, rest', _, _, hq, _, hgo⟩
      · exact h.turn hturn hsame hnone (hgo _ (by simp))
          fun q hq => hpending q (List.mem_cons_of_mem _ hq)
      · cases hq
        rcases nextListNumber_lists w.state s with ⟨n, hn, hnext⟩ | hover
        · exact h.turn hturn hsame hnone ((hgo _).1 n hn)
            fun q hq r hr => based_of_next hnext hnumber hq hr
        · rw [(hgo _).2 _ hover] at hturn
          exact h.turn hturn hsame hnone (.halted _) hidle
    · rw [hs] at hturn
      rcases hleft.call_cases with ⟨pending', rfl, _, hgo⟩ | ⟨_, _, _, _, rfl, _, _⟩
      · refine h.turn hturn (Info.rows_of_add ht) ?_ (hgo .done (by simp))
          fun q hq => hpending q (List.mem_cons_of_mem _ hq)
        intro r' hr'
        rw [List.mem_singleton.mp hr']
        exact hpending q List.mem_cons_self r hr
      · exact absurd hr (by simp [rowOf])

/-- **List numbers have no gaps.** If the lists of every switch were numbered from `1` on without a
gap, they still are, whatever the runs are and in whatever order they take turns, also where lists
have been merged or runs have exited on the way. -/
theorem lists_without_gaps (sqlInt : Text → Option Int) (switches : ι → List Switx) {t : Info}
    (h : Gapless t) (turns : List ι) (s : Int) :
    ∃ k : Nat, ∀ m : Int,
      (∃ n ∈ (storedBy sqlInt switches t turns).lists s, n.toInt = m) ↔ 1 ≤ m ∧ m ≤ k := by
  have hstart : NoGap sqlInt (World.start (fun i => insertConfigInDB (switches i)) t) :=
    ⟨h, fun i => ⟨[], switches i, left_start (switches i), fun q hq => absurd hq List.not_mem_nil⟩⟩
  have hend := World.invariant (serve sqlInt) (fun w i hw _ => hw.step i) turns _ hstart
    (World.obeys_true (serve sqlInt) _ turns)
  exact hend.table.lists_eq s

end Gaps

/-- Two runs whose lists are merged, on the table as it is delivered. The switch has three lists
there, and gets a fourth. -/
theorem lists_without_gaps_mydata : Gapless .mydata ∧ ∃ k : Nat, ∀ m : Int,
    (∃ n ∈ (storedBy decimal twoPorts .mydata [false, true, false, true]).lists 64, n.toInt = m) ↔
      1 ≤ m ∧ m ≤ k := by
  have hmydata : Gapless .mydata := by
    unfold Gapless Based
    decide +kernel
  exact ⟨hmydata, lists_without_gaps decimal twoPorts hmydata _ 64⟩

end Store
end TsnController

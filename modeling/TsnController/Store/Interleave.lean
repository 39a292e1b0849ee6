import Mathlib.Data.Fintype.Basic
import TsnController.Store.Insert

/-!
# Two stores at once

`InsertConfigInDB` chooses a list number with one statement and uses it in later ones. Several runs
on one table are a `World`, with a turn for every statement. Nothing keeps a second run from asking
for a switch after a first one has asked and before it has inserted anything; both are then given
the same number, and as long as their ports are different both succeed (`lists_merged`).

That window is the only one. If no run asks for a switch while another is between its own query for
that switch and the INSERT that follows it (`Apart`), lists are never merged (`lists_apart`). The
invariant is about *jobs*: what a run has still to insert for its current switch, and under which
number. A job that has begun has a row in the table, so whoever asks later is given a greater
number; a job that has not begun is undecided, and `Apart` says that nobody asks then.
-/

set_option autoImplicit false

namespace TsnController
namespace Store

open CLib Lib

/-! ## What is left of a run -/

/-- The program has these INSERTs ahead for its current switch, and then these switches. -/
inductive Left : Program (List Int32) → List Statement → List Switx → Prop
  | going (pending : List Statement) (rest : List Switx) (f : List Int32 → List Int32) :
      Left (insertAll pending >>= fun _ => insertConfigInDB rest >>= fun ns => .ret (f ns))
        pending rest
  | halted (e : Halt) : Left (.halt e) [] []

theorem left_start (switches : List Switx) : Left (insertConfigInDB switches) [] switches := by
  have h := Left.going [] switches id
  rwa [show (insertAll [] >>= fun _ => insertConfigInDB switches >>= fun ns => .ret (id ns)) =
    insertConfigInDB switches >>= Proc.ret from rfl, Proc.bind_ret] at h

theorem Left.next_eq {p : Program (List Int32)} {q : Statement} {pending : List Statement}
    {rest : List Switx} (h : Left p (q :: pending) rest) : p.next = some q := by
  cases h
  rfl

/-- The next statement of a run and what its answers lead to. -/
theorem Left.call_cases {q : Statement} {k : Answer → Program (List Int32)}
    {pending : List Statement} {rest : List Switx} (h : Left (.call q k) pending rest) :
    (∃ pending', pending = q :: pending' ∧ k .error = .halt (.exit 1) ∧
      ∀ a, a ≠ .error → Left (k a) pending' rest) ∨
    (∃ sw rest', pending = [] ∧ rest = sw :: rest' ∧ q = .select sw.number ∧
      k .error = .halt (.exit 1) ∧
      ∀ numbers, (∀ n, nextListNumber numbers = .ret n →
          Left (k (.lists numbers)) (requests sw n) rest') ∧
        ∀ e, nextListNumber numbers = .halt e → k (.lists numbers) = .halt e) := by
  generalize hp : Proc.call q k = p at h
  cases h with
  | halted e => exact absurd hp (by simp)
  | going pending rest f =>
    cases pending with
    | cons q' pending =>
      left
      obtain ⟨k', hcall, herror, hgo⟩ := insertAll_cons q' pending
      rw [hcall, Proc.call_bind] at hp
      cases hp
      refine ⟨pending, rfl, by simp only [herror, Proc.halt_bind], ?_⟩
      intro a ha
      simp only [hgo a ha]
      exact .going pending rest f
    | nil =>
      right
      cases rest with
      | nil => exact absurd hp (by simp [insertAll, insertConfigInDB])
      | cons sw rest =>
        have hcall : (insertAll [] >>= fun _ =>
            insertConfigInDB (sw :: rest) >>= fun ns => .ret (f ns)) = insertSwitch sw >>= fun n =>
              insertConfigInDB rest >>= fun ns => .ret (f (n :: ns)) := by
          show (insertSwitch sw >>= fun n => insertConfigInDB rest >>= fun ns => .ret (n :: ns)) >>=
            (fun ns => .ret (f ns)) = _
          simp only [Proc.bind_bind, Proc.ret_bind]
        rw [hcall, insertSwitch_eq] at hp
        cases hp
        refine ⟨sw, rest, rfl, rfl, rfl, rfl, ?_⟩
        intro numbers
        refine ⟨?_, ?_⟩
        · intro n hn
          simp only [hn, Proc.ret_bind]
          show Left ((insertAll (requests sw n) >>= fun _ => .ret n) >>= _) _ _
          rw [Proc.bind_bind]
          exact .going (requests sw n) rest fun ns => f (n :: ns)
        · intro e he
          simp only [he, Proc.halt_bind]
          rfl

/-! ## Jobs -/

section Jobs

variable (sqlInt : Text → Option Int) {ι : Type} [DecidableEq ι]

/-- Several runs on one table. -/
abbrev Runs (ι : Type) := World ι Statement Answer Halt (List Int32) Info

/-- The switch whose list numbers are asked for. -/
def asked : Option Statement → Option Int
  | some (.select w) => sqlInt w
  | _ => none

/-- Run `j` has asked for the switch and is about to insert its first entry. -/
def Undecided (w : Runs ι) (j : ι) (s : Int) : Prop :=
  asked sqlInt (w.last j) = some s ∧ ((w.procs j).next.any Statement.isInsert) = true

/-- Nobody is undecided about a switch that run `i` is about to ask for. -/
def Apart (w : Runs ι) (i : ι) : Prop :=
  ∀ s ∈ asked sqlInt (w.procs i).next, ∀ j, j ≠ i → ¬ Undecided sqlInt w j s

instance [Fintype ι] (w : Runs ι) (i : ι) : Decidable (Apart sqlInt w i) :=
  inferInstanceAs (Decidable (∀ s ∈ asked sqlInt (w.procs i).next, ∀ j, j ≠ i →
    ¬ (asked sqlInt (w.last j) = some s ∧ ((w.procs j).next.any Statement.isInsert) = true)))

/-- The row of an event. -/
def inserted (e : Event ι Statement Answer) : Option Row := accepted sqlInt (e.query, e.answer)

/-- What a run has still to insert for its current switch, and what comes after that. -/
structure Job where
  pending : List Statement
  rest : List Switx
  number : Int
  list : Int32

/-- The job has not begun: its query is the last thing the run has done. -/
def Fresh (w : Runs ι) (i : ι) (b : Job) : Prop := asked sqlInt (w.last i) = some b.number

/-- A job by itself: its INSERTs are for one list, of which there is a row once it has begun, and
which is beyond all others until then. -/
structure Own (w : Runs ι) (i : ι) (b : Job) : Prop where
  left : Left (w.procs i) b.pending b.rest
  current : ∀ q ∈ b.pending, ∃ sw e, q = request sw b.list e ∧ sqlInt sw.number = some b.number
  fresh : b.pending ≠ [] → Fresh sqlInt w i b →
    ∀ r ∈ w.state.ofSwitch b.number, r.listNumber.toInt < b.list.toInt
  used : b.pending ≠ [] → ¬ Fresh sqlInt w i b →
    ∃ r ∈ w.state.ofSwitch b.number, r.listNumber = b.list

/-- Two jobs for one switch have different lists, and one that has not begun has the greater. -/
def Between (w : Runs ι) (b : Job) (j : ι) (c : Job) : Prop :=
  b.pending ≠ [] → c.pending ≠ [] → b.number = c.number →
    b.list ≠ c.list ∧ (Fresh sqlInt w j c → b.list.toInt < c.list.toInt)

/-- No other run has inserted into the list of the job. -/
def Foreign (w : Runs ι) (i : ι) (b : Job) : Prop :=
  b.pending ≠ [] → ∀ e ∈ w.log, e.who ≠ i → ∀ r, inserted sqlInt e = some r →
    r.switchNumber.toInt = b.number → r.listNumber ≠ b.list

/-- Rows that different runs have inserted for one switch have different list numbers. -/
def Separate (w : Runs ι) : Prop :=
  ∀ e ∈ w.log, ∀ e' ∈ w.log, e.who ≠ e'.who → ∀ r r', inserted sqlInt e = some r →
    inserted sqlInt e' = some r' → r.switchNumber = r'.switchNumber → r.listNumber ≠ r'.listNumber

structure Sound (w : Runs ι) (job : ι → Job) : Prop where
  own : ∀ i, Own sqlInt w i (job i)
  between : ∀ i j, i ≠ j → Between sqlInt w (job i) j (job j)
  foreign : ∀ i, Foreign sqlInt w i (job i)
  stored : ∀ e ∈ w.log, ∀ r, inserted sqlInt e = some r → r ∈ w.state.rows
  separate : Separate sqlInt w

theorem sound_start (switches : ι → List Switx) (t : Info) :
    Sound sqlInt (World.start (fun i => insertConfigInDB (switches i)) t)
      fun i => ⟨[], switches i, 0, 0⟩ where
  own i := ⟨left_start (switches i), by simp, fun h => absurd rfl h, fun h => absurd rfl h⟩
  between i j _ h := absurd rfl h
  foreign i h := absurd rfl h
  stored e he := absurd he (by simp [World.start])
  separate e he := absurd he (by simp [World.start])

/-! ## One turn -/

variable {sqlInt} {w w' : Runs ι} {job : ι → Job} {i : ι} {q : Statement} {a : Answer}
  {p : Program (List Int32)} {t : Info} {b : Job}

theorem fresh_iff (hturn : World.Turn w i q a p t w') {j : ι} (hj : j ≠ i) :
    Fresh sqlInt w' j b ↔ Fresh sqlInt w j b := by
  unfold Fresh
  rw [hturn.last_ne j hj]

/-- A row in the log is there since before the turn, or the turn has added it. -/
theorem inserted_cases (hturn : World.Turn w i q a p t w') {e : Event ι Statement Answer} {r : Row}
    (he : e ∈ w'.log) (hr : inserted sqlInt e = some r) :
    e ∈ w.log ∨ (e.who = i ∧ inserted sqlInt (⟨i, q, a⟩ : Event ι Statement Answer) = some r) := by
  rw [hturn.log] at he
  rcases List.mem_append.mp he with hold | hnew
  · exact Or.inl hold
  · cases List.mem_singleton.mp hnew
    exact Or.inr ⟨rfl, hr⟩

/-- The job of another run stays as it is, whatever rows are new, unless it has not begun and one
of them is in its list or beyond. -/
theorem Own.frame {j : ι} {c : Job} (h : Own sqlInt w j c) (hturn : World.Turn w i q a p t w')
    (hj : j ≠ i) {new : List Row} (hrows : t.rows = w.state.rows ++ new)
    (hbeyond : c.pending ≠ [] → Fresh sqlInt w j c → ∀ r ∈ new,
      r.switchNumber.toInt = c.number → r.listNumber.toInt < c.list.toInt) :
    Own sqlInt w' j c := by
  refine ⟨?_, h.current, ?_, ?_⟩
  · rw [hturn.procs_ne j hj]
    exact h.left
  · intro hne hf r hr
    have hf := (fresh_iff hturn hj).mp hf
    obtain ⟨hin, hs⟩ := Info.mem_ofSwitch.mp hr
    rw [hturn.state, hrows] at hin
    rcases List.mem_append.mp hin with hold | hnew
    · exact h.fresh hne hf r (Info.mem_ofSwitch.mpr ⟨hold, hs⟩)
    · exact hbeyond hne hf r hnew hs
  · intro hne hf
    obtain ⟨r, hr, hlist⟩ := h.used hne (mt (fresh_iff hturn hj).mpr hf)
    obtain ⟨hin, hs⟩ := Info.mem_ofSwitch.mp hr
    refine ⟨r, Info.mem_ofSwitch.mpr ⟨?_, hs⟩, hlist⟩
    rw [hturn.state, hrows]
    exact List.mem_append_left _ hin

theorem between_update (h : ∀ j k, j ≠ k → Between sqlInt w (job j) k (job k))
    (hturn : World.Turn w i q a p t w') (hafter : ∀ j, j ≠ i → Between sqlInt w' b j (job j))
    (hbefore : ∀ j, j ≠ i → Between sqlInt w' (job j) i b) :
    ∀ j k, j ≠ k →
      Between sqlInt w' (Function.update job i b j) k (Function.update job i b k) := by
  intro j k hjk
  by_cases hj : j = i
  · subst hj
    rw [Function.update_self, Function.update_of_ne (Ne.symm hjk)]
    exact hafter k (Ne.symm hjk)
  · rw [Function.update_of_ne hj]
    by_cases hk : k = i
    · subst hk
      rw [Function.update_self]
      exact hbefore j hj
    · rw [Function.update_of_ne hk]
      have hold := h j k hjk
      unfold Between at hold ⊢
      rwa [fresh_iff hturn hk]

/-- **What a turn has to respect.** Run `i` now has the job `b`, and there are new rows: these must
keep clear of the jobs of the others and of what the others have inserted. -/
theorem Sound.turn (h : Sound sqlInt w job) (hturn : World.Turn w i q a p t w') {new : List Row}
    (hrows : t.rows = w.state.rows ++ new)
    (hnew : ∀ r, inserted sqlInt (⟨i, q, a⟩ : Event ι Statement Answer) = some r → r ∈ new)
    (hown : Own sqlInt w' i b) (hafter : ∀ j, j ≠ i → Between sqlInt w' b j (job j))
    (hbefore : ∀ j, j ≠ i → Between sqlInt w' (job j) i b) (hforeign : Foreign sqlInt w i b)
    (hjobs : ∀ r ∈ new, ∀ j, j ≠ i → (job j).pending ≠ [] →
      r.switchNumber.toInt = (job j).number → r.listNumber ≠ (job j).list ∧
        (Fresh sqlInt w j (job j) → r.listNumber.toInt < (job j).list.toInt))
    (hlog : ∀ r ∈ new, ∀ e ∈ w.log, e.who ≠ i → ∀ r', inserted sqlInt e = some r' →
      r'.switchNumber = r.switchNumber → r'.listNumber ≠ r.listNumber) :
    Sound sqlInt w' (Function.update job i b) where
  own := by
    apply (Function.forall_update_iff job fun j c => Own sqlInt w' j c).mpr
    refine ⟨hown, ?_⟩
    intro j hj
    apply (h.own j).frame hturn hj hrows
    intro hne hf r hr hs
    exact (hjobs r hr j hj hne hs).2 hf
  between := between_update h.between hturn hafter hbefore
  foreign := by
    apply (Function.forall_update_iff job fun j c => Foreign sqlInt w' j c).mpr
    refine ⟨?_, ?_⟩
    · intro hne e he hwho r hr
      rcases inserted_cases hturn he hr with hold | ⟨hself, _⟩
      · exact hforeign hne e hold hwho r hr
      · exact absurd hself hwho
    · intro j hj hne e he hwho r hr hs
      rcases inserted_cases hturn he hr with hold | ⟨_, hr'⟩
      · exact h.foreign j hne e hold hwho r hr hs
      · exact (hjobs r (hnew r hr') j hj hne hs).1
  stored := by
    intro e he r hr
    rw [hturn.state, hrows]
    rcases inserted_cases hturn he hr with hold | ⟨_, hr'⟩
    · exact List.mem_append_left _ (h.stored e hold r hr)
    · exact List.mem_append_right _ (hnew r hr')
  separate := by
    intro e₁ he₁ e₂ he₂ hwho r₁ r₂ hr₁ hr₂ hs
    rcases inserted_cases hturn he₁ hr₁ with hold₁ | ⟨hself₁, hr₁'⟩
    · rcases inserted_cases hturn he₂ hr₂ with hold₂ | ⟨hself₂, hr₂'⟩
      · exact h.separate e₁ hold₁ e₂ hold₂ hwho r₁ r₂ hr₁ hr₂ hs
      · exact hlog r₂ (hnew r₂ hr₂') e₁ hold₁ (hself₂ ▸ hwho) r₁ hr₁ hs
    · rcases inserted_cases hturn he₂ hr₂ with hold₂ | ⟨hself₂, _⟩
      · exact Ne.symm (hlog r₁ (hnew r₁ hr₁') e₂ hold₂ (hself₁ ▸ Ne.symm hwho) r₂ hr₂ hs.symm)
      · exact absurd (hself₁.trans hself₂.symm) hwho

/-- A turn without a new row. -/
theorem Sound.silent (h : Sound sqlInt w job) (hturn : World.Turn w i q a p w.state w')
    (hnone : inserted sqlInt (⟨i, q, a⟩ : Event ι Statement Answer) = none)
    (hown : Own sqlInt w' i b) (hafter : ∀ j, j ≠ i → Between sqlInt w' b j (job j))
    (hbefore : ∀ j, j ≠ i → Between sqlInt w' (job j) i b) (hforeign : Foreign sqlInt w i b) :
    Sound sqlInt w' (Function.update job i b) := by
  apply h.turn hturn (List.append_nil _).symm _ hown hafter hbefore hforeign
  · intro r hr
    exact absurd hr (by simp)
  · intro r hr
    exact absurd hr (by simp)
  · intro r hr
    rw [hnone] at hr
    exact absurd hr (by simp)

/-- The run gives up, or has nothing to insert. -/
theorem Sound.retire (h : Sound sqlInt w job) (hturn : World.Turn w i q a p w.state w')
    (hnone : inserted sqlInt (⟨i, q, a⟩ : Event ι Statement Answer) = none) {rest : List Switx}
    (hleft : Left p [] rest) :
    Sound sqlInt w' (Function.update job i ⟨[], rest, 0, 0⟩) := by
  apply h.silent hturn hnone
  · refine ⟨?_, by simp, fun hne => absurd rfl hne, fun hne => absurd rfl hne⟩
    rw [hturn.procs_self]
    exact hleft
  · intro j _ hne
    exact absurd rfl hne
  · intro j _ _ hne
    exact absurd rfl hne
  · intro hne
    exact absurd rfl hne

theorem Own.begun (h : Own sqlInt w i b) (hne : b.pending ≠ [])
    (hdecided : ¬ Undecided sqlInt w i b.number) : ¬ Fresh sqlInt w i b := by
  intro hf
  apply hdecided
  refine ⟨hf, ?_⟩
  obtain ⟨q', pending, hpending⟩ := List.exists_cons_of_ne_nil hne
  obtain ⟨sw, e, hq', _⟩ := h.current q' (by rw [hpending]; exact List.mem_cons_self)
  have hleft := h.left
  rw [hpending] at hleft
  rw [hleft.next_eq, hq']
  rfl

theorem Own.list_lt (h : Own sqlInt w i b) (hne : b.pending ≠ []) (hbegun : ¬ Fresh sqlInt w i b)
    {n : Int32} (hnext : IsNext w.state b.number n) : b.list.toInt < n.toInt := by
  obtain ⟨r, hr, hrlist⟩ := h.used hne hbegun
  rw [← hrlist]
  exact hnext.lt r hr

/-- The run has asked, and is given a number beyond all that are in use. -/
theorem Sound.ask (h : Sound sqlInt w job) {sw : Switx} {s : Int} {n : Int32} {rest : List Switx}
    (hturn : World.Turn w i (.select sw.number) a p w.state w')
    (hnumber : sqlInt sw.number = some s) (hnext : IsNext w.state s n)
    (hleft : Left p (requests sw n) rest)
    (hapart : ∀ j, j ≠ i → ¬ Undecided sqlInt w j s) :
    Sound sqlInt w' (Function.update job i ⟨requests sw n, rest, s, n⟩) := by
  have hfresh : Fresh sqlInt w' i ⟨requests sw n, rest, s, n⟩ := by
    unfold Fresh
    rw [hturn.last_self]
    exact hnumber
  -- every other job for the switch has begun, so its number is in use
  have hless : ∀ j, j ≠ i → (job j).pending ≠ [] → (job j).number = s →
      ¬ Fresh sqlInt w j (job j) ∧ (job j).list.toInt < n.toInt := by
    intro j hj hne hs
    subst hs
    have hbegun := (h.own j).begun hne (hapart j hj)
    exact ⟨hbegun, (h.own j).list_lt hne hbegun hnext⟩
  apply h.silent hturn
  · unfold inserted accepted
    split <;> rfl
  · refine ⟨?_, ?_, ?_, fun _ hbegun => absurd hfresh hbegun⟩
    · rw [hturn.procs_self]
      exact hleft
    · intro q' hq'
      obtain ⟨e, _, rfl⟩ := List.mem_map.mp hq'
      exact ⟨sw, e, rfl, hnumber⟩
    · intro _ _ r hr
      rw [hturn.state] at hr
      exact hnext.lt r hr
  · intro j hj _ hne hs
    obtain ⟨hbegun, hlt⟩ := hless j hj hne hs.symm
    refine ⟨?_, fun hf => absurd ((fresh_iff hturn hj).mp hf) hbegun⟩
    intro heq
    rw [← heq] at hlt
    exact Int.lt_irrefl _ hlt
  · intro j hj hne _ hs
    obtain ⟨_, hlt⟩ := hless j hj hne hs
    refine ⟨?_, fun _ => hlt⟩
    intro heq
    rw [heq] at hlt
    exact Int.lt_irrefl _ hlt
  · intro _ e he _ r hr hs heq
    have hlt := hnext.lt r (Info.mem_ofSwitch.mpr ⟨h.stored e he r hr, hs⟩)
    rw [heq] at hlt
    exact Int.lt_irrefl _ hlt

/-- The run has inserted a row of its job, which has thereby begun. -/
theorem Sound.insert (h : Sound sqlInt w job) {pending : List Statement} {r : Row}
    (hpending : (job i).pending = q :: pending) (hr : rowOf sqlInt q = some r)
    (hturn : World.Turn w i q .done p t w') (ht : w.state.add r = some t)
    (hleft : Left p pending (job i).rest) :
    Sound sqlInt w' (Function.update job i { job i with pending := pending }) := by
  have hne : (job i).pending ≠ [] := by
    rw [hpending]
    simp
  obtain ⟨sw, e, rfl, hnumber⟩ := (h.own i).current q (by rw [hpending]; exact List.mem_cons_self)
  obtain ⟨hrs, hrlist, _⟩ := rowOf_request hr
  have hrnumber : r.switchNumber.toInt = (job i).number := by
    rw [hnumber] at hrs
    exact (Option.some.inj hrs).symm
  have hbegun : ¬ Fresh sqlInt w' i { job i with pending := pending } := by
    unfold Fresh
    rw [hturn.last_self]
    exact fun hf => absurd hf (by simp [request, asked])
  apply h.turn hturn (Info.rows_of_add ht)
  · intro r' hr'
    unfold inserted accepted at hr'
    rw [if_pos rfl, hr] at hr'
    rw [Option.some.inj hr']
    exact List.mem_singleton_self r'
  · refine ⟨?_, ?_, fun _ hf => absurd hf hbegun, ?_⟩
    · rw [hturn.procs_self]
      exact hleft
    · intro q' hq'
      exact (h.own i).current q' (by rw [hpending]; exact List.mem_cons_of_mem _ hq')
    · intro _ _
      refine ⟨r, Info.mem_ofSwitch.mpr ⟨?_, hrnumber⟩, hrlist⟩
      rw [hturn.state, Info.rows_of_add ht]
      exact List.mem_append_right _ List.mem_cons_self
  · intro j hj _ hne' hs
    have hij := h.between i j (Ne.symm hj) hne hne' hs
    exact ⟨hij.1, fun hf => hij.2 ((fresh_iff hturn hj).mp hf)⟩
  · intro j hj hne' _ hs
    exact ⟨(h.between j i hj hne' hne hs).1, fun hf => absurd hf hbegun⟩
  · intro _
    exact h.foreign i hne
  · intro r' hr' j hj hne' hs
    rw [List.mem_singleton.mp hr'] at hs ⊢
    rw [hrlist]
    exact h.between i j (Ne.symm hj) hne hne' (hrnumber.symm.trans hs)
  · intro r' hr' e' he' hwho r'' hr'' hs
    rw [List.mem_singleton.mp hr'] at hs ⊢
    rw [hrlist]
    exact h.foreign i hne e' he' hwho r'' hr'' (by rw [hs, hrnumber])

theorem step_of_next_eq_none (hp : (w.procs i).next = none) :
    World.step (serve sqlInt) w i = w := by
  unfold World.step
  cases h : w.procs i with
  | ret ns => rfl
  | halt e => rfl
  | call q k =>
    rw [h] at hp
    exact absurd hp (by simp [Proc.next])

/-- **One turn**, of a run that may take it, leads from a sound world to a sound one. -/
theorem Sound.step (h : Sound sqlInt w job) (hapart : Apart sqlInt w i) :
    ∃ job', Sound sqlInt (World.step (serve sqlInt) w i) job' := by
  cases hp : w.procs i with
  | ret ns => exact ⟨job, by rwa [step_of_next_eq_none (by rw [hp]; rfl)]⟩
  | halt e => exact ⟨job, by rwa [step_of_next_eq_none (by rw [hp]; rfl)]⟩
  | call q k =>
    have hturn := World.turn_of_call (serve sqlInt) hp
    have hleft := (h.own i).left
    rw [hp] at hleft
    rcases serve_cases sqlInt w.state q with hs | ⟨x, s, rfl, hnumber, hs⟩ | ⟨r, t, hr, ht, hs⟩
    · -- refused: the run exits
      have herror : k .error = .halt (.exit 1) := by
        rcases hleft.call_cases with ⟨_, _, he, _⟩ | ⟨_, _, _, _, _, he, _⟩
        · exact he
        · exact he
      rw [hs, herror] at hturn
      exact ⟨_, h.retire hturn rfl (.halted _)⟩
    · -- the query for the next switch
      rw [hs] at hturn
      rcases hleft.call_cases with ⟨pending, hpending, _, _⟩ | ⟨sw, rest, _, _, hq, _, hgo⟩
      · obtain ⟨_, _, hq, _⟩ := (h.own i).current (.select x) (by rw [hpending]; simp)
        exact absurd hq (by simp [request])
      · cases hq
        have hothers := hapart s (by rw [hp]; exact hnumber)
        rcases nextListNumber_lists w.state s with ⟨n, hn, hnext⟩ | hover
        · exact ⟨_, h.ask hturn hnumber hnext ((hgo _).1 n hn) hothers⟩
        · rw [(hgo _).2 _ hover] at hturn
          exact ⟨_, h.retire hturn rfl (.halted _)⟩
    · -- an entry of the current switch
      rw [hs] at hturn
      rcases hleft.call_cases with ⟨pending, hpending, _, hgo⟩ | ⟨_, _, _, _, rfl, _, _⟩
      · exact ⟨_, h.insert hpending hr hturn ht (hgo .done (by simp))⟩
      · exact absurd hr (by simp [rowOf])

end Jobs

/-! ## All turns -/

section Turns

variable (sqlInt : Text → Option Int) {ι : Type} [DecidableEq ι]

/-- **Lists are kept apart** in every interleaving in which nobody asks for a switch that another
run is undecided about: what two runs have inserted for one switch, they have inserted under
different list numbers. -/
theorem lists_apart (switches : ι → List Switx) (t : Info) (turns : List ι)
    (h : World.Obeys (serve sqlInt) (Apart sqlInt)
      (World.start (fun i => insertConfigInDB (switches i)) t) turns) :
    Separate sqlInt (World.after (serve sqlInt)
      (World.start (fun i => insertConfigInDB (switches i)) t) turns) := by
  have hstart : ∃ job, Sound sqlInt (World.start (fun i => insertConfigInDB (switches i)) t) job :=
    ⟨_, sound_start sqlInt switches t⟩
  have hstep : ∀ (w : Runs ι) (i : ι), (∃ job, Sound sqlInt w job) → Apart sqlInt w i →
      ∃ job, Sound sqlInt (World.step (serve sqlInt) w i) job := by
    intro w i hw hok
    obtain ⟨job, hw⟩ := hw
    exact hw.step hok
  obtain ⟨job, hsound⟩ := World.invariant (serve sqlInt) hstep turns _ hstart h
  exact hsound.separate

end Turns

/-- Two runs for one switch, each with a port of its own. -/
def twoPorts (second : Bool) : List Switx :=
  [⟨"64".toList, [⟨bif second then 2 else 1, [⟨30, 3⟩], by decide⟩]⟩]

/-- The second run asks after the first has inserted its entry. -/
theorem lists_apart_twoPorts : Separate decimal (World.after (serve decimal)
    (World.start (fun i => insertConfigInDB (twoPorts i)) .empty) [false, false, true, true]) :=
  lists_apart decimal twoPorts .empty [false, false, true, true] (by decide +kernel)

/-- The second run asks before. Both are told that there is no list yet, and one list is made of
both configurations. -/
theorem lists_merged : ¬ Separate decimal (World.after (serve decimal)
    (World.start (fun i => insertConfigInDB (twoPorts i)) .empty) [false, true, false, true]) := by
  intro h
  exact h ⟨false, .insert "64".toList 1 1 0 30 3, .done⟩ (by decide +kernel)
    ⟨true, .insert "64".toList 2 1 0 30 3, .done⟩ (by decide +kernel) (by decide)
    ⟨64, 1, 1, 0, 30, 3⟩ ⟨64, 2, 1, 0, 30, 3⟩ (by decide +kernel) (by decide +kernel) rfl rfl

end Store
end TsnController

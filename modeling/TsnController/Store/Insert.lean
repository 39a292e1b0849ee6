import TsnController.Lib.Process
import TsnController.Store.Info

/-!
# `ReadFile.c`: storing a configuration

`InsertConfigInDB` asks for the last list number of a switch, then inserts the entries of its ports
one statement at a time under the next one, and goes on with the next switch. Here it is a program
that talks to the server of `Store.Info`: the loops of the source, with a request for every
`mysql_query`. An answer that is an error makes it `exit(1)` on the spot; nothing is undone.

The result of the program is what it prints, the list numbers in the order of the switches. The
variable that holds them is assigned in every turn of the loop before it is used, so it is not part
of any state. An `int` cannot go beyond its greatest value; what the increment does then is left
open by the language.

After the query for a switch the statements to come are known (`requests`); `insertSwitch_eq` is the
program in that form, and all later arguments start from it.
-/

set_option autoImplicit false

namespace TsnController
namespace Store

open CLib Lib

/-- An element of the arrays `period` and `gates_state`. -/
structure Entry where
  period : UInt64
  gatesState : Int32

structure Port where
  number : Int32
  entries : List Entry
  /-- `admin_control_list_length` is an `int`. -/
  bounded : entries.length < 0x80000000

structure Switx where
  number : Text
  ports : List Port

/-- The number `%li` prints for an `unsigned long`. -/
def formatLi (period : UInt64) : Int := Int.bmod period.toNat 0x10000000000000000

abbrev Program (α : Type) := Proc Statement Answer Halt α

/-- `if (mysql_query(conn, myquery)) exit(1)`, for an INSERT. -/
def insertRow (q : Statement) : Program Unit :=
  .call q fun
    | .error => .halt (.exit 1)
    | _ => .ret ()

/-- The body of the innermost loop. -/
def insertEntry (sw : Switx) (listNumber portNumber : Int32) (k : Nat) (e : Entry) : Program Unit :=
  insertRow (.insert sw.number portNumber listNumber (Int32.ofNat k) (formatLi e.period)
    e.gatesState)

def insertPort (sw : Switx) (listNumber : Int32) (port : Port) : Program Unit :=
  forM port.entries.zipIdx fun e => insertEntry sw listNumber port.number e.2 e.1

/-- The list number to use, from the rows of the query. -/
def nextListNumber : List Int32 → Program Int32
  | [] => .ret 1
  | n :: _ => if n = Int32.maxValue then .halt .undefined else .ret (n + 1)

/-- The body of the outermost loop. -/
def insertSwitch (sw : Switx) : Program Int32 :=
  .call (.select sw.number) fun
    | .lists numbers => do
      let listNumber ← nextListNumber numbers
      forM sw.ports (insertPort sw listNumber)
      pure listNumber
    | _ => .halt (.exit 1)

def insertConfigInDB : List Switx → Program (List Int32)
  | [] => .ret []
  | sw :: rest => do
    let listNumber ← insertSwitch sw
    let listNumbers ← insertConfigInDB rest
    pure (listNumber :: listNumbers)

/-! ## The statements of a switch -/

/-- The entries of a switch in the order of the loops, each with its port and its index. -/
def Switx.entries (sw : Switx) : List (Int32 × Nat × Entry) :=
  sw.ports.flatMap fun port => port.entries.zipIdx.map fun e => (port.number, e.2, e.1)

/-- The INSERT for an entry. -/
def request (sw : Switx) (listNumber : Int32) (e : Int32 × Nat × Entry) : Statement :=
  .insert sw.number e.1 listNumber (Int32.ofNat e.2.1) (formatLi e.2.2.period) e.2.2.gatesState

def requests (sw : Switx) (listNumber : Int32) : List Statement :=
  sw.entries.map (request sw listNumber)

/-- INSERTs one after the other. -/
def insertAll (qs : List Statement) : Program Unit := forM qs insertRow

/-- What the first of several INSERTs leads to. -/
theorem insertAll_cons (q : Statement) (qs : List Statement) :
    ∃ k, insertAll (q :: qs) = .call q k ∧ k .error = .halt (.exit 1) ∧
      ∀ a, a ≠ .error → k a = insertAll qs := by
  refine ⟨_, rfl, rfl, ?_⟩
  intro a ha
  cases a with
  | error => exact absurd rfl ha
  | done => rfl
  | lists numbers => rfl

theorem forM_insertPort (sw : Switx) (listNumber : Int32) :
    forM sw.ports (insertPort sw listNumber) = insertAll (requests sw listNumber) := by
  have hport : ∀ port : Port, insertPort sw listNumber port = insertAll
      ((port.entries.zipIdx.map fun e => (port.number, e.2, e.1)).map (request sw listNumber)) := by
    intro port
    unfold insertPort insertAll
    rw [List.map_map]
    induction port.entries.zipIdx with
    | nil => rfl
    | cons e es ih => rw [List.map_cons, List.forM_cons, List.forM_cons, ih]; rfl
  unfold requests Switx.entries
  induction sw.ports with
  | nil => rfl
  | cons port ports ih =>
    rw [List.forM_cons, ih, hport, List.flatMap_cons, List.map_append]
    unfold insertAll
    rw [List.forM_append]

/-- The program for a switch, with its loops unrolled. -/
theorem insertSwitch_eq (sw : Switx) : insertSwitch sw = .call (.select sw.number) fun
    | .lists numbers => nextListNumber numbers >>= fun listNumber =>
        insertAll (requests sw listNumber) >>= fun _ => .ret listNumber
    | _ => .halt (.exit 1) := by
  unfold insertSwitch
  simp only [forM_insertPort]
  rfl

/-! ## The next list number -/

/-- One more than the greatest list number of the switch, or `1`. -/
def IsNext (t : Info) (s : Int) (n : Int32) : Prop :=
  (t.ofSwitch s = [] ∧ n = 1) ∨
  ∃ r ∈ t.ofSwitch s, (∀ r' ∈ t.ofSwitch s, r'.listNumber.toInt ≤ r.listNumber.toInt) ∧
    n.toInt = r.listNumber.toInt + 1

theorem IsNext.lt {t : Info} {s : Int} {n : Int32} (h : IsNext t s n) :
    ∀ r ∈ t.ofSwitch s, r.listNumber.toInt < n.toInt := by
  intro r hr
  rcases h with ⟨hnil, _⟩ | ⟨m, _, hmax, hn⟩
  · rw [hnil] at hr
    exact absurd hr (by simp)
  · have hle := hmax r hr
    omega

theorem IsNext.unique {t u : Info} {s : Int} {n m : Int32} (hsame : t.ofSwitch s = u.ofSwitch s)
    (hn : IsNext t s n) (hm : IsNext u s m) : n = m := by
  rcases hn with ⟨hnil, rfl⟩ | ⟨r, hr, hmax, hn⟩ <;>
    rcases hm with ⟨hnil', rfl⟩ | ⟨r', hr', hmax', hm⟩
  · rfl
  · rw [← hsame, hnil] at hr'
    exact absurd hr' (by simp)
  · rw [hsame, hnil'] at hr
    exact absurd hr (by simp)
  · rw [← hsame] at hr' hmax'
    have hle := hmax r' hr'
    have hle' := hmax' r hr
    apply Int32.toInt_inj.mp
    omega

theorem toInt_succ {n : Int32} (h : n ≠ Int32.maxValue) : (n + 1).toInt = n.toInt + 1 := by
  have hlt := Int32.toInt_lt n
  have hge := Int32.le_toInt n
  have hmax := Int32.toInt_maxValue
  have hne : n.toInt ≠ 0x7fffffff := by
    intro heq
    apply h
    apply Int32.toInt_inj.mp
    omega
  have hone : (1 : Int32).toInt = 1 := by decide
  rw [Int32.toInt_add, hone]
  apply Int.bmod_eq_of_le <;> omega

/-- What the program makes of the answer to its query. -/
theorem nextListNumber_lists (t : Info) (s : Int) :
    (∃ n, nextListNumber (t.lists s) = .ret n ∧ IsNext t s n) ∨
      nextListNumber (t.lists s) = .halt .undefined := by
  cases h : t.lists s with
  | nil => exact Or.inl ⟨1, rfl, Or.inl ⟨Info.ofSwitch_eq_nil_of_lists h, rfl⟩⟩
  | cons n rest =>
    unfold nextListNumber
    by_cases hmax : n = Int32.maxValue
    · exact Or.inr (if_pos hmax)
    · refine Or.inl ⟨n + 1, if_neg hmax, Or.inr ?_⟩
      obtain ⟨r, hr, hrn⟩ := Info.mem_lists.mp (h ▸ List.mem_cons_self : n ∈ t.lists s)
      rw [← hrn] at h hmax ⊢
      exact ⟨r, hr, Info.le_of_lists_eq_cons h, toInt_succ hmax⟩

/-- What is stored for an entry. -/
theorem rowOf_request {sqlInt : Text → Option Int} {sw : Switx} {n : Int32}
    {e : Int32 × Nat × Entry} {r : Row} (h : rowOf sqlInt (request sw n e) = some r) :
    sqlInt sw.number = some r.switchNumber.toInt ∧ r.listNumber = n ∧ r.portNumber = e.1 ∧
      r.index = Int32.ofNat e.2.1 ∧ r.period.toInt = formatLi e.2.2.period ∧
      r.gatesState = e.2.2.gatesState := by
  obtain ⟨s, hs, h⟩ := Option.bind_eq_some_iff.mp h
  obtain ⟨c, hc, h⟩ := Option.bind_eq_some_iff.mp h
  obtain ⟨p, hp, h⟩ := Option.bind_eq_some_iff.mp h
  cases h
  refine ⟨?_, rfl, rfl, rfl, toInt_of_toColumn hp, rfl⟩
  rw [toInt_of_toColumn hc]
  exact hs

/-! ## A refused statement is the last one -/

section Refused

variable {α β : Type}

/-- After an error the program exits without another statement. -/
def StopsAtError : Program α → Prop
  | .call _ k => k .error = .halt (.exit 1) ∧ ∀ r, StopsAtError (k r)
  | _ => True

theorem StopsAtError.bind {p : Program α} {f : α → Program β} (hp : StopsAtError p)
    (hf : ∀ a, StopsAtError (f a)) : StopsAtError (p >>= f) := by
  induction p with
  | ret a => exact hf a
  | halt e => trivial
  | call q k ih =>
    refine ⟨?_, fun r => ih r (hp.2 r)⟩
    show k .error >>= f = _
    rw [hp.1]
    rfl

theorem stopsAtError_insertRow (q : Statement) : StopsAtError (insertRow q) :=
  ⟨rfl, fun r => by cases r <;> trivial⟩

theorem stopsAtError_insertAll (qs : List Statement) : StopsAtError (insertAll qs) := by
  induction qs with
  | nil => trivial
  | cons q qs ih => exact (stopsAtError_insertRow q).bind fun _ => ih

theorem stopsAtError_insertSwitch (sw : Switx) : StopsAtError (insertSwitch sw) := by
  rw [insertSwitch_eq]
  refine ⟨rfl, fun r => ?_⟩
  cases r with
  | error => trivial
  | done => trivial
  | lists numbers =>
    have hnext : StopsAtError (nextListNumber numbers) := by
      cases numbers with
      | nil => trivial
      | cons n rest =>
        show StopsAtError (if n = Int32.maxValue then _ else _)
        split <;> trivial
    exact hnext.bind fun n => (stopsAtError_insertAll _).bind fun _ => trivial

theorem stopsAtError_insertConfigInDB : ∀ switches : List Switx,
    StopsAtError (insertConfigInDB switches)
  | [] => trivial
  | sw :: rest => (stopsAtError_insertSwitch sw).bind fun _ =>
      (stopsAtError_insertConfigInDB rest).bind fun _ => trivial

variable (sqlInt : Text → Option Int)

/-- Whatever a program does, the table keeps what it had and gets the rows of the accepted
INSERTs. -/
theorem rows_run (p : Program α) : ∀ t : Info, (p.run (serve sqlInt) t).2.rows =
    t.rows ++ (p.trace (serve sqlInt) t).filterMap (accepted sqlInt) := by
  induction p with
  | ret a => intro t; exact (List.append_nil _).symm
  | halt e => intro t; exact (List.append_nil _).symm
  | call q k ih =>
    intro t
    rw [Proc.run_call, ih, rows_serve, List.append_assoc, Proc.trace_call, List.filterMap_cons]
    cases accepted sqlInt (q, (serve sqlInt t q).1) <;> rfl

theorem StopsAtError.ends {p : Program α} (hp : StopsAtError p) {q : Statement} :
    ∀ {t : Info} {before : List (Statement × Answer)},
    p.trace (serve sqlInt) t = before ++ [(q, .error)] →
    (∀ e ∈ before, e.2 ≠ .error) ∧ (p.run (serve sqlInt) t).1 = .error (.exit 1) := by
  induction p with
  | ret a => intro t before h; exact absurd h (by simp)
  | halt e => intro t before h; exact absurd h (by simp)
  | call q' k ih =>
    intro t before h
    rw [Proc.trace_call] at h
    rw [Proc.run_call]
    by_cases herr : (serve sqlInt t q').1 = .error
    · -- the trace stops here, so nothing comes before
      rw [herr, hp.1] at h ⊢
      cases before with
      | nil => exact ⟨by simp, rfl⟩
      | cons e before => exact absurd h (by simp)
    · cases before with
      | nil =>
        simp only [List.nil_append, List.cons.injEq, Prod.mk.injEq] at h
        exact absurd h.1.2 herr
      | cons e before =>
        simp only [List.cons_append, List.cons.injEq] at h
        obtain ⟨hbefore, hfinal⟩ := ih _ (hp.2 _) h.2
        refine ⟨?_, hfinal⟩
        intro e' he'
        rcases List.mem_cons.mp he' with rfl | he'
        · rw [← h.1]
          exact herr
        · exact hbefore e' he'

/-- **A refused statement undoes nothing.** The table keeps the rows of all INSERTs before it, so it
is as it was only if there were none. -/
theorem insertConfigInDB_refused (t : Info) (switches : List Switx)
    {before : List (Statement × Answer)} {q : Statement}
    (h : (insertConfigInDB switches).trace (serve sqlInt) t = before ++ [(q, .error)]) :
    ((insertConfigInDB switches).run (serve sqlInt) t).1 = .error (.exit 1) ∧
    (∀ e ∈ before, e.1.isInsert = true → (rowOf sqlInt e.1).isSome = true) ∧
    ((insertConfigInDB switches).run (serve sqlInt) t).2.rows =
      t.rows ++ before.filterMap (fun e => rowOf sqlInt e.1) ∧
    (((insertConfigInDB switches).run (serve sqlInt) t).2 = t ↔
      ∀ e ∈ before, e.1.isInsert = false) := by
  obtain ⟨hbefore, hexit⟩ := (stopsAtError_insertConfigInDB switches).ends sqlInt h
  have heffect : ∀ e ∈ before, accepted sqlInt e = rowOf sqlInt e.1 ∧
      (e.1.isInsert = true → (rowOf sqlInt e.1).isSome = true) := by
    intro e he
    have hserved := Proc.forall_trace (serve sqlInt) (P := fun e => e.2 ≠ .error →
      accepted sqlInt e = rowOf sqlInt e.1 ∧
        (e.1.isInsert = true → (rowOf sqlInt e.1).isSome = true))
      (fun t q hne => accepted_of_ne_error sqlInt hne) (insertConfigInDB switches) t e
      (h ▸ List.mem_append_left _ he)
    exact hserved (hbefore e he)
  have hrows := rows_run sqlInt (insertConfigInDB switches) t
  rw [h, List.filterMap_append, List.filterMap_congr fun e he => (heffect e he).1] at hrows
  have hlast : [(q, Answer.error)].filterMap (accepted sqlInt) = [] := rfl
  rw [hlast, List.append_nil] at hrows
  refine ⟨hexit, fun e he => (heffect e he).2, hrows, ?_⟩
  constructor
  · intro heq e he
    rw [heq, List.self_eq_append_right] at hrows
    have hnone := List.filterMap_eq_nil_iff.mp hrows e he
    cases hi : e.1.isInsert with
    | false => rfl
    | true =>
      have hsome := (heffect e he).2 hi
      rw [hnone] at hsome
      exact absurd hsome (by simp)
  · intro hnone
    apply Info.ext
    rw [hrows, List.append_right_eq_self, List.filterMap_eq_nil_iff]
    intro e he
    have hselect := hnone e he
    cases hq' : e.1 with
    | select w => rfl
    | insert w port list index period gates =>
      rw [hq'] at hselect
      exact absurd hselect (by simp [Statement.isInsert])

/-- One switch whose two ports have the same number. -/
def twicePort : Switx where
  number := "64".toList
  ports := [⟨1, [⟨10, 1⟩], by decide⟩, ⟨1, [⟨20, 2⟩], by decide⟩]

theorem trace_twicePort : (insertConfigInDB [twicePort]).trace (serve decimal) .empty =
    [(.select "64".toList, .lists []), (.insert "64".toList 1 1 0 10 1, .done)] ++
      [(.insert "64".toList 1 1 0 20 2, .error)] := by
  decide +kernel

theorem insertConfigInDB_refused_twicePort :
    ((insertConfigInDB [twicePort]).run (serve decimal) .empty).2.rows =
      Info.empty.rows ++ [⟨64, 1, 1, 0, 10, 1⟩] :=
  (insertConfigInDB_refused decimal .empty [twicePort] trace_twicePort).2.2.1.trans
    (by decide +kernel)

/-- The second INSERT is refused, and the first one stays. -/
theorem insertConfigInDB_keeps_first : ∃ before q,
    (insertConfigInDB [twicePort]).trace (serve decimal) .empty = before ++ [(q, .error)] ∧
    q.isInsert = true ∧ ((insertConfigInDB [twicePort]).run (serve decimal) .empty).2 ≠ .empty := by
  refine ⟨_, _, trace_twicePort, rfl, ?_⟩
  intro heq
  have hrows : ((insertConfigInDB [twicePort]).run (serve decimal) .empty).2.rows ≠ [] := by
    decide +kernel
  exact hrows (congrArg Info.rows heq)

end Refused

end Store
end TsnController

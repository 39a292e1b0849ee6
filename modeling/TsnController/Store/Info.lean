import Mathlib.Data.List.Dedup
import Mathlib.Data.List.Sort
import TsnController.CLib.Text

/-!
# The table `info`

`mydata.sql`: six `int` columns, the first four of them the primary key. The table carries its
constraints: a column is an `Int32`, and no two rows have one key. A statement is executed as a
whole or not at all, and every accepted one is committed at once.

The server reads a switch number from the text the client puts into the statement. What it makes of
that text is the parameter `sqlInt`: an integer, or nothing, and then the statement is an error.
Only two things about it matter here, that a statement means the same each time and that both
statements of the client understand the number alike.
-/

set_option autoImplicit false

namespace TsnController
namespace Store

open CLib

structure Row where
  switchNumber : Int32
  portNumber : Int32
  listNumber : Int32
  index : Int32
  period : Int32
  gatesState : Int32
  deriving DecidableEq

/-- The primary key. -/
def Row.key (r : Row) : Int32 × Int32 × Int32 × Int32 :=
  (r.switchNumber, r.portNumber, r.listNumber, r.index)

/-- The rows, in the order in which they were inserted. -/
structure Info where
  rows : List Row
  nodup : (rows.map Row.key).Nodup

namespace Info

@[ext] theorem ext {t u : Info} (h : t.rows = u.rows) : t = u := by
  cases t
  cases u
  cases h
  rfl

def empty : Info := ⟨[], List.nodup_nil⟩

/-- The rows that `mydata.sql` puts into the table. -/
def mydata : Info where
  rows :=
    [⟨64, 1, 1, 0, 200000, 128⟩, ⟨64, 1, 1, 1, 100000, 64⟩, ⟨64, 1, 1, 2, 100000, 32⟩,
      ⟨64, 1, 1, 3, 300000, 129⟩, ⟨64, 1, 1, 4, 600000, 3⟩, ⟨64, 1, 2, 0, 200000, 128⟩,
      ⟨64, 1, 2, 1, 100000, 64⟩, ⟨64, 1, 2, 2, 100000, 32⟩, ⟨64, 1, 2, 3, 100000, 16⟩,
      ⟨64, 1, 2, 4, 100000, 8⟩, ⟨64, 1, 2, 5, 100000, 4⟩, ⟨64, 1, 2, 6, 100000, 2⟩,
      ⟨64, 1, 2, 7, 100000, 1⟩, ⟨64, 1, 3, 0, 200000, 128⟩, ⟨64, 1, 3, 1, 100000, 64⟩,
      ⟨64, 2, 1, 0, 300000, 129⟩, ⟨64, 2, 1, 1, 600000, 3⟩, ⟨64, 2, 1, 2, 300000, 3⟩,
      ⟨64, 3, 1, 0, 800000, 131⟩, ⟨64, 3, 1, 1, 400000, 130⟩, ⟨64, 3, 1, 2, 600000, 129⟩,
      ⟨65, 1, 1, 0, 300000, 3⟩, ⟨65, 1, 1, 1, 300000, 129⟩, ⟨65, 1, 1, 2, 600000, 3⟩,
      ⟨65, 1, 1, 3, 500000, 14⟩, ⟨65, 1, 2, 0, 100000, 16⟩, ⟨65, 1, 2, 1, 100000, 8⟩,
      ⟨65, 1, 2, 2, 50, 14⟩, ⟨65, 1, 3, 0, 200000, 128⟩, ⟨65, 1, 3, 1, 100000, 64⟩,
      ⟨65, 3, 1, 0, 200000, 128⟩, ⟨65, 3, 1, 1, 100000, 64⟩, ⟨65, 3, 1, 2, 100000, 32⟩]
  nodup := by decide +kernel

/-- The rows of a switch. -/
def ofSwitch (t : Info) (s : Int) : List Row := t.rows.filter (·.switchNumber.toInt = s)

/-- The rows of one list of a switch. -/
def ofList (t : Info) (s : Int) (n : Int32) : List Row :=
  (t.ofSwitch s).filter (·.listNumber = n)

/-- `order by list_number DESC`. -/
def Descending (a b : Int32) : Prop := b.toInt ≤ a.toInt

instance : DecidableRel Descending := fun a b => inferInstanceAs (Decidable (b.toInt ≤ a.toInt))

/-- `select list_number, switch_number from info group by switch_number, list_number
HAVING switch_number=s order by list_number DESC`, its first column. -/
def lists (t : Info) (s : Int) : List Int32 :=
  (((t.ofSwitch s).map (·.listNumber)).dedup).insertionSort Descending

/-- `order by port_number, index_ asc`. -/
def Ascending (a b : Row) : Prop :=
  a.portNumber.toInt < b.portNumber.toInt ∨
    (a.portNumber.toInt = b.portNumber.toInt ∧ a.index.toInt ≤ b.index.toInt)

instance : DecidableRel Ascending := fun _ _ => inferInstanceAs (Decidable (_ ∨ _))

/-- The query of `Select_args`: `SELECT port_number, index_, period, gates_state from info where
switch_number = s and list_number = n order by port_number, index_ asc`. -/
def selectArgs (t : Info) (s : Int) (n : Int32) : List (Int32 × Int32 × Int32 × Int32) :=
  ((t.ofList s n).insertionSort Ascending).map
    fun r => (r.portNumber, r.index, r.period, r.gatesState)

/-- A new row, unless its key is taken. -/
def add (t : Info) (r : Row) : Option Info :=
  if h : r.key ∈ t.rows.map Row.key then none
  else some ⟨t.rows ++ [r], by
    rw [List.map_append, List.map_singleton]
    exact List.nodup_append_comm.mp (List.nodup_cons.mpr ⟨h, t.nodup⟩)⟩

theorem rows_of_add {t t' : Info} {r : Row} (h : t.add r = some t') : t'.rows = t.rows ++ [r] := by
  unfold add at h
  split at h
  · exact absurd h (by simp)
  · cases h
    rfl

theorem mem_ofSwitch {t : Info} {s : Int} {r : Row} :
    r ∈ t.ofSwitch s ↔ r ∈ t.rows ∧ r.switchNumber.toInt = s := by
  unfold ofSwitch
  simp

/-! ## The queries -/

instance : Std.Total Descending := ⟨fun a b => Int.le_total b.toInt a.toInt⟩

instance : IsTrans Int32 Descending := ⟨fun _ _ _ hab hbc => Int.le_trans hbc hab⟩

theorem mem_lists {t : Info} {s : Int} {n : Int32} :
    n ∈ t.lists s ↔ ∃ r ∈ t.ofSwitch s, r.listNumber = n := by
  unfold lists
  simp

/-- The first row has the greatest list number. -/
theorem le_of_lists_eq_cons {t : Info} {s : Int} {n : Int32} {rest : List Int32}
    (h : t.lists s = n :: rest) : ∀ r ∈ t.ofSwitch s, r.listNumber.toInt ≤ n.toInt := by
  intro r hr
  have hmem : r.listNumber ∈ n :: rest := h ▸ mem_lists.mpr ⟨r, hr, rfl⟩
  have hsorted : List.Pairwise Descending (n :: rest) := h ▸ List.pairwise_insertionSort _ _
  rcases List.mem_cons.mp hmem with heq | hin
  · rw [heq]
  · exact (List.pairwise_cons.mp hsorted).1 _ hin

theorem ofSwitch_eq_nil_of_lists {t : Info} {s : Int} (h : t.lists s = []) : t.ofSwitch s = [] := by
  apply List.eq_nil_iff_forall_not_mem.mpr
  intro r hr
  have hmem : r.listNumber ∈ t.lists s := mem_lists.mpr ⟨r, hr, rfl⟩
  rw [h] at hmem
  exact absurd hmem (by simp)

instance : Std.Total Ascending := ⟨fun a b => by unfold Ascending; omega⟩

instance : IsTrans Row Ascending := ⟨fun _ _ _ hab hbc => by unfold Ascending at *; omega⟩

/-- Within a port `Select_args` keeps the order of insertion, if it is the order of the indices. -/
theorem filter_selectArgs {t : Info} {s : Int} {n : Int32}
    (h : (t.ofList s n).Pairwise fun a b => a.portNumber = b.portNumber →
      a.index.toInt ≤ b.index.toInt) (p : Int32) :
    (t.selectArgs s n).filter (·.1 = p) = ((t.ofList s n).filter (·.portNumber = p)).map
      fun r => (r.portNumber, r.index, r.period, r.gatesState) := by
  unfold selectArgs
  rw [List.filter_map]
  apply congrArg
  show ((t.ofList s n).insertionSort Ascending).filter (·.portNumber = p) = _
  -- the rows of the port are already sorted, so sorting all rows leaves them in their order
  have hsorted : ((t.ofList s n).filter (·.portNumber = p)).Pairwise Ascending := by
    apply (h.filter _).imp_of_mem
    intro a b ha hb hab
    have hpa : a.portNumber = p := by simpa using (List.mem_filter.mp ha).2
    have hpb : b.portNumber = p := by simpa using (List.mem_filter.mp hb).2
    refine Or.inr ⟨by rw [hpa, hpb], hab (hpa.trans hpb.symm)⟩
  have hsub := (List.sublist_insertionSort hsorted List.filter_sublist).filter (·.portNumber = p)
  rw [List.filter_filter] at hsub
  simp only [Bool.and_self] at hsub
  apply (hsub.eq_of_length _).symm
  exact ((List.perm_insertionSort Ascending (t.ofList s n)).filter _).length_eq.symm

end Info

/-! ## Statements -/

/-- The two statements of `InsertConfigInDB`. A switch number is text, because it is put into the
statement as it was read; the period is the number that was printed. -/
inductive Statement
  | select (switchNumber : Text)
  | insert (switchNumber : Text) (portNumber listNumber index : Int32) (period : Int)
      (gatesState : Int32)
  deriving DecidableEq

def Statement.isInsert : Statement → Bool
  | .insert .. => true
  | .select _ => false

inductive Answer
  | error
  | done
  /-- the list numbers of a switch, in the order of the query -/
  | lists (numbers : List Int32)
  deriving DecidableEq

/-- A value for an `int` column. Out of range it is an error and not a warning, since the server's
default mode is strict. -/
def toColumn (n : Int) : Option Int32 :=
  if -0x80000000 ≤ n ∧ n < 0x80000000 then some (Int32.ofInt n) else none

/-- The plainest `sqlInt`: digits. -/
def decimal (w : Text) : Option Int :=
  if w ≠ [] ∧ w.all Char.isDigit then some (Nat.ofDigitChars 10 w 0 : Nat) else none

variable (sqlInt : Text → Option Int)

/-- The row an INSERT is about. -/
def rowOf : Statement → Option Row
  | .insert switchNumber portNumber listNumber index period gatesState => do
    let s ← sqlInt switchNumber
    let s ← toColumn s
    let p ← toColumn period
    some ⟨s, portNumber, listNumber, index, p, gatesState⟩
  | .select _ => none

/-- `mysql_query`. -/
def serve (t : Info) : Statement → Answer × Info
  | .select switchNumber =>
    match sqlInt switchNumber with
    | none => (.error, t)
    | some s => (.lists (t.lists s), t)
  | .insert switchNumber portNumber listNumber index period gatesState =>
    match (rowOf sqlInt (.insert switchNumber portNumber listNumber index period gatesState)).bind
        t.add with
    | none => (.error, t)
    | some t' => (.done, t')

/-! ## What a statement changes -/

/-- Everything a statement can do. -/
theorem serve_cases (t : Info) (q : Statement) :
    serve sqlInt t q = (.error, t) ∨
    (∃ w s, q = .select w ∧ sqlInt w = some s ∧ serve sqlInt t q = (.lists (t.lists s), t)) ∨
    ∃ r t', rowOf sqlInt q = some r ∧ t.add r = some t' ∧ serve sqlInt t q = (.done, t') := by
  cases q with
  | select w =>
    unfold serve
    cases h : sqlInt w with
    | none => exact Or.inl (by simp only [h])
    | some s => exact Or.inr (Or.inl ⟨w, s, rfl, h, by simp only [h]⟩)
  | insert w port list index period gates =>
    unfold serve
    cases h : (rowOf sqlInt (.insert w port list index period gates)).bind t.add with
    | none => exact Or.inl (by simp only [h])
    | some t' =>
      obtain ⟨r, hr, ha⟩ := Option.bind_eq_some_iff.mp h
      exact Or.inr (Or.inr ⟨r, t', hr, ha, by simp only [h]⟩)

/-- The row that a statement has added, given its answer. -/
def accepted (e : Statement × Answer) : Option Row :=
  if e.2 = .done then rowOf sqlInt e.1 else none

/-- **The only thing that ever happens to the table** is that the row of an accepted INSERT is
added. -/
theorem rows_serve (t : Info) (q : Statement) :
    (serve sqlInt t q).2.rows = t.rows ++ (accepted sqlInt (q, (serve sqlInt t q).1)).toList := by
  rcases serve_cases sqlInt t q with h | ⟨w, s, _, _, h⟩ | ⟨r, t', hr, ha, h⟩
  · rw [h]
    simp [accepted]
  · rw [h]
    simp [accepted]
  · rw [h, Info.rows_of_add ha]
    simp [accepted, hr]

/-- A statement that is not refused has had its effect. -/
theorem accepted_of_ne_error {t : Info} {q : Statement} (h : (serve sqlInt t q).1 ≠ .error) :
    accepted sqlInt (q, (serve sqlInt t q).1) = rowOf sqlInt q ∧
      (q.isInsert = true → (rowOf sqlInt q).isSome = true) := by
  rcases serve_cases sqlInt t q with hs | ⟨w, s, rfl, _, hs⟩ | ⟨r, t', hr, _, hs⟩
  · rw [hs] at h
    exact absurd rfl h
  · rw [hs]
    exact ⟨rfl, fun hq => absurd hq (by simp [Statement.isInsert])⟩
  · rw [hs]
    exact ⟨if_pos rfl, fun _ => by rw [hr]; rfl⟩

theorem toInt_of_toColumn {n : Int} {c : Int32} (h : toColumn n = some c) : c.toInt = n := by
  unfold toColumn at h
  split at h
  · rename_i hn
    cases h
    exact Int32.toInt_ofInt_of_le (by omega) (by omega)
  · exact absurd h (by simp)

end Store
end TsnController

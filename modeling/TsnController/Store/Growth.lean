import TsnController.Store.Insert

/-!
# What every store does to the table

Whether `InsertConfigInDB` comes to its end or exits on the way, the table afterwards is the table
before with rows behind it, and a new row has a list number beyond all that its switch had. That is
all a reader of the table has to know about the writer (`Grows`): a list that has a row once is the
same list ever after, complete or not.
-/

set_option autoImplicit false

namespace TsnController
namespace Store

open CLib Lib

/-- New rows stand behind the old ones, and under list numbers beyond those of their switch. -/
def Grows (t t' : Info) : Prop :=
  ∃ new : List Row, t'.rows = t.rows ++ new ∧
    ∀ r ∈ new, ∀ q ∈ t.rows, q.switchNumber = r.switchNumber →
      q.listNumber.toInt < r.listNumber.toInt

theorem Grows.refl (t : Info) : Grows t t :=
  ⟨[], (List.append_nil _).symm, fun _ hr => absurd hr List.not_mem_nil⟩

theorem Grows.trans {t t' t'' : Info} (h : Grows t t') (h' : Grows t' t'') : Grows t t'' := by
  obtain ⟨new, hrows, hbeyond⟩ := h
  obtain ⟨new', hrows', hbeyond'⟩ := h'
  refine ⟨new ++ new', by rw [hrows', hrows, List.append_assoc], ?_⟩
  intro r hr q hq
  rcases List.mem_append.mp hr with hr | hr
  · exact hbeyond r hr q hq
  · exact hbeyond' r hr q (hrows ▸ List.mem_append_left _ hq)

theorem Grows.rows_prefix {t t' : Info} (h : Grows t t') : t.rows <+: t'.rows := by
  obtain ⟨new, hrows, _⟩ := h
  exact hrows ▸ List.prefix_append _ _

/-- The rows of one list of a switch, both given by their numbers. -/
def Info.numbered (t : Info) (s n : Int) : List Row :=
  t.rows.filter fun r => r.switchNumber.toInt = s ∧ r.listNumber.toInt = n

/-- **A list that is in use stays as it is.** -/
theorem Grows.numbered_of_used {t t' : Info} {s n : Int} (h : Grows t t')
    (hused : t.numbered s n ≠ []) : t'.numbered s n = t.numbered s n := by
  obtain ⟨new, hrows, hbeyond⟩ := h
  obtain ⟨q, hq⟩ := List.exists_mem_of_ne_nil _ hused
  obtain ⟨hq, hqn⟩ := List.mem_filter.mp hq
  obtain ⟨hqs, hqn⟩ := of_decide_eq_true hqn
  -- none of the new rows is in the list
  have hnone : (new.filter fun r => r.switchNumber.toInt = s ∧ r.listNumber.toInt = n) = [] := by
    apply List.filter_eq_nil_iff.mpr
    intro r hr hin
    obtain ⟨hrs, hrn⟩ := of_decide_eq_true hin
    have hsame : q.switchNumber = r.switchNumber := Int32.toInt_inj.mp (hqs.trans hrs.symm)
    have hlt := hbeyond r hr q hq hsame
    rw [hqn, hrn] at hlt
    exact Int.lt_irrefl _ hlt
  unfold Info.numbered
  rw [hrows, List.filter_append, hnone, List.append_nil]

/-! ## Stores -/

section Stores

variable (sqlInt : Text → Option Int)

/-- What INSERTs one after the other leave, also if one of them is refused. -/
theorem rows_insertAll (qs : List Statement) : ∀ t : Info,
    ∃ new : List Row, ((insertAll qs).run (serve sqlInt) t).2.rows = t.rows ++ new ∧
      ∀ r ∈ new, ∃ q ∈ qs, rowOf sqlInt q = some r := by
  induction qs with
  | nil =>
    intro t
    exact ⟨[], (List.append_nil _).symm, fun r hr => absurd hr List.not_mem_nil⟩
  | cons q qs ih =>
    intro t
    obtain ⟨k, hcall, herror, hgo⟩ := insertAll_cons q qs
    rw [hcall, Proc.run_call]
    rcases serve_cases sqlInt t q with hs | ⟨w, s, _, _, hs⟩ | ⟨r, t₁, hr, ha, hs⟩
    · rw [hs, herror]
      exact ⟨[], (List.append_nil _).symm, fun r hr => absurd hr List.not_mem_nil⟩
    · rw [hs, hgo (.lists (t.lists s)) (by simp)]
      obtain ⟨new, hrows, hnew⟩ := ih t
      refine ⟨new, hrows, fun r' hr' => ?_⟩
      obtain ⟨q', hq', hrow⟩ := hnew r' hr'
      exact ⟨q', List.mem_cons_of_mem q hq', hrow⟩
    · rw [hs, hgo .done (by simp)]
      obtain ⟨new, hrows, hnew⟩ := ih t₁
      refine ⟨r :: new, ?_, ?_⟩
      · rw [hrows, Info.rows_of_add ha, List.append_assoc]
        rfl
      · intro r' hr'
        rcases List.mem_cons.mp hr' with rfl | hr'
        · exact ⟨q, List.mem_cons_self, hr⟩
        · obtain ⟨q', hq', hrow⟩ := hnew r' hr'
          exact ⟨q', List.mem_cons_of_mem q hq', hrow⟩

/-- The entries of a switch under the next list number. -/
theorem grows_requests {sw : Switx} {t : Info} {s : Int} {n : Int32}
    (hnumber : sqlInt sw.number = some s) (hnext : IsNext t s n) :
    Grows t ((insertAll (requests sw n)).run (serve sqlInt) t).2 := by
  obtain ⟨new, hrows, hnew⟩ := rows_insertAll sqlInt (requests sw n) t
  refine ⟨new, hrows, ?_⟩
  intro r hr q hq hsame
  obtain ⟨x, hx, hrow⟩ := hnew r hr
  obtain ⟨e, _, rfl⟩ := List.mem_map.mp hx
  obtain ⟨hrs, hrn, _⟩ := rowOf_request hrow
  rw [hnumber] at hrs
  have hqs : q.switchNumber.toInt = s := by
    rw [hsame]
    exact (Option.some.inj hrs).symm
  rw [hrn]
  exact hnext.lt q (Info.mem_ofSwitch.mpr ⟨hq, hqs⟩)

theorem grows_insertSwitch (sw : Switx) (t : Info) :
    Grows t ((insertSwitch sw).run (serve sqlInt) t).2 := by
  rw [insertSwitch_eq, Proc.run_call]
  rcases serve_cases sqlInt t (.select sw.number) with hs | ⟨w, s, hw, hnumber, hs⟩ |
    ⟨r, t₁, hr, _, _⟩
  · rw [hs]
    exact Grows.refl t
  · cases hw
    rw [hs]
    rcases nextListNumber_lists t s with ⟨n, hn, hnext⟩ | hhalt
    · simp only [hn, Proc.ret_bind, Proc.run_bind]
      have hgrows := grows_requests sqlInt hnumber hnext
      revert hgrows
      cases (insertAll (requests sw n)).run (serve sqlInt) t with
      | mk result t' =>
        intro hgrows
        cases result with
        | ok u => exact hgrows
        | error e => exact hgrows
    · simp only [hhalt, Proc.halt_bind]
      exact Grows.refl t
  · exact absurd hr (by simp [rowOf])

/-- **A store lets the table grow**, also one that exits on the way. -/
theorem grows_insertConfigInDB (switches : List Switx) : ∀ t : Info,
    Grows t ((insertConfigInDB switches).run (serve sqlInt) t).2 := by
  induction switches with
  | nil => exact Grows.refl
  | cons sw rest ih =>
    apply Proc.run_bind_rel (serve sqlInt) (r := Grows) Grows.trans (grows_insertSwitch sqlInt sw)
    intro n
    exact Proc.run_bind_rel (serve sqlInt) (r := Grows) Grows.trans ih fun _ t => Grows.refl t

end Stores

end Store
end TsnController

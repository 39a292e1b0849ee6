import TsnController.Store.Arguments

/-!
# `ReadFile.c`: the options of `select`

The command buffer is a local array of `main`. It is never initialised, and what is cleared after a
command is the command itself, so that behind the terminator of a line anything may stand
(`Buffer`). `Select_args` asks `ReadArgumentValue` for two options in it, with the length of the
line as the count.

A call can go four ways (`selectArgument_goes`): the value is found in the line; the letter is its
last character and the value is taken from behind the terminator; there is no option and the count
ends the loop in time; or there is none and it does not. The two results, where the loop reads and
what it finds, are read off from that.
-/

set_option autoImplicit false

namespace TsnController
namespace Store

open CLib

/-! ## The command buffer -/

/-- `strlen`. -/
def strlen (str : Text) : Nat := (str.takeWhile (· ≠ nul)).length

/-- What is typed, without its newline. `fgets` leaves room for the terminator. -/
structure CommandLine where
  text : Text
  terminated : nul ∉ text
  fits : text.length ≤ 255

/-- `char buffer[256]` when it holds the line. -/
structure Buffer (line : CommandLine) where
  stale : Text
  size : line.text.length + 1 + stale.length = 256

namespace Buffer

variable {line : CommandLine}

def bytes (b : Buffer line) : Text := line.text ++ nul :: b.stale

/-- The buffer in which the terminator is followed by these bytes, as far as they fit, and then by
letters. -/
def fill (line : CommandLine) (start : Text) : Buffer line where
  stale := (start ++ List.replicate (255 - line.text.length) 'a').take (255 - line.text.length)
  size := by
    have hfits := line.fits
    rw [List.length_take, List.length_append, List.length_replicate]
    omega

end Buffer

/-! ## `Select_args` -/

/-- The size of `input_switch` and `input_list`. -/
def destSize : Nat := 10

/-- What the destination holds afterwards. -/
def ArgumentRead.result (r : ArgumentRead) : Except Halt Text :=
  if r.outside = true ∨ destSize ≤ r.appended.length then .error .undefined else .ok r.appended

/-- The calls in `Select_args`, for the letters `s` and `l`. -/
def selectArgument (arg : Char) {line : CommandLine} (b : Buffer line) : ArgumentRead :=
  readArgumentValue arg b.bytes (strlen b.bytes)

/-- `Select_args` up to its query. -/
def selectArgsQuery {line : CommandLine} (b : Buffer line) : Except Halt Text := do
  let inputSwitch ← (selectArgument 's' b).result
  let inputList ← (selectArgument 'l' b).result
  .ok ("SELECT  port_number, index_, period, gates_state from info where switch_number = ".toList
    ++ inputSwitch ++ " and list_number = ".toList ++ inputList
    ++ " order by port_number, index_ asc".toList)

/-! ## How a call goes -/

section Select

variable {arg : Char} {line : CommandLine}

theorem strlen_bytes (b : Buffer line) : strlen b.bytes = line.text.length := by
  have hall : ∀ c ∈ line.text, decide (c ≠ nul) = true := by
    intro c hc
    exact decide_eq_true fun heq => line.terminated (heq ▸ hc)
  unfold strlen Buffer.bytes
  rw [List.takeWhile_append_of_pos hall, List.takeWhile_cons_of_neg (by simp), List.append_nil]

/-- The loop comes to the option, and the value is read from the third place behind the hyphen. -/
theorem selectArgument_found {pre rest : Text} {k : Nat}
    (hline : line.text = pre ++ '-' :: arg :: rest) (h : Passes arg pre k) (b : Buffer line) :
    selectArgument arg b = (readValue (pre.length + 3) (rest ++ nul :: b.stale).tail).after
      (List.range' 0 (pre.length + 2)) := by
  have hk := h.hyphens_le
  have hlength : line.text.length = pre.length + (rest.length + 1 + k + 1) - k := by
    rw [hline, List.length_append, List.length_cons, List.length_cons]
    omega
  have hrange : List.range' 0 pre.length ++ [pre.length, pre.length + 1] =
      List.range' 0 (pre.length + 2) := by
    rw [← List.range'_append_1, Nat.zero_add]
    rfl
  unfold selectArgument readArgumentValue
  rw [strlen_bytes, hlength, Buffer.bytes, hline, List.append_assoc, h.loop_eq, List.cons_append,
    List.cons_append, readArgumentLoop_pair, if_pos rfl, Nat.zero_add, ArgumentRead.after_after,
    hrange]

theorem valueAt_found {pre r : Text} {sep : Char} :
    valueAt (pre ++ '-' :: arg :: sep :: r) (pre.length + 3) = r.takeWhile isalnum := by
  have hdrop : (pre ++ '-' :: arg :: sep :: r).drop (pre.length + 3) = r := by
    rw [List.drop_append, List.drop_eq_nil_of_le (Nat.le_add_right _ 3), Nat.add_sub_cancel_left]
    rfl
  rw [valueAt, hdrop]

/-- The run reads inside the line, terminator included, and finds a value there. -/
def Finds (arg : Char) (line : CommandLine) (value : Text) : Prop :=
  ∀ b : Buffer line, ∃ examined, (∀ i ∈ examined, i ≤ line.text.length) ∧
    selectArgument arg b = ⟨examined, value, false⟩

/-- With something behind the letter the value ends with the line at the latest. -/
theorem finds_value {pre r : Text} {sep : Char} {k : Nat}
    (hline : line.text = pre ++ '-' :: arg :: sep :: r) (h : Passes arg pre k) :
    Finds arg line (valueAt line.text (pre.length + 3)) := by
  intro b
  have hlength : line.text.length = pre.length + 3 + r.length := by
    rw [hline, List.length_append, List.length_cons, List.length_cons, List.length_cons]
    omega
  have hrun : (r.takeWhile isalnum).length ≤ r.length := (List.takeWhile_sublist _).length_le
  refine ⟨List.range' 0 (pre.length + 2) ++
    List.range' (pre.length + 3) ((r.takeWhile isalnum).length + 1), ?_, ?_⟩
  · intro i hi
    rcases List.mem_append.mp hi with hi | hi
    · have hlt := List.mem_range'_1.mp hi
      omega
    · have hlt := List.mem_range'_1.mp hi
      omega
  · rw [selectArgument_found hline h, hline, valueAt_found, List.cons_append, List.tail_cons,
      readValue_terminated]
    rfl

theorem bytes_eq (b : Buffer line) : b.bytes = line.text ++ [nul] ++ b.stale := by
  rw [List.append_assoc]
  rfl

/-- At most one hyphen is reached: the counter ends the loop in time. -/
theorem finds_nothing {k : Nat} (h : Passes arg (line.text ++ [nul]) k) (hk : k ≤ 1) :
    Finds arg line [] := by
  intro b
  have hlength : (line.text ++ [nul]).length = line.text.length + 1 := List.length_append
  obtain ⟨examined, hlt, heq⟩ := h.loop_short b.stale line.text.length 0 (by omega)
  refine ⟨examined, ?_, ?_⟩
  · intro i hi
    have hi' := hlt i hi
    omega
  · unfold selectArgument readArgumentValue
    rw [strlen_bytes, bytes_eq, heq]

/-- With more of them it goes on behind the terminator. -/
theorem selectArgument_beyond {k : Nat} (h : Passes arg (line.text ++ [nul]) (k + 2))
    (b : Buffer line) : selectArgument arg b =
      (readArgumentLoop arg (k + 1) (line.text.length + 1) b.stale).after
        (List.range' 0 (line.text.length + 1)) := by
  have hlength : (line.text ++ [nul]).length = line.text.length + 1 := List.length_append
  have hcount : line.text.length = (line.text ++ [nul]).length + (k + 1) - (k + 2) := by omega
  unfold selectArgument readArgumentValue
  rw [strlen_bytes, bytes_eq, hcount, h.loop_eq, ← hcount, hlength, Nat.zero_add]

/-- The four ways a call can go. -/
inductive Goes (arg : Char) (line : CommandLine) : Prop
  | found {i : Nat} : First (Seen arg line.text) i → i + 2 < line.text.length →
      Finds arg line (valueAt line.text (i + 3)) → Goes arg line
  /-- the letter is the last character, and the value is read from behind the terminator -/
  | last {i : Nat} : First (Seen arg line.text) i → i + 2 = line.text.length →
      (∀ b : Buffer line, selectArgument arg b =
        (readValue (line.text.length + 1) b.stale).after (List.range' 0 line.text.length)) →
      Goes arg line
  | nothing : (∀ i, ¬ Seen arg line.text i) → FewHyphens line.text → Finds arg line [] →
      Goes arg line
  /-- the counter has not ended the loop at the terminator -/
  | beyond {k : Nat} : (∀ i, ¬ Seen arg line.text i) → ¬ FewHyphens line.text →
      (∀ b : Buffer line, selectArgument arg b =
        (readArgumentLoop arg (k + 1) (line.text.length + 1) b.stale).after
          (List.range' 0 (line.text.length + 1))) →
      Goes arg line

theorem isalpha_ne_nul (harg : arg.isAlpha = true) : arg ≠ nul := by
  rintro rfl
  exact absurd harg (by decide)

theorem selectArgument_goes (harg : arg.isAlpha = true) (line : CommandLine) : Goes arg line := by
  rcases exists_passes (isalpha_ne_nul harg) line.text with ⟨pre, rest, k, hline, h⟩ | ⟨k, h⟩
  · have hfirst : First (Seen arg line.text) pre.length := hline ▸ h.first_seen rest
    cases rest with
    | nil =>
      have hlength : pre.length + 2 = line.text.length := by
        rw [hline, List.length_append]
        rfl
      refine .last hfirst hlength fun b => ?_
      rw [selectArgument_found hline h, ← hlength]
      rfl
    | cons sep r =>
      refine .found hfirst ?_ (finds_value hline h)
      rw [hline, List.length_append, List.length_cons, List.length_cons, List.length_cons]
      omega
  · have hfew : k ≤ 1 ↔ FewHyphens line.text := h.le_one_iff.trans (fewHyphens_terminated _)
    by_cases hk : k ≤ 1
    · exact .nothing h.unseen (hfew.mp hk) (finds_nothing h hk)
    · obtain ⟨m, rfl⟩ : ∃ m, k = m + 2 := ⟨k - 2, by omega⟩
      exact .beyond h.unseen (mt hfew.mpr hk) (selectArgument_beyond h)

theorem mem_examined_readArgumentLoop (n offset : Nat) (pos : Text) :
    offset ∈ (readArgumentLoop arg (n + 1) offset pos).examined := by
  cases pos with
  | nil => exact List.mem_cons_self
  | cons c cs =>
    by_cases hc : c = '-'
    · subst hc
      cases cs with
      | nil => exact List.mem_cons_self
      | cons d ds =>
        rw [readArgumentLoop_pair]
        split
        · exact List.mem_cons_self
        · exact List.mem_cons_self
    · rw [readArgumentLoop_plain hc]
      exact List.mem_cons_self

/-! ## Where the loop reads -/

/-- The run depends on the line alone: it examines nothing behind the terminator, copies no more
than the destination holds, and ends the same whatever follows the line. -/
structure StaysInside (arg : Char) (line : CommandLine) : Prop where
  examined : ∀ b : Buffer line, ∀ i ∈ (selectArgument arg b).examined, i ≤ line.text.length
  appended : ∀ b : Buffer line, (selectArgument arg b).appended.length < destSize
  same : ∀ b b' : Buffer line, (selectArgument arg b).result = (selectArgument arg b').result

theorem Finds.staysInside {value : Text} (h : Finds arg line value)
    (hshort : value.length < destSize) : StaysInside arg line := by
  constructor
  · intro b
    obtain ⟨examined, hle, heq⟩ := h b
    rw [heq]
    exact hle
  · intro b
    obtain ⟨examined, _, heq⟩ := h b
    rw [heq]
    exact hshort
  · intro b b'
    obtain ⟨examined, _, heq⟩ := h b
    obtain ⟨examined', _, heq'⟩ := h b'
    rw [heq, heq']
    rfl

/-- **The loop stays inside its buffers** exactly if the option is there with something behind it
and a value of at most nine characters, or is not there and the line has no more hyphens than the
counter allows for. -/
theorem selectArgument_inside_iff (harg : arg.isAlpha = true) (line : CommandLine) :
    StaysInside arg line ↔
      (∃ i, First (Seen arg line.text) i ∧ i + 2 < line.text.length ∧
        (valueAt line.text (i + 3)).length < destSize) ∨
      ((∀ i, ¬ Seen arg line.text i) ∧ FewHyphens line.text) := by
  cases selectArgument_goes harg line with
  | @found i hfirst hafter hfinds =>
    constructor
    · intro hinside
      obtain ⟨examined, _, heq⟩ := hfinds (Buffer.fill line [])
      have hshort := hinside.appended (Buffer.fill line [])
      rw [heq] at hshort
      exact Or.inl ⟨i, hfirst, hafter, hshort⟩
    · rintro (⟨j, hj, _, hshort⟩ | ⟨hnone, _⟩)
      · rw [hj.eq hfirst] at hshort
        exact hfinds.staysInside hshort
      · exact absurd hfirst.1 (hnone i)
  | @last i hfirst hend heq =>
    constructor
    · intro hinside
      have hle := hinside.examined (Buffer.fill line []) (line.text.length + 1) (by
        rw [heq]
        exact List.mem_append_right _ (mem_examined_readValue _ _))
      omega
    · rintro (⟨j, hj, hlt, _⟩ | ⟨hnone, _⟩)
      · rw [hj.eq hfirst] at hlt
        omega
      · exact absurd hfirst.1 (hnone i)
  | nothing hnone hfew hfinds =>
    constructor
    · exact fun _ => Or.inr ⟨hnone, hfew⟩
    · exact fun _ => hfinds.staysInside (by decide)
  | beyond hnone hmany heq =>
    constructor
    · intro hinside
      have hle := hinside.examined (Buffer.fill line []) (line.text.length + 1) (by
        rw [heq]
        exact List.mem_append_right _ (mem_examined_readArgumentLoop _ _ _))
      omega
    · rintro (⟨j, hj, _⟩ | ⟨_, hfew⟩)
      · exact absurd hj.1 (hnone j)
      · exact absurd hfew hmany

/-- Two options with a value. -/
theorem selectArgument_inside_sample : ∃ line : CommandLine,
    line.text = "select -s 64 -l 12".toList ∧ StaysInside 'l' line := by
  refine ⟨⟨_, by decide, by decide⟩, rfl, ?_⟩
  exact (selectArgument_inside_iff rfl _).mpr (Or.inl ⟨13, by decide, by decide, by decide⟩)

/-- The letter is the last character; or two hyphens are passed; or the value is too long. In the
first case the result is what happens to stand behind the line. -/
theorem selectArgument_leaves : ∃ last hyphens long : CommandLine,
    last.text = "select -s".toList ∧ hyphens.text = "select -a -b".toList ∧
    long.text = "select -s 0123456789".toList ∧
    (selectArgument 's' (Buffer.fill last ['6', nul])).result = .ok ['6'] ∧
    (selectArgument 's' (Buffer.fill last [nul])).result = .ok [] ∧
    (∃ i ∈ (selectArgument 's' (Buffer.fill hyphens [])).examined, hyphens.text.length < i) ∧
    (selectArgument 's' (Buffer.fill long [])).appended.length = 10 := by
  refine ⟨⟨_, by decide, by decide⟩, ⟨_, by decide, by decide⟩, ⟨_, by decide, by decide⟩,
    rfl, rfl, rfl, ?_⟩
  decide +kernel

/-- If both options do, the statement sent to the server is a function of the line. -/
theorem selectArgsQuery_eq (hs : StaysInside 's' line) (hl : StaysInside 'l' line)
    (b b' : Buffer line) : selectArgsQuery b = selectArgsQuery b' := by
  unfold selectArgsQuery
  rw [hs.same b b', hl.same b b']

/-! ## What the loop finds -/

theorem ArgumentRead.result_outside {r : ArgumentRead} (h : r.outside = true) :
    r.result = .error .undefined :=
  if_pos (Or.inl h)

theorem ArgumentRead.result_inside {offsets : List Nat} {value : Text}
    (h : value.length < destSize) : ArgumentRead.result ⟨offsets, value, false⟩ = .ok value := by
  apply if_neg
  rintro (hout | hlong)
  · exact absurd hout (by simp)
  · exact absurd hlong (Nat.not_le_of_lt h)

/-- What is found is what is copied. -/
theorem ArgumentRead.appended_of_result {r : ArgumentRead} {value : Text}
    (h : r.result = .ok value) : r.appended = value := by
  unfold ArgumentRead.result at h
  split at h
  · exact absurd h (by simp)
  · exact Except.ok.inj h

/-- Letters up to the end of the array. -/
theorem mem_fill_nil {c : Char} (hc : c ∈ (Buffer.fill line []).stale) : isalnum c = true := by
  rw [List.eq_of_mem_replicate (List.mem_of_mem_take hc)]
  rfl

/-- An option among the stale bytes, with letters behind it up to the end of the array. -/
theorem outside_of_stale_option (n offset m : Nat) :
    (readArgumentLoop arg (n + 1) offset
      (('-' :: arg :: List.replicate m 'a').take m)).outside = true := by
  match m with
  | 0 => rfl
  | 1 => rfl
  | m + 2 =>
    rw [List.take_succ_cons, List.take_succ_cons, readArgumentLoop_pair, if_pos rfl]
    apply readValue_outside
    intro c hc
    rw [List.eq_of_mem_replicate (List.mem_of_mem_take (List.mem_of_mem_tail hc))]
    rfl

/-- **The option is found** exactly if the hyphens directly in front of its first occurrence come in
pairs, or if it makes no difference that it is missed: a later occurrence has the same value, or
there is none and the value is empty. -/
theorem selectArgument_option_iff (harg : arg.isAlpha = true) (line : CommandLine) {i : Nat}
    (hi : First (OptionAt arg line.text) i) (hafter : i + 2 < line.text.length)
    (hshort : (valueAt line.text (i + 3)).length < destSize) :
    (∀ b : Buffer line, (selectArgument arg b).result = .ok (valueAt line.text (i + 3))) ↔
      hyphensBefore line.text i % 2 = 0 ∨
      (∃ j, First (Seen arg line.text) j ∧ j + 2 < line.text.length ∧
        valueAt line.text (j + 3) = valueAt line.text (i + 3)) ∨
      ((∀ j, ¬ Seen arg line.text j) ∧ FewHyphens line.text ∧ valueAt line.text (i + 3) = []) := by
  -- If the first occurrence is seen it is the first one seen.
  have hseen : hyphensBefore line.text i % 2 = 0 → First (Seen arg line.text) i :=
    fun heven => ⟨⟨hi.1, heven⟩, fun j hj hs => hi.2 j hj hs.1⟩
  cases selectArgument_goes harg line with
  | @found j hfirst hbehind hfinds =>
    constructor
    · intro hfound
      obtain ⟨examined, _, heq⟩ := hfinds (Buffer.fill line [])
      have happended := ArgumentRead.appended_of_result (hfound (Buffer.fill line []))
      rw [heq] at happended
      exact Or.inr (Or.inl ⟨j, hfirst, hbehind, happended⟩)
    · intro hcond b
      have hsame : valueAt line.text (j + 3) = valueAt line.text (i + 3) := by
        rcases hcond with heven | ⟨j', hj', _, hvalue⟩ | ⟨hnone, _⟩
        · rw [(hseen heven).eq hfirst]
        · rw [← hvalue, hj'.eq hfirst]
        · exact absurd hfirst.1 (hnone j)
      obtain ⟨examined, _, heq⟩ := hfinds b
      rw [heq, hsame, ArgumentRead.result_inside hshort]
  | @last j hfirst hend heq =>
    constructor
    · intro hfound
      have herror : (selectArgument arg (Buffer.fill line [])).result = .error .undefined := by
        rw [heq]
        exact ArgumentRead.result_outside (readValue_outside _ (fun c hc => mem_fill_nil hc) _)
      rw [hfound] at herror
      exact absurd herror (by simp)
    · rintro (heven | ⟨j', hj', hlt, _⟩ | ⟨hnone, _⟩)
      · rw [(hseen heven).eq hfirst] at hafter
        omega
      · rw [hj'.eq hfirst] at hlt
        omega
      · exact absurd hfirst.1 (hnone j)
  | nothing hnone hfew hfinds =>
    constructor
    · intro hfound
      obtain ⟨examined, _, heq⟩ := hfinds (Buffer.fill line [])
      have happended := ArgumentRead.appended_of_result (hfound (Buffer.fill line []))
      rw [heq] at happended
      exact Or.inr (Or.inr ⟨hnone, hfew, happended.symm⟩)
    · rintro (heven | ⟨j, hj, _⟩ | ⟨_, _, hempty⟩)
      · exact absurd (hseen heven).1 (hnone i)
      · exact absurd hj.1 (hnone j)
      · intro b
        obtain ⟨examined, _, heq⟩ := hfinds b
        rw [heq, hempty, ArgumentRead.result_inside (by decide)]
  | beyond hnone hmany heq =>
    constructor
    · intro hfound
      have herror : (selectArgument arg (Buffer.fill line ['-', arg])).result =
          .error .undefined := by
        rw [heq]
        exact ArgumentRead.result_outside (outside_of_stale_option _ _ _)
      rw [hfound] at herror
      exact absurd herror (by simp)
    · rintro (heven | ⟨j, hj, _⟩ | ⟨_, hfew, _⟩)
      · exact absurd (hseen heven).1 (hnone i)
      · exact absurd hj.1 (hnone j)
      · exact absurd hfew hmany

theorem selectArgument_option_sample : ∃ line : CommandLine,
    line.text = "select -l 12 -s 64".toList ∧
    ∀ b : Buffer line, (selectArgument 's' b).result = .ok ['6', '4'] := by
  refine ⟨⟨_, by decide, by decide⟩, rfl, ?_⟩
  exact (selectArgument_option_iff rfl _ (i := 13) (by decide) (by decide) (by decide)).mpr
    (Or.inl (by decide))

/-- A hyphen in front of the option hides it. -/
theorem selectArgument_hidden : ∃ line : CommandLine, line.text = "select --s 64".toList ∧
    First (OptionAt 's' line.text) 8 ∧ valueAt line.text 11 = ['6', '4'] ∧
    (selectArgument 's' (Buffer.fill line [])).result = .ok [] := by
  refine ⟨⟨_, by decide, by decide⟩, rfl, ?_⟩
  decide +kernel

end Select

end Store
end TsnController

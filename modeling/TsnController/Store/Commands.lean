import TsnController.Store.Session

/-!
# `ReadFile.c`: what a command sees

`Select_args` reads the command buffer and not the line, so that what stands behind the line matters
(`Buffer`). After a command only the command itself is overwritten with zeros. That is enough: as
long as no NUL is typed, a command never sees a byte of an earlier one, only what the array held
before the program started.

The second result puts the two queries together. A list that `Show` has named, typed back as the two
options of a `select`, is shown as a whole, if its two numbers are not negative and have less than
ten digits.
-/

set_option autoImplicit false

namespace TsnController
namespace Store

open CLib Lib Client

/-! ## The line and what is behind it -/

theorem takeLine_isPrefix : ∀ (n : Nat) (input : Text), takeLine n input <+: input
  | 0, _ => List.nil_prefix
  | _ + 1, [] => List.nil_prefix
  | n + 1, c :: cs => by
    rw [takeLine]
    split
    · exact ⟨cs, rfl⟩
    · exact List.cons_prefix_cons.mpr ⟨rfl, takeLine_isPrefix n cs⟩

/-- A newline ends what is taken. -/
theorem takeLine_cases : ∀ (n : Nat) (input : Text), ∃ piece : Text, '\n' ∉ piece ∧
    (takeLine n input = piece ∨ takeLine n input = piece ++ ['\n'])
  | 0, _ => ⟨[], List.not_mem_nil, Or.inl rfl⟩
  | _ + 1, [] => ⟨[], List.not_mem_nil, Or.inl rfl⟩
  | n + 1, c :: cs => by
    rw [takeLine]
    split
    · rename_i hc
      exact ⟨[], List.not_mem_nil, Or.inr (by rw [hc]; rfl)⟩
    · rename_i hc
      obtain ⟨piece, hpiece, h⟩ := takeLine_cases n cs
      refine ⟨c :: piece, ?_, ?_⟩
      · rw [List.mem_cons, not_or]
        exact ⟨Ne.symm hc, hpiece⟩
      · rcases h with h | h
        · exact Or.inl (by rw [h])
        · exact Or.inr (by rw [h, List.cons_append])

/-- Without NULs a command is all of what is taken but for the newline. -/
theorem length_takeLine_le {stdin : Text} (hnul : nul ∉ stdin) :
    (takeLine 255 stdin).length ≤ (firstCommand stdin).length + 1 := by
  obtain ⟨piece, hpiece, h⟩ := takeLine_cases 255 stdin
  have hall : nul ∉ piece → ∀ c ∈ piece, inCommand c = true := by
    intro hp c hc
    exact decide_eq_true ⟨fun heq => hpiece (heq ▸ hc), fun heq => hp (heq ▸ hc)⟩
  have hfree : nul ∉ takeLine 255 stdin := fun hmem =>
    hnul ((takeLine_isPrefix 255 stdin).subset hmem)
  unfold firstCommand
  rcases h with h | h
  · rw [h] at hfree ⊢
    rw [List.takeWhile_eq_self_iff.mpr (hall hfree)]
    exact Nat.le_succ _
  · rw [h] at hfree ⊢
    rw [List.takeWhile_append_of_pos (hall fun hp => hfree (List.mem_append_left _ hp)),
      List.length_append, List.length_append]
    exact Nat.succ_le_succ (Nat.le_add_right _ _)

/-- The command as a line. -/
def commandLine (stdin : Text) : CommandLine where
  text := firstCommand stdin
  terminated h := ne_nul_of_mem_firstCommand h rfl
  fits := Nat.le_trans (List.takeWhile_sublist _).length_le (length_takeLine 255 stdin)

/-- The buffer when the command has been read. -/
def readBuffer (s : Session) : Buffer (commandLine s.stdin) where
  stale := (takeLine 255 s.stdin ++ nul ::
    s.buffer.bytes.drop ((takeLine 255 s.stdin).length + 1)).drop
      ((firstCommand s.stdin).length + 1)
  size := by
    have hsize := (readCommand s).buffer.size
    rw [bytes_readCommand, List.length_append, List.length_cons, ← Nat.add_assoc,
      Nat.add_right_comm] at hsize
    exact hsize

theorem bytes_readBuffer (s : Session) : (readCommand s).buffer.bytes = (readBuffer s).bytes :=
  bytes_readCommand s

theorem selectOption_eq (arg : Char) (s : Session) :
    selectOption arg (readCommand s).buffer = (selectArgument arg (readBuffer s)).result := by
  rw [selectOption, bytes_readBuffer]
  rfl

/-! ## No command sees an earlier one -/

theorem getElem?_clear {b : CommandBuffer} {o : Nat} {c : Char}
    (h : b.clear.bytes[o]? = some c) : c = nul ∨ (strlen b.bytes ≤ o ∧ b.bytes[o]? = some c) := by
  have hsplit : b.clear.bytes =
      List.replicate (strlen b.bytes) nul ++ b.bytes.drop (strlen b.bytes) := rfl
  rw [hsplit] at h
  rcases Nat.lt_or_ge o (strlen b.bytes) with hlt | hge
  · rw [List.getElem?_append_left (by rw [List.length_replicate]; exact hlt),
      List.getElem?_replicate, if_pos hlt] at h
    exact Or.inl (Option.some.inj h).symm
  · rw [List.getElem?_append_right (by rw [List.length_replicate]; exact hge),
      List.length_replicate, List.getElem?_drop, Nat.add_sub_cancel' hge] at h
    exact Or.inr ⟨hge, h⟩

section Hidden

variable {s : Session}

/-- What is behind a command was there before, or ends it. -/
theorem getElem?_readCommand (hnul : nul ∉ s.stdin) {o : Nat} {c : Char}
    (ho : (firstCommand s.stdin).length < o) (h : (readCommand s).buffer.bytes[o]? = some c) :
    c = nul ∨ s.buffer.bytes[o]? = some c := by
  have hle := length_takeLine_le hnul
  rw [bytes_readCommand, List.getElem?_append_right (Nat.le_of_lt ho)] at h
  obtain ⟨m, rfl⟩ := Nat.exists_eq_add_of_le (Nat.succ_le_of_lt ho)
  have hindex : (firstCommand s.stdin).length + 1 + m - (firstCommand s.stdin).length = m + 1 := by
    omega
  rw [hindex, List.getElem?_cons_succ, List.getElem?_drop,
    List.getElem?_append_right (Nat.le_trans hle (Nat.le_add_right _ m))] at h
  obtain ⟨k, hk⟩ := Nat.exists_eq_add_of_le (Nat.le_trans hle (Nat.le_add_right _ m))
  rw [hk, Nat.add_sub_cancel_left] at h
  rw [hk]
  cases k with
  | zero => exact Or.inl (Option.some.inj h).symm
  | succ k =>
    rw [List.getElem?_cons_succ, List.getElem?_drop, Nat.add_right_comm, Nat.add_assoc] at h
    exact Or.inr h

theorem strlen_readCommand (s : Session) :
    strlen (readCommand s).buffer.bytes = (firstCommand s.stdin).length :=
  congrArg List.length (text_readCommand s)

/-- At the head of the loop the buffer holds zeros and what it held at the start; and no NUL is to
come. -/
structure Clean (init : Text) (s : Session) : Prop where
  typed : nul ∉ s.stdin
  bytes : ∀ (o : Nat) (c : Char), s.buffer.bytes[o]? = some c → c = nul ∨ init[o]? = some c

theorem Clean.iteration {env : Setting} {init : Text} {s' : Session} (hclean : Clean init s)
    (h : iteration env s = .running s') : Clean init s' := by
  by_cases hstdin : s.stdin = []
  · obtain ⟨hrest, hbuffer, _⟩ := iteration_of_eof h hstdin
    refine ⟨hrest ▸ List.not_mem_nil, fun o c hc => ?_⟩
    rw [hbuffer] at hc
    rcases getElem?_clear hc with hnul | ⟨_, hold⟩
    · exact Or.inl hnul
    · exact hclean.bytes o c hold
  · obtain ⟨hrest, hbuffer, _⟩ := iteration_of_input h hstdin
    refine ⟨fun hmem => hclean.typed (List.mem_of_mem_drop (hrest ▸ hmem)), fun o c hc => ?_⟩
    rw [hbuffer] at hc
    rcases getElem?_clear hc with hnul | ⟨hge, hread⟩
    · exact Or.inl hnul
    · rw [strlen_readCommand] at hge
      rcases Nat.eq_or_lt_of_le hge with heq | hlt
      · -- the terminator of the command
        rw [bytes_readCommand, ← heq, List.getElem?_append_right (Nat.le_refl _),
          Nat.sub_self] at hread
        exact Or.inl (Option.some.inj hread).symm
      · rcases getElem?_readCommand hclean.typed hlt hread with hnul | hold
        · exact Or.inl hnul
        · exact hclean.bytes o c hold

theorem Clean.sessionAfter {env : Setting} {init : Text} (hclean : Clean init s) :
    ∀ {n : Nat} {s' : Session}, sessionAfter env s n = .running s' → Clean init s' := by
  intro n
  induction n with
  | zero =>
    intro s' h
    cases h
    exact hclean
  | succ n ih =>
    intro s' h
    obtain ⟨s₁, h₁, h⟩ := Step.andThen_eq_running h
    exact (ih h₁).iteration h

/-- The buffer with zeros behind the line. -/
def Buffer.zeros (line : CommandLine) : Buffer line where
  stale := List.replicate (255 - line.text.length) nul
  size := by
    have hfits := line.fits
    rw [List.length_replicate]
    omega

theorem eq_zeros {line : CommandLine} {b : Buffer line} (h : ∀ c ∈ b.stale, c = nul) :
    b = Buffer.zeros line := by
  have hsize := b.size
  have hlength : b.stale.length = 255 - line.text.length := by omega
  cases b with
  | mk stale size =>
    have heq : stale = List.replicate (255 - line.text.length) nul :=
      List.eq_replicate_iff.mpr ⟨hlength, h⟩
    subst heq
    rfl

/-- **No command sees an earlier one.** If no NUL is typed, then in every iteration the bytes behind
the command are zeros or what the array held at the same place when the loop was entered. If that
was zeros, the options of a `select` are a function of its line. -/
theorem command_hides_earlier (env : Setting) {s' : Session} {n : Nat} (hnul : nul ∉ s.stdin)
    (h : sessionAfter env s n = .running s') :
    (∀ (o : Nat) (c : Char), (firstCommand s'.stdin).length < o →
      (readCommand s').buffer.bytes[o]? = some c → c = nul ∨ s.buffer.bytes[o]? = some c) ∧
    ((∀ c ∈ s.buffer.bytes, c = nul) → ∀ arg, selectOption arg (readCommand s').buffer =
      (selectArgument arg (Buffer.zeros (commandLine s'.stdin))).result) := by
  have hstart : Clean s.buffer.bytes s := ⟨hnul, fun o c hc => Or.inr hc⟩
  have hclean := hstart.sessionAfter h
  have hbytes : ∀ (o : Nat) (c : Char), (firstCommand s'.stdin).length < o →
      (readCommand s').buffer.bytes[o]? = some c → c = nul ∨ s.buffer.bytes[o]? = some c := by
    intro o c ho hc
    rcases getElem?_readCommand hclean.typed ho hc with hzero | hold
    · exact Or.inl hzero
    · exact hclean.bytes o c hold
  refine ⟨hbytes, fun hzeros arg => ?_⟩
  have hbuffer : readBuffer s' = Buffer.zeros (commandLine s'.stdin) := by
    apply eq_zeros
    intro c hc
    obtain ⟨o, ho⟩ := List.mem_iff_getElem?.mp hc
    have hread : (readCommand s').buffer.bytes[(firstCommand s'.stdin).length + (o + 1)]? =
        some c := by
      rw [bytes_readCommand, List.getElem?_append_right (Nat.le_add_right _ _),
        Nat.add_sub_cancel_left, List.getElem?_cons_succ]
      exact ho
    rcases hbytes _ c (Nat.lt_add_of_pos_right (Nat.succ_pos o)) hread with hzero | hold
    · exact hzero
    · exact hzeros c (List.mem_of_getElem? hold)
  rw [selectOption_eq, hbuffer]

/-- The second of two lines. -/
theorem command_hides_earlier_second : ∃ s',
    sessionAfter (.plain fun _ => []) (.start "select -s 64 -l 1\nselect -s\n".toList) 1 =
      .running s' ∧
    selectOption 's' (readCommand s').buffer =
      (selectArgument 's' (Buffer.zeros (commandLine "select -s\n".toList))).result := by
  have hrun : ∃ s', sessionAfter (.plain fun _ => [])
      (.start "select -s 64 -l 1\nselect -s\n".toList) 1 = .running s' ∧
      s'.stdin = "select -s\n".toList := ⟨_, rfl, by decide +kernel⟩
  obtain ⟨s', hs', hstdin⟩ := hrun
  refine ⟨s', hs', ?_⟩
  rw [← hstdin]
  exact (command_hides_earlier _ (by decide +kernel) hs').2
    (fun c hc => List.eq_of_mem_replicate hc) 's'

end Hidden

/-! ## From `show` to `select` -/

/-- The line that asks for a list as `Show` has printed it. -/
def selectLine (n sw : Int32) : Text :=
  "select -s ".toList ++ columnText sw ++ (" -l ".toList ++ columnText n)

/-- What the loop takes for the value of an option. A sign ends it at once. -/
def optionText (n : Int32) : Text := if n.toInt < 0 then [] else columnText n

section Columns

variable {n : Int32}

theorem columnText_of_neg (h : n.toInt < 0) :
    columnText n = '-' :: Nat.toDigits 10 n.toInt.natAbs :=
  if_pos h

theorem columnText_of_nonneg (h : ¬ n.toInt < 0) :
    columnText n = Nat.toDigits 10 n.toInt.natAbs :=
  if_neg h

theorem mem_columnText {c : Char} (h : c ∈ columnText n) : c = '-' ∨ c.isDigit = true := by
  have hdigit : ∀ m, c ∈ Nat.toDigits 10 m → c.isDigit = true := fun m hc =>
    Nat.isDigit_of_mem_toDigits (by decide) (by decide) hc
  by_cases hn : n.toInt < 0
  · rw [columnText_of_neg hn, List.mem_cons] at h
    exact h.imp_right (hdigit _)
  · rw [columnText_of_nonneg hn] at h
    exact Or.inr (hdigit _ h)

theorem length_columnText (n : Int32) : (columnText n).length ≤ 11 := by
  have hlower := n.le_toInt
  have hupper := n.toInt_lt
  have hdigits : (Nat.toDigits 10 n.toInt.natAbs).length ≤ 10 :=
    (Nat.length_toDigits_le_iff (by decide) (by decide)).mpr (by omega)
  by_cases hn : n.toInt < 0
  · rw [columnText_of_neg hn, List.length_cons]
    exact Nat.succ_le_succ hdigits
  · rw [columnText_of_nonneg hn]
    exact Nat.le_succ_of_le hdigits

/-- The value of an option that is typed as the column was printed. -/
theorem takeWhile_columnText (n : Int32) {rest : Text} (hrest : rest.takeWhile isalnum = []) :
    (columnText n ++ rest).takeWhile isalnum = optionText n := by
  unfold optionText
  split
  · rename_i hn
    rw [columnText_of_neg hn, List.cons_append, List.takeWhile_cons_of_neg (by decide)]
  · rename_i hn
    rw [List.takeWhile_append_of_pos, hrest, List.append_nil]
    intro c hc
    rw [columnText_of_nonneg hn] at hc
    unfold isalnum
    rw [Nat.isDigit_of_mem_toDigits (by decide) (by decide) hc, Bool.or_true]

theorem destSize_le_optionText : destSize ≤ (optionText n).length ↔ 10 ^ 9 ≤ n.toInt := by
  unfold optionText
  split
  · rename_i hn
    constructor
    · intro h
      exact absurd h (by decide)
    · intro h
      omega
  · rename_i hn
    have hdigits : (Nat.toDigits 10 n.toInt.natAbs).length ≤ 9 ↔ n.toInt.natAbs < 10 ^ 9 :=
      Nat.length_toDigits_le_iff (by decide) (by decide)
    rw [columnText_of_nonneg hn, destSize]
    omega

theorem isNumber_columnText (h : ¬ n.toInt < 0) (hlt : ¬ 10 ^ 9 ≤ n.toInt) :
    IsNumber (columnText n) := by
  have hshort := mt destSize_le_optionText.mp hlt
  rw [optionText, if_neg h] at hshort
  refine ⟨?_, ?_, Nat.lt_of_not_le hshort⟩
  · rw [columnText_of_nonneg h]
    exact Nat.toDigits_ne_nil
  · rw [columnText_of_nonneg h]
    exact fun c hc => Nat.isDigit_of_mem_toDigits (by decide) (by decide) hc

theorem ofDigitChars_columnText (h : ¬ n.toInt < 0) :
    Int.ofNat (Nat.ofDigitChars 10 (columnText n) 0) = n.toInt := by
  rw [columnText_of_nonneg h, Nat.ofDigitChars_ten_toDigits]
  exact Int.natAbs_of_nonneg (Int.not_lt.mp h)

theorem passes_plain {arg : Char} {pre : Text} (h : '-' ∉ pre) : Passes arg pre 0 := by
  induction pre with
  | nil => exact .nil
  | cons c cs ih =>
    rw [List.mem_cons, not_or] at h
    exact .plain (Ne.symm h.1) (ih h.2)

theorem Passes.append {arg : Char} {a b : Text} {i j : Nat} (ha : Passes arg a i)
    (hb : Passes arg b j) : Passes arg (a ++ b) (j + i) := by
  induction ha with
  | nil => exact hb
  | plain hc _ ih => exact .plain hc ih
  | pair hd _ ih => exact .pair hd ih

/-- A number is passed: its sign is followed by a digit. -/
theorem passes_columnText (arg : Char) (harg : arg.isDigit = false) (n : Int32) :
    ∃ k, Passes arg (columnText n) k := by
  have hdigit : ∀ {m c}, c ∈ Nat.toDigits 10 m → c.isDigit = true := fun hc =>
    Nat.isDigit_of_mem_toDigits (by decide) (by decide) hc
  have hplain : ∀ {w : Text}, (∀ c ∈ w, c.isDigit = true) → '-' ∉ w := fun hw hmem =>
    absurd (hw '-' hmem) (by decide)
  by_cases hn : n.toInt < 0
  · rw [columnText_of_neg hn]
    cases hdigits : Nat.toDigits 10 n.toInt.natAbs with
    | nil => exact absurd hdigits Nat.toDigits_ne_nil
    | cons d ds =>
      have hall : ∀ c ∈ d :: ds, c.isDigit = true := fun c hc => hdigit (hdigits ▸ hc)
      refine ⟨0 + 1, .pair ?_
        (passes_plain (hplain fun c hc => hall c (List.mem_cons_of_mem d hc)))⟩
      intro heq
      rw [← heq, hall d List.mem_cons_self] at harg
      exact Bool.noConfusion harg
  · rw [columnText_of_nonneg hn]
    exact ⟨0, passes_plain (hplain fun c hc => hdigit hc)⟩

end Columns

/-- The line, character by character. -/
theorem selectLine_eq (n sw : Int32) : selectLine n sw =
    ['s', 'e', 'l', 'e', 'c', 't', ' ', '-', 's', ' '] ++ columnText sw ++
      ([' ', '-', 'l', ' '] ++ columnText n) :=
  rfl

theorem isLine_selectLine (n sw : Int32) : IsLine (selectLine n sw) := by
  have hmem : ∀ c ∈ selectLine n sw,
      c ∈ ['s', 'e', 'l', 'e', 'c', 't', ' ', '-', 's', ' '] ++ [' ', '-', 'l', ' '] ∨
        c = '-' ∨ c.isDigit = true := by
    intro c hc
    rw [selectLine_eq] at hc
    rcases List.mem_append.mp hc with hc | hc
    · rcases List.mem_append.mp hc with hc | hc
      · exact Or.inl (List.mem_append_left _ hc)
      · exact Or.inr (mem_columnText hc)
    · rcases List.mem_append.mp hc with hc | hc
      · exact Or.inl (List.mem_append_right _ hc)
      · exact Or.inr (mem_columnText hc)
  refine ⟨?_, ?_, ?_⟩
  · have hs := length_columnText sw
    have hn := length_columnText n
    have hlength : (selectLine n sw).length =
        10 + (columnText sw).length + (4 + (columnText n).length) := by
      rw [selectLine_eq, List.length_append, List.length_append, List.length_append]
      rfl
    omega
  · intro h
    exact absurd (hmem _ h) (by decide)
  · intro h
    exact absurd (hmem _ h) (by decide)

theorem Finds.result_eq {arg : Char} {line : CommandLine} {value : Text}
    (h : Finds arg line value) (b : Buffer line) : (selectArgument arg b).result =
      if destSize ≤ value.length then .error .undefined else .ok value := by
  obtain ⟨examined, _, heq⟩ := h b
  rw [heq, ArgumentRead.result]
  simp only [Bool.false_eq_true, false_or]

section Listed

variable {s : Session} {n sw : Int32} {rest : Text}

theorem text_selectLine (hstdin : s.stdin = selectLine n sw ++ '\n' :: rest) :
    (commandLine s.stdin).text = selectLine n sw := by
  rw [hstdin]
  exact ((isLine_selectLine n sw).firstCommand_eq rest).1

/-- An option of the line. -/
theorem selectOption_of_passes {arg : Char} {pre r : Text} {k : Nat} {m : Int32}
    (hline : (commandLine s.stdin).text = pre ++ '-' :: arg :: ' ' :: (columnText m ++ r))
    (hpre : Passes arg pre k) (hr : r.takeWhile isalnum = []) :
    selectOption arg (readCommand s).buffer =
      if 10 ^ 9 ≤ m.toInt then .error .undefined else .ok (optionText m) := by
  rw [selectOption_eq, (finds_value hline hpre).result_eq, hline, valueAt_found,
    takeWhile_columnText m hr]
  simp only [destSize_le_optionText]

theorem selectOption_switch (hstdin : s.stdin = selectLine n sw ++ '\n' :: rest) :
    selectOption 's' (readCommand s).buffer =
      if 10 ^ 9 ≤ sw.toInt then .error .undefined else .ok (optionText sw) := by
  have hpre : Passes 's' ['s', 'e', 'l', 'e', 'c', 't', ' '] 0 := passes_plain (by decide)
  have hr : ([' ', '-', 'l', ' '] ++ columnText n).takeWhile isalnum = [] := rfl
  apply selectOption_of_passes _ hpre hr
  rw [text_selectLine hstdin, selectLine_eq, List.append_assoc]
  rfl

theorem selectOption_list (hstdin : s.stdin = selectLine n sw ++ '\n' :: rest) :
    selectOption 'l' (readCommand s).buffer =
      if 10 ^ 9 ≤ n.toInt then .error .undefined else .ok (optionText n) := by
  obtain ⟨k, hk⟩ := passes_columnText 'l' (by decide) sw
  have hword : Passes 'l' ['s', 'e', 'l', 'e', 'c', 't', ' '] 0 := passes_plain (by decide)
  -- the first option is passed as a pair, and the number behind it
  have hfirst : Passes 'l' ('-' :: 's' :: ' ' :: (columnText sw ++ [' '])) (0 + k + 1) :=
    .pair (by decide) (.plain (by decide) (hk.append (passes_plain (by decide))))
  apply selectOption_of_passes (r := []) _ (hword.append hfirst) rfl
  rw [text_selectLine hstdin, selectLine_eq, List.append_nil]
  simp only [List.append_assoc, List.cons_append, List.nil_append]

/-- The answer for two numbers that fit their buffers. -/
theorem selectAnswer_option (env : Setting) (t : Info) (hs : ¬ 10 ^ 9 ≤ sw.toInt)
    (hn : ¬ 10 ^ 9 ≤ n.toInt) : selectAnswer env t (optionText sw) (optionText n) =
      if sw.toInt < 0 ∨ n.toInt < 0 then none
      else some ((t.numbered sw.toInt n.toInt).insertionSort Info.Ascending) := by
  unfold optionText
  by_cases hsw : sw.toInt < 0
  · rw [if_pos hsw, if_pos (Or.inl hsw), selectAnswer, env.sqlTerm_nil]
  · rw [if_neg hsw]
    by_cases hlist : n.toInt < 0
    · rw [if_pos hlist, if_pos (Or.inr hlist), selectAnswer, env.sqlTerm_nil]
      cases env.sqlTerm (columnText sw) <;> rfl
    · rw [if_neg hlist, if_neg (not_or.mpr ⟨hsw, hlist⟩),
        selectAnswer_digits env t (isNumber_columnText hsw hs) (isNumber_columnText hlist hn),
        ofDigitChars_columnText hsw, ofDigitChars_columnText hlist]

/-- The line is a `select` and nothing else. -/
theorem runCommand_selectLine (env : Setting)
    (hstdin : s.stdin = selectLine n sw ++ '\n' :: rest) :
    runCommand env (readCommand s) = selectArgsCommand env (readCommand s) := by
  have htext : (readCommand s).buffer.text = selectLine n sw := by
    rw [text_readCommand]
    exact text_selectLine hstdin
  have hsecond : (selectLine n sw)[1]? = some 'e' := rfl
  have hstore : ¬ isStore (selectLine n sw) := by
    rintro (h | h)
    · rw [h] at hsecond
      exact absurd hsecond (by decide)
    · rw [h] at hsecond
      exact absurd hsecond (by decide)
  have hshow : selectLine n sw ≠ "show".toList := by
    intro h
    rw [h] at hsecond
    exact absurd hsecond (by decide)
  have hselect : strstr "select ".toList (selectLine n sw) = true := rfl
  rw [runCommand, storeCommand, htext, if_neg hstore, Step.andThen, showCommand, htext,
    if_neg hshow, Step.andThen, selectCommand, htext, if_pos hselect]

/-- **What `Show` lists, `select` shows.** The line with the two numbers of a listed row is answered
with the rows of that list, all of them and in order. A negative number ends the program with a
statement the server does not accept, and one of ten digits overflows its buffer. -/
theorem select_listed (env : Setting) (hlisted : (n, sw) ∈ env.listing s.table)
    (hstdin : s.stdin = selectLine n sw ++ '\n' :: rest) :
    ∃ rows : List Row, rows ≠ [] ∧ rows.Nodup ∧ rows.Pairwise Info.Ascending ∧
      (∀ r, r ∈ rows ↔ r ∈ s.table.rows ∧ r.switchNumber = sw ∧ r.listNumber = n) ∧
      runCommand env (readCommand s) =
        if 10 ^ 9 ≤ sw.toInt ∨ 10 ^ 9 ≤ n.toInt then .ended .undefined (readCommand s)
        else if sw.toInt < 0 ∨ n.toInt < 0 then
          .ended (.exit 1) { readCommand s with
            printed := s.printed ++ inputText (optionText sw) (optionText n) }
        else .running { readCommand s with
          printed := s.printed ++ inputText (columnText sw) (columnText n) ++
            selectText rows } := by
  have hmem : ∀ r, r ∈ (s.table.numbered sw.toInt n.toInt).insertionSort Info.Ascending ↔
      r ∈ s.table.rows ∧ r.switchNumber = sw ∧ r.listNumber = n := by
    intro r
    rw [(List.perm_insertionSort _ _).mem_iff, Info.numbered, List.mem_filter, decide_eq_true_iff,
      Int32.toInt_inj, Int32.toInt_inj]
  obtain ⟨r, hr, hrn, hrs⟩ := ((env.isListing s.table).mem_iff n sw).mp hlisted
  refine ⟨_, List.ne_nil_of_mem ((hmem r).mpr ⟨hr, hrs, hrn⟩), ?_,
    List.pairwise_insertionSort _ _, hmem, ?_⟩
  · exact (List.perm_insertionSort _ _).nodup_iff.mpr ((List.Nodup.of_map _ s.table.nodup).filter _)
  · rw [runCommand_selectLine env hstdin, selectArgsCommand, selectOption_switch hstdin,
      selectOption_list hstdin]
    by_cases hs : 10 ^ 9 ≤ sw.toInt
    · rw [if_pos hs, if_pos (Or.inl hs)]
    · rw [if_neg hs]
      by_cases hn : 10 ^ 9 ≤ n.toInt
      · rw [if_pos hn, if_pos (Or.inr hn)]
      · rw [if_neg hn, if_neg (not_or.mpr ⟨hs, hn⟩)]
        dsimp only
        rw [selectAnswer_option env _ hs hn]
        by_cases hneg : sw.toInt < 0 ∨ n.toInt < 0
        · rw [if_pos hneg, if_pos hneg]
          rfl
        · rw [if_neg hneg, if_neg hneg, optionText, optionText,
            if_neg fun h => hneg (Or.inl h), if_neg fun h => hneg (Or.inr h)]
          rfl

/-- The first list of switch 64, after one `store`. -/
def firstListed : Session :=
  { Session.start (selectLine 1 64 ++ ['\n']) with table := twoStores 1 }

theorem select_listed_first : ∃ rows : List Row, rows ≠ [] ∧
    runCommand (.plain fun _ => []) (readCommand firstListed) =
      .running { readCommand firstListed with
        printed := inputText ['6', '4'] ['1'] ++ selectText rows } := by
  have hlisted : (1, 64) ∈ (Setting.plain fun _ => []).listing firstListed.table := by
    decide +kernel
  obtain ⟨rows, hne, _, _, _, hrun⟩ := select_listed (s := firstListed) _ hlisted rfl
  rw [if_neg (by decide), if_neg (by decide)] at hrun
  exact ⟨rows, hne, hrun⟩

end Listed

end Store
end TsnController

import TsnController.CLib.Text

/-!
# `ReadFile.c`: looking for an option

`ReadArgumentValue` looks for an option `-c` in a command line and copies the letters and digits
behind it. It is given a pointer and a count and looks at neither the terminator of the line nor the
size of the place it copies to: the count is the only thing that ends its loop. A hyphen costs the
pointer two steps and the count one, so the two come apart, and the value is read from two places
behind the letter, which is one place behind the terminator if the letter is the last character.

What is modelled is therefore what the loop *examines* besides what it copies. A read outside of the
array it walks through ends the run.

The loop stands on a hyphen exactly if an even number of hyphens stands directly in front of it
(`hyphensBefore`), because it takes them in pairs. `Passes` is that walk, as a judgment over the
part of the line that has been passed: how the loop runs over it, that no option is seen in it, and
how many hyphens were reached, which is by how much the count lags behind the pointer.
-/

set_option autoImplicit false

namespace TsnController
namespace Store

open CLib

theorem nul_ne_hyphen : nul ≠ '-' := by decide

/-! ## `ReadArgumentValue` -/

/-- A run: the offsets it examines in order, the characters it hands to `strncat`, and whether it
has left the array. -/
structure ArgumentRead where
  examined : List Nat
  appended : Text
  outside : Bool
  deriving DecidableEq

/-- A run that starts with these reads. -/
def ArgumentRead.after (offsets : List Nat) (r : ArgumentRead) : ArgumentRead :=
  { r with examined := offsets ++ r.examined }

theorem ArgumentRead.after_after (xs ys : List Nat) (r : ArgumentRead) :
    (r.after ys).after xs = r.after (xs ++ ys) := by
  unfold ArgumentRead.after
  rw [List.append_assoc]

/-- `isalpha(c) || isdigit(c)`. -/
def isalnum (c : Char) : Bool := c.isAlpha || c.isDigit

/-- The inner `while`, with `aux_pos` at the offset. -/
def readValue : Nat → Text → ArgumentRead
  | offset, [] => ⟨[offset], [], true⟩
  | offset, c :: cs =>
    if isalnum c then
      let r := readValue (offset + 1) cs
      ⟨offset :: r.examined, c :: r.appended, r.outside⟩
    else ⟨[offset], [], false⟩

/-- The outer `while`: how many iterations the counter still allows, and `pos`. -/
def readArgumentLoop (arg : Char) : Nat → Nat → Text → ArgumentRead
  | 0, _, _ => ⟨[], [], false⟩
  | _ + 1, offset, [] => ⟨[offset], [], true⟩
  | n + 1, offset, c :: cs =>
    if c = '-' then
      match cs with
      | [] => ⟨[offset, offset + 1], [], true⟩
      | d :: ds =>
        -- `aux_pos = pos + 2`, with `pos` on the letter
        if d = arg then (readValue (offset + 3) ds.tail).after [offset, offset + 1]
        else (readArgumentLoop arg n (offset + 2) ds).after [offset, offset + 1]
    else (readArgumentLoop arg n (offset + 1) cs).after [offset]

theorem readArgumentLoop_plain {arg c : Char} (hc : c ≠ '-') (n offset : Nat) (cs : Text) :
    readArgumentLoop arg (n + 1) offset (c :: cs) =
      (readArgumentLoop arg n (offset + 1) cs).after [offset] := by
  rw [readArgumentLoop.eq_def]
  simp only [hc, if_false]

theorem readArgumentLoop_pair (arg d : Char) (n offset : Nat) (ds : Text) :
    readArgumentLoop arg (n + 1) offset ('-' :: d :: ds) =
      if d = arg then (readValue (offset + 3) ds.tail).after [offset, offset + 1]
      else (readArgumentLoop arg n (offset + 2) ds).after [offset, offset + 1] := by
  rw [readArgumentLoop.eq_def]
  simp only [if_true]

/-- `dest` is emptied first, so what it held does not matter. -/
def readArgumentValue (arg : Char) (pos : Text) (bufferLength : Nat) : ArgumentRead :=
  readArgumentLoop arg bufferLength 0 pos

/-! ## Where options are -/

/-- The number of hyphens directly in front of an index. -/
def hyphensBefore (text : Text) : Nat → Nat
  | 0 => 0
  | i + 1 => if text[i]? = some '-' then hyphensBefore text i + 1 else 0

/-- The two characters `-c` at an index. -/
def OptionAt (arg : Char) (text : Text) (i : Nat) : Prop :=
  text[i]? = some '-' ∧ text[i + 1]? = some arg

/-- … where the loop takes them for an option. -/
def Seen (arg : Char) (text : Text) (i : Nat) : Prop :=
  OptionAt arg text i ∧ hyphensBefore text i % 2 = 0

/-- The first index with a property. -/
def First (P : Nat → Prop) (i : Nat) : Prop := P i ∧ ∀ j < i, ¬ P j

/-- The letters and digits from an index on. -/
def valueAt (text : Text) (i : Nat) : Text := (text.drop i).takeWhile isalnum

/-- The line has one hyphen, two adjacent ones, or none. -/
def FewHyphens (text : Text) : Prop :=
  ∀ i j, text[i]? = some '-' → text[j]? = some '-' → j ≤ i + 1

instance (arg : Char) (text : Text) : DecidablePred (OptionAt arg text) :=
  fun _ => inferInstanceAs (Decidable (_ ∧ _))

instance (arg : Char) (text : Text) : DecidablePred (Seen arg text) :=
  fun _ => inferInstanceAs (Decidable (_ ∧ _))

instance (P : Nat → Prop) [DecidablePred P] : DecidablePred (First P) :=
  fun _ => inferInstanceAs (Decidable (_ ∧ _))

theorem First.eq {P : Nat → Prop} {i j : Nat} (hi : First P i) (hj : First P j) : i = j := by
  rcases Nat.lt_trichotomy i j with h | h | h
  · exact absurd hi.1 (hj.2 i h)
  · exact h
  · exact absurd hj.1 (hi.2 j h)

/-! ## The walk -/

/-- A part of the line that whole iterations pass without a match, `hyphens` of them on a hyphen. -/
inductive Passes (arg : Char) : Text → Nat → Prop
  | nil : Passes arg [] 0
  | plain {c : Char} {cs : Text} {hyphens : Nat} : c ≠ '-' → Passes arg cs hyphens →
      Passes arg (c :: cs) hyphens
  | pair {d : Char} {ds : Text} {hyphens : Nat} : d ≠ arg → Passes arg ds hyphens →
      Passes arg ('-' :: d :: ds) (hyphens + 1)

section Walk

variable {arg : Char}

theorem Passes.hyphens_le {pre : Text} {k : Nat} (h : Passes arg pre k) : 2 * k ≤ pre.length := by
  induction h with
  | nil => exact Nat.le_refl 0
  | plain _ _ ih =>
    rw [List.length_cons]
    omega
  | pair _ _ ih =>
    rw [List.length_cons, List.length_cons]
    omega

/-- The iterations over a part that is passed. The counter is spent more slowly than the pointer
moves. -/
theorem Passes.loop_eq {pre : Text} {k : Nat} (h : Passes arg pre k) (rest : Text) :
    ∀ n offset, readArgumentLoop arg (pre.length + n - k) offset (pre ++ rest) =
      (readArgumentLoop arg n (offset + pre.length) rest).after
        (List.range' offset pre.length) := by
  induction h with
  | nil =>
    intro n offset
    rw [List.length_nil, Nat.zero_add, Nat.sub_zero]
    rfl
  | @plain c cs k hc hcs ih =>
    intro n offset
    have hk := hcs.hyphens_le
    have hcount : (c :: cs).length + n - k = (cs.length + n - k) + 1 := by
      rw [List.length_cons]
      omega
    rw [hcount, List.cons_append, readArgumentLoop_plain hc, ih n (offset + 1), List.length_cons,
      List.range'_succ, Nat.add_assoc offset 1, Nat.add_comm 1]
    rfl
  | @pair d ds k hd hds ih =>
    intro n offset
    have hk := hds.hyphens_le
    have hcount : ('-' :: d :: ds).length + n - (k + 1) = (ds.length + n - k) + 1 := by
      rw [List.length_cons, List.length_cons]
      omega
    rw [hcount, List.cons_append, List.cons_append, readArgumentLoop_pair, if_neg hd,
      ih n (offset + 2), List.length_cons, List.length_cons, List.range'_succ, List.range'_succ,
      Nat.add_assoc offset 2, Nat.add_comm 2]
    rfl

/-- With fewer iterations the loop ends on the way, and has found nothing. -/
theorem Passes.loop_short {pre : Text} {k : Nat} (h : Passes arg pre k) (rest : Text) :
    ∀ n offset, n + k ≤ pre.length → ∃ examined, (∀ i ∈ examined, i < offset + pre.length) ∧
      readArgumentLoop arg n offset (pre ++ rest) = ⟨examined, [], false⟩ := by
  induction h with
  | nil =>
    intro n offset hn
    obtain rfl : n = 0 := Nat.eq_zero_of_le_zero hn
    exact ⟨[], List.forall_mem_nil _, rfl⟩
  | @plain c cs k hc _ ih =>
    intro n offset hn
    cases n with
    | zero => exact ⟨[], List.forall_mem_nil _, rfl⟩
    | succ n =>
      rw [List.length_cons] at hn ⊢
      obtain ⟨examined, hlt, heq⟩ := ih n (offset + 1) (by omega)
      refine ⟨offset :: examined, List.forall_mem_cons.mpr ⟨by omega, ?_⟩, ?_⟩
      · intro i hi
        have hi' := hlt i hi
        omega
      · rw [List.cons_append, readArgumentLoop_plain hc, heq]
        rfl
  | @pair d ds k hd _ ih =>
    intro n offset hn
    cases n with
    | zero => exact ⟨[], List.forall_mem_nil _, rfl⟩
    | succ n =>
      rw [List.length_cons, List.length_cons] at hn ⊢
      obtain ⟨examined, hlt, heq⟩ := ih n (offset + 2) (by omega)
      refine ⟨offset :: (offset + 1) :: examined, ?_, ?_⟩
      · refine List.forall_mem_cons.mpr ⟨by omega, List.forall_mem_cons.mpr ⟨by omega, ?_⟩⟩
        intro i hi
        have hi' := hlt i hi
        omega
      · rw [List.cons_append, List.cons_append, readArgumentLoop_pair, if_neg hd, heq]
        rfl

/-- **How the loop goes through a line**: it comes to the option, or it passes the line together
with its terminator. -/
theorem exists_passes (harg : arg ≠ nul) : ∀ text : Text,
    (∃ pre rest k, text = pre ++ '-' :: arg :: rest ∧ Passes arg pre k) ∨
      ∃ k, Passes arg (text ++ [nul]) k
  | [] => Or.inr ⟨0, .plain nul_ne_hyphen .nil⟩
  | c :: cs => by
    by_cases hc : c = '-'
    · subst hc
      cases cs with
      | nil => exact Or.inr ⟨1, .pair harg.symm .nil⟩
      | cons d ds =>
        by_cases hd : d = arg
        · subst hd
          exact Or.inl ⟨[], ds, 0, rfl, .nil⟩
        · rcases exists_passes harg ds with ⟨pre, rest, k, rfl, hpre⟩ | ⟨k, hall⟩
          · exact Or.inl ⟨'-' :: d :: pre, rest, k + 1, rfl, .pair hd hpre⟩
          · exact Or.inr ⟨k + 1, .pair hd hall⟩
    · rcases exists_passes harg cs with ⟨pre, rest, k, rfl, hpre⟩ | ⟨k, hall⟩
      · exact Or.inl ⟨c :: pre, rest, k, rfl, .plain hc hpre⟩
      · exact Or.inr ⟨k, .plain hc hall⟩

/-! ### What is seen on the way -/

theorem hyphensBefore_plain {c : Char} (hc : c ≠ '-') (cs : Text) (i : Nat) :
    hyphensBefore (c :: cs) (i + 1) = hyphensBefore cs i := by
  induction i with
  | zero => exact if_neg fun h => hc (Option.some.inj h)
  | succ i ih => rw [hyphensBefore, ih, List.getElem?_cons_succ, hyphensBefore]

/-- A pair does not change which hyphens are reached, whatever its second character. -/
theorem hyphensBefore_pair (d : Char) (ds : Text) (i : Nat) :
    hyphensBefore ('-' :: d :: ds) (i + 2) % 2 = hyphensBefore ds i % 2 := by
  induction i with
  | zero =>
    by_cases hd : d = '-'
    · subst hd
      simp [hyphensBefore]
    · have hzero : hyphensBefore ('-' :: d :: ds) 2 = 0 := if_neg fun h => hd (Option.some.inj h)
      rw [hzero]
      rfl
  | succ i ih =>
    have hleft : hyphensBefore ('-' :: d :: ds) (i + 3) =
        if ds[i]? = some '-' then hyphensBefore ('-' :: d :: ds) (i + 2) + 1 else 0 := rfl
    have hright : hyphensBefore ds (i + 1) =
        if ds[i]? = some '-' then hyphensBefore ds i + 1 else 0 := rfl
    rw [hleft, hright]
    split
    · omega
    · rfl

theorem hyphensBefore_append (text rest : Text) (i : Nat) (hi : i ≤ text.length) :
    hyphensBefore (text ++ rest) i = hyphensBefore text i := by
  induction i with
  | zero => rfl
  | succ i ih => rw [hyphensBefore, hyphensBefore, List.getElem?_append_left hi, ih (by omega)]

theorem Passes.even {pre : Text} {k : Nat} (h : Passes arg pre k) (rest : Text) :
    hyphensBefore (pre ++ rest) pre.length % 2 = 0 := by
  induction h with
  | nil => rfl
  | plain hc _ ih =>
    rw [List.cons_append, List.length_cons, hyphensBefore_plain hc]
    exact ih
  | pair _ _ ih =>
    rw [List.cons_append, List.cons_append, List.length_cons, List.length_cons,
      hyphensBefore_pair]
    exact ih

theorem Passes.not_seen {pre : Text} {k : Nat} (h : Passes arg pre k) (rest : Text) :
    ∀ i < pre.length, ¬ Seen arg (pre ++ rest) i := by
  induction h with
  | nil => intro i hi; exact absurd hi (Nat.not_lt_zero i)
  | @plain c cs k hc _ ih =>
    intro i hi hseen
    obtain ⟨⟨hhyphen, hletter⟩, heven⟩ := hseen
    cases i with
    | zero => exact hc (Option.some.inj hhyphen)
    | succ i =>
      rw [List.cons_append, hyphensBefore_plain hc] at heven
      exact ih i (Nat.lt_of_succ_lt_succ hi) ⟨⟨hhyphen, hletter⟩, heven⟩
  | @pair d ds k hd _ ih =>
    intro i hi hseen
    obtain ⟨⟨hhyphen, hletter⟩, heven⟩ := hseen
    cases i with
    | zero => exact hd (Option.some.inj hletter)
    | succ i =>
      cases i with
      | zero =>
        -- the second character of the pair has the first directly in front of it
        exact absurd heven (by simp [hyphensBefore])
      | succ i =>
        rw [List.cons_append, List.cons_append, hyphensBefore_pair] at heven
        exact ih i (Nat.lt_of_succ_lt_succ (Nat.lt_of_succ_lt_succ hi))
          ⟨⟨hhyphen, hletter⟩, heven⟩

/-- The option the loop comes to is the first one seen. -/
theorem Passes.first_seen {pre : Text} {k : Nat} (h : Passes arg pre k) (rest : Text) :
    First (Seen arg (pre ++ '-' :: arg :: rest)) pre.length := by
  refine ⟨⟨⟨?_, ?_⟩, h.even _⟩, h.not_seen _⟩
  · rw [List.getElem?_append_right (Nat.le_refl _), Nat.sub_self]
    rfl
  · rw [List.getElem?_append_right (Nat.le_add_right _ 1), Nat.add_sub_cancel_left]
    rfl

theorem Seen.append {text : Text} {i : Nat} (h : Seen arg text i) (rest : Text) :
    Seen arg (text ++ rest) i := by
  obtain ⟨⟨hhyphen, hletter⟩, heven⟩ := h
  have hi : i < text.length := (List.getElem?_eq_some_iff.mp hhyphen).1
  have hi' : i + 1 < text.length := (List.getElem?_eq_some_iff.mp hletter).1
  refine ⟨⟨?_, ?_⟩, ?_⟩
  · rw [List.getElem?_append_left hi, hhyphen]
  · rw [List.getElem?_append_left hi', hletter]
  · rw [hyphensBefore_append text rest i (Nat.le_of_lt hi), heven]

/-- … and if it passes the line none is. -/
theorem Passes.unseen {text : Text} {k : Nat} (h : Passes arg (text ++ [nul]) k) (i : Nat) :
    ¬ Seen arg text i := by
  intro hseen
  have hi : i < text.length := (List.getElem?_eq_some_iff.mp hseen.1.1).1
  have hall := h.not_seen [] i (by rw [List.length_append]; omega)
  exact hall ((hseen.append [nul]).append [])

/-! ### How many hyphens are reached -/

theorem Passes.eq_zero_iff {pre : Text} {k : Nat} (h : Passes arg pre k) :
    k = 0 ↔ '-' ∉ pre := by
  induction h with
  | nil => exact ⟨fun _ => List.not_mem_nil, fun _ => rfl⟩
  | plain hc _ ih => rw [ih, List.mem_cons, not_or, and_iff_right hc.symm]
  | pair _ _ _ => exact ⟨fun hk => absurd hk (Nat.succ_ne_zero _), fun hno => absurd (by simp) hno⟩

theorem fewHyphens_plain {c : Char} (hc : c ≠ '-') (cs : Text) :
    FewHyphens (c :: cs) ↔ FewHyphens cs := by
  constructor
  · intro h i j hi hj
    exact Nat.le_of_succ_le_succ (h (i + 1) (j + 1) hi hj)
  · intro h i j hi hj
    cases i with
    | zero => exact absurd (Option.some.inj hi) hc
    | succ i =>
      cases j with
      | zero => exact Nat.zero_le _
      | succ j => exact Nat.succ_le_succ (h i j hi hj)

theorem fewHyphens_pair (d : Char) (ds : Text) : FewHyphens ('-' :: d :: ds) ↔ '-' ∉ ds := by
  constructor
  · intro h hmem
    obtain ⟨j, hj⟩ := List.mem_iff_getElem?.mp hmem
    have hle : j + 2 ≤ 0 + 1 := h 0 (j + 2) rfl hj
    omega
  · intro h i j _ hj
    cases j with
    | zero => exact Nat.zero_le _
    | succ j =>
      cases j with
      | zero => exact Nat.succ_le_succ (Nat.zero_le i)
      | succ j => exact absurd (List.mem_of_getElem? (l := ds) hj) h

theorem Passes.le_one_iff {pre : Text} {k : Nat} (h : Passes arg pre k) :
    k ≤ 1 ↔ FewHyphens pre := by
  induction h with
  | nil => exact ⟨fun _ i j hi => absurd hi (by simp), fun _ => Nat.zero_le 1⟩
  | plain hc _ ih => rw [ih, fewHyphens_plain hc]
  | pair _ hds _ => rw [fewHyphens_pair, ← hds.eq_zero_iff, Nat.succ_le_succ_iff, Nat.le_zero]

theorem fewHyphens_terminated (text : Text) : FewHyphens (text ++ [nul]) ↔ FewHyphens text := by
  have hsame : ∀ i : Nat, (text ++ [nul])[i]? = some '-' ↔ text[i]? = some '-' := by
    intro i
    by_cases hi : i < text.length
    · rw [List.getElem?_append_left hi]
    · have hnone : text[i]? = none := List.getElem?_eq_none (Nat.le_of_not_lt hi)
      rw [List.getElem?_append_right (Nat.le_of_not_lt hi), hnone]
      constructor
      · intro h
        exact absurd (List.mem_singleton.mp (List.mem_of_getElem? h)).symm nul_ne_hyphen
      · intro h
        exact absurd h (by simp)
  unfold FewHyphens
  simp only [hsame]

end Walk

/-! ## The values -/

/-- A value is read up to the terminator at most. -/
theorem readValue_terminated (r stale : Text) : ∀ offset,
    readValue offset (r ++ nul :: stale) =
      ⟨List.range' offset ((r.takeWhile isalnum).length + 1), r.takeWhile isalnum, false⟩ := by
  induction r with
  | nil => intro offset; rfl
  | cons c r ih =>
    intro offset
    rw [List.cons_append, readValue]
    by_cases hc : isalnum c = true
    · rw [if_pos hc, ih (offset + 1), List.takeWhile_cons_of_pos hc]
      rfl
    · rw [if_neg hc, List.takeWhile_cons_of_neg hc]
      rfl

/-- Without an end to it the array is left. -/
theorem readValue_outside (r : Text) (h : ∀ c ∈ r, isalnum c = true) : ∀ offset,
    (readValue offset r).outside = true := by
  induction r with
  | nil => intro offset; rfl
  | cons c r ih =>
    intro offset
    rw [readValue, if_pos (h c List.mem_cons_self)]
    exact ih (fun d hd => h d (List.mem_cons_of_mem c hd)) (offset + 1)

theorem mem_examined_readValue (offset : Nat) (r : Text) :
    offset ∈ (readValue offset r).examined := by
  cases r with
  | nil => exact List.mem_cons_self
  | cons c r =>
    rw [readValue]
    split
    · exact List.mem_cons_self
    · exact List.mem_cons_self

end Store
end TsnController

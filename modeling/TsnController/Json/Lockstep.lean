import Mathlib.Data.List.GetD
import TsnController.Json.Machine

/-!
# The copier follows the scanner

`json_scan` and `json_copy` are two loops over the same characters, and each works out for itself
which quotes delimit a string and which backslashes start an escape. Neither tells the other: the
copier is handed `left` and a size, and its `str[++i]` looks at the next character without asking
whether there is one.

Both loops are therefore written once more here with a record of what they do on the way. The
scanner's (`scanRun`) keeps the pointers at which it counts a quote; the copier's (`copyRun`) the
indices it reads, the quotes it counts and the backslashes it takes for an escape. Apart from the
record they are the loops of `Scan`, which `scanRun_result` and `copyRunLoop_out` say.

A successful scan is then the derivation `Scans`, a run of the copier that stays inside its span
the derivation `Copies`, and the theorem between them is `Scans.copies`: where the scanner goes
the copier goes, with the same count at the same character. What the copier does to memory and
what it delivers are read off `Copies`, one rule induction each.
-/

set_option autoImplicit false

namespace TsnController
namespace Json

open CLib Lib

/-! ## The scanner with its quotes -/

/-- A run of `json_scan`: where it executed `quotes++`, and what it returned. -/
structure ScanRun where
  counted : List Text
  result : Option Scan

def ScanRun.count (str : Text) (run : ScanRun) : ScanRun :=
  { run with counted := str :: run.counted }

def scanRun (quotes : Nat) (marks : Option (Text × Text)) : Text → ScanRun
  | [] => ⟨[], scanEnd quotes marks []⟩
  | c :: cs =>
    if c = '\\' then
      match cs with
      | [] => ⟨[], none⟩
      | e :: es =>
        if quotes % 2 = 1 ∧ jsonIsEscape e then scanRun quotes (mark (e :: es) marks) es
        else ⟨[], none⟩
    else if c = '"' then (scanRun (quotes + 1) (mark (c :: cs) marks) cs).count (c :: cs)
    else if quotes % 2 = 0 then
      if jsonIsToken c then ⟨[], scanEnd quotes marks (c :: cs)⟩
      else if 0 < quotes ∧ isspace c = false then ⟨[], none⟩
      else scanRun quotes (mark (c :: cs) marks) cs
    else scanRun quotes (mark (c :: cs) marks) cs

/-- The quotes `json_scan` counts on its way. -/
def countedQuotes (text : Text) : List Text := (scanRun 0 none text).counted

theorem scanRun_result (quotes : Nat) (marks : Option (Text × Text)) (t : Text) :
    (scanRun quotes marks t).result = scanLoop quotes marks t := by
  fun_induction scanRun quotes marks t with
  | case1 => rfl
  | case2 => rw [scanLoop.eq_def]; simp only [if_true]
  | case3 quotes marks e es h ih => rw [scanLoop_escape, if_pos h, ih]
  | case4 quotes marks e es h => rw [scanLoop_escape, if_neg h]
  | case5 quotes marks cs hc ih =>
    rw [scanLoop_plain hc, if_pos rfl, ← ih]
    rfl
  | case6 quotes marks c cs hb hc hq ht => rw [scanLoop_plain hb, if_neg hc, if_pos hq, if_pos ht]
  | case7 quotes marks c cs hb hc hq ht hs =>
    rw [scanLoop_plain hb, if_neg hc, if_pos hq, if_neg ht, if_pos hs]
  | case8 quotes marks c cs hb hc hq ht hs ih =>
    rw [scanLoop_plain hb, if_neg hc, if_pos hq, if_neg ht, if_neg hs, ih]
  | case9 quotes marks c cs hb hc hq ih => rw [scanLoop_plain hb, if_neg hc, if_neg hq, ih]

/-- A successful run of the scanner from a text on, with the count it starts from: the quotes it
counts, and the entity (or end) it stops at. -/
inductive Scans (token : Text) : Nat → Text → List Text → Prop
  | stop {quotes : Nat} : quotes % 2 = 0 → Scans token quotes token []
  | escape {quotes : Nat} {e : Char} {es : Text} {counted : List Text} : quotes % 2 = 1 →
      jsonIsEscape e = true → Scans token quotes es counted →
      Scans token quotes ('\\' :: e :: es) counted
  | quote {quotes : Nat} {cs : Text} {counted : List Text} : Scans token (quotes + 1) cs counted →
      Scans token quotes ('"' :: cs) (('"' :: cs) :: counted)
  | other {quotes : Nat} {c : Char} {cs : Text} {counted : List Text} : c ≠ '\\' → c ≠ '"' →
      Scans token quotes cs counted → Scans token quotes (c :: cs) counted

theorem scanEnd_eq_some {quotes : Nat} {marks : Option (Text × Text)} {t : Text} {s : Scan}
    (h : scanEnd quotes marks t = some s) : quotes % 2 = 0 ∧ s.token = t := by
  rw [scanEnd.eq_def, Option.ite_none_left_eq_some] at h
  refine ⟨by omega, ?_⟩
  cases marks with
  | none => exact (congrArg Scan.token (Option.some.inj h.2)).symm
  | some m => exact (congrArg Scan.token (Option.some.inj h.2)).symm

theorem Scans.of_run {quotes : Nat} {marks : Option (Text × Text)} {t : Text} {s : Scan} :
    (scanRun quotes marks t).result = some s →
      Scans s.token quotes t (scanRun quotes marks t).counted := by
  fun_induction scanRun quotes marks t with
  | case1 quotes marks =>
    intro h
    obtain ⟨hq, ht⟩ := scanEnd_eq_some h
    exact ht ▸ .stop hq
  | case2 => exact fun h => absurd h (by simp)
  | case3 quotes marks e es he ih => exact fun h => .escape he.1 he.2 (ih h)
  | case4 => exact fun h => absurd h (by simp)
  | case5 quotes marks cs _ ih => exact fun h => .quote (ih h)
  | case6 quotes marks c cs _ _ _ _ =>
    intro h
    obtain ⟨hq, ht⟩ := scanEnd_eq_some h
    exact ht ▸ .stop hq
  | case7 => exact fun h => absurd h (by simp)
  | case8 quotes marks c cs hb hc _ _ _ ih => exact fun h => .other hb hc (ih h)
  | case9 quotes marks c cs hb hc _ ih => exact fun h => .other hb hc (ih h)

namespace Scans

variable {token t pad : Text} {quotes : Nat} {counted : List Text}

theorem length_le (h : Scans token quotes t counted) : token.length ≤ t.length := by
  induction h with
  | stop _ => exact Nat.le_refl _
  | escape _ _ _ ih => simp only [List.length_cons]; omega
  | quote _ ih => simp only [List.length_cons]; omega
  | other _ _ _ ih => simp only [List.length_cons]; omega

/-- Every string that is opened is closed. -/
theorem even (h : Scans token quotes t counted) : (quotes + counted.length) % 2 = 0 := by
  induction h with
  | stop hq => exact hq
  | escape _ _ _ ih => exact ih
  | quote _ ih => simp only [List.length_cons]; omega
  | other _ _ _ ih => exact ih

/-- The white space in front of the content counts no quote. -/
theorem skip (hp : Blank pad) (hlen : token.length ≤ t.length)
    (h : Scans token quotes (pad ++ t) counted) : Scans token quotes t counted := by
  induction pad with
  | nil => exact h
  | cons c cs ih =>
    have hc : isspace c = true := hp c (by simp)
    generalize hu : c :: cs ++ t = u at h
    cases h with
    | stop _ =>
      -- the entity would be longer than what stands in front of it allows
      have := congrArg List.length hu
      simp only [List.length_append, List.length_cons] at this
      omega
    | escape _ _ _ =>
      obtain rfl : c = '\\' := (List.cons.inj hu).1
      exact absurd hc (by decide)
    | quote _ =>
      obtain rfl : c = '"' := (List.cons.inj hu).1
      exact absurd hc (by decide)
    | other _ _ h' =>
      obtain ⟨_, rfl⟩ := List.cons.inj hu
      exact ih (fun d hd => hp d (by simp [hd])) h'

end Scans

/-! ## The copier with what it touches -/

/-- `str[i]`, as far as the terminator. -/
def charAt (str : Text) (i : Nat) : Char := str.getD i nul

/-- A run of `json_copy`: the indices of `str` it reads, those at which it executes `quotes++`,
those of the backslashes it takes for an escape, and what it writes in front of the terminator. -/
structure CopyRun where
  reads : List Nat := []
  quotes : List Nat := []
  escapes : List Nat := []
  out : Text := []

namespace CopyRun

/-- A round on a backslash, which looks at `str[++i]` as well. -/
def escape (str : Text) (i : Nat) (run : CopyRun) : CopyRun where
  reads := i :: (i + 1) :: run.reads
  quotes := run.quotes
  escapes := i :: run.escapes
  out := (unescape (charAt str (i + 1))).toList ++ run.out

def quote (i : Nat) (run : CopyRun) : CopyRun :=
  { run with reads := i :: run.reads, quotes := i :: run.quotes }

/-- A round on any other character, which is dropped between two strings. -/
def other (str : Text) (quotes i : Nat) (run : CopyRun) : CopyRun :=
  { run with
    reads := i :: run.reads
    out := if quotes = 0 ∨ quotes % 2 = 1 then charAt str i :: run.out else run.out }

end CopyRun

/-- The loop of `json_copy`, at most `rounds` of it; every round moves `i` on. -/
def copyRunLoop (str : Text) (size : Nat) : Nat → Nat → Nat → CopyRun
  | 0, _, _ => {}
  | rounds + 1, quotes, i =>
    if size ≤ i then {}
    else if charAt str i = '\\' then (copyRunLoop str size rounds quotes (i + 2)).escape str i
    else if charAt str i = '"' then (copyRunLoop str size rounds (quotes + 1) (i + 1)).quote i
    else (copyRunLoop str size rounds quotes (i + 1)).other str quotes i

def copyRun (str : Text) (size : Nat) : CopyRun := copyRunLoop str size size 0 0

section Copier

variable {str : Text} {size rounds quotes i : Nat}

theorem copyRunLoop_done (h : size ≤ i) : copyRunLoop str size rounds quotes i = {} := by
  cases rounds with
  | zero => rfl
  | succ n => rw [copyRunLoop, if_pos h]

theorem charAt_of_drop {c : Char} {cs : Text} (h : str.drop i = c :: cs) : charAt str i = c := by
  have hget : str[i]? = some c := by rw [← List.head?_drop, h]; rfl
  rw [charAt, List.getD_eq_getElem?_getD, hget]
  rfl

theorem drop_succ_of_drop {c : Char} {cs : Text} (h : str.drop i = c :: cs) :
    str.drop (i + 1) = cs := by
  rw [← List.tail_drop, h]
  rfl

theorem drop_eq_charAt (h : i < str.length) : str.drop i = charAt str i :: str.drop (i + 1) := by
  rw [List.drop_eq_getElem_cons h, charAt, List.getD_eq_getElem _ _ h]

/-- What the recorded copier writes is what the copier writes. -/
theorem copyRunLoop_out (hsize : size ≤ str.length) (hr : size - i ≤ rounds) :
    (copyRunLoop str size rounds quotes i).out = copyLoop quotes (str.drop i) (size - i) := by
  induction rounds generalizing quotes i with
  | zero =>
    rw [Nat.le_zero.mp hr]
    cases str.drop i <;> rfl
  | succ rounds ih =>
    by_cases hi : size ≤ i
    · rw [copyRunLoop_done hi, Nat.sub_eq_zero_of_le hi]
      cases str.drop i <;> rfl
    have hlt : i < str.length := by omega
    obtain ⟨n, hn⟩ : ∃ n, size - i = n + 1 := ⟨size - i - 1, by omega⟩
    have hn1 : size - (i + 1) = n := by omega
    rw [copyRunLoop, if_neg hi, drop_eq_charAt hlt, hn]
    by_cases hb : charAt str i = '\\'
    · rw [if_pos hb, hb, copyLoop.eq_def]
      simp only [if_true, CopyRun.escape]
      rw [ih (by omega), show size - (i + 2) = n - 1 by omega]
      by_cases hlast : i + 1 < str.length
      · rw [drop_eq_charAt hlast]
      · -- a backslash at the end of the text is followed by the terminator, which is no escape
        rw [List.drop_eq_nil_of_le (by omega), List.drop_eq_nil_of_le (by omega), charAt,
          List.getD_eq_default _ _ (by omega)]
        rfl
    · rw [if_neg hb, copyLoop_plain hb]
      by_cases hc : charAt str i = '"'
      · rw [if_pos hc, if_pos hc, CopyRun.quote, ih (by omega), hn1]
      · rw [if_neg hc, if_neg hc, CopyRun.other, ih (by omega), hn1]

theorem copyRun_out (hsize : size ≤ str.length) : (copyRun str size).out = jsonCopy str size :=
  copyRunLoop_out hsize (Nat.le_refl _)

end Copier

/-- A run of the copier that never leaves its span and never meets a backslash it cannot resolve,
from a count and an index on. -/
inductive Copies (str : Text) (size : Nat) : Nat → Nat → CopyRun → Prop
  | done {quotes i : Nat} : size ≤ i → Copies str size quotes i {}
  | escape {quotes i : Nat} {run : CopyRun} : i + 1 < size → quotes % 2 = 1 →
      charAt str i = '\\' → jsonIsEscape (charAt str (i + 1)) = true →
      Copies str size quotes (i + 2) run → Copies str size quotes i (run.escape str i)
  | quote {quotes i : Nat} {run : CopyRun} : i < size → charAt str i = '"' →
      Copies str size (quotes + 1) (i + 1) run → Copies str size quotes i (run.quote i)
  | other {quotes i : Nat} {run : CopyRun} : i < size → charAt str i ≠ '\\' →
      charAt str i ≠ '"' → Copies str size quotes (i + 1) run →
      Copies str size quotes i (run.other str quotes i)

/-! ## In step -/

section Span

variable {str content pad token : Text}

/-- Behind the span and in front of the entity there is white space only. -/
theorem isspace_past_span (hstr : str = content ++ (pad ++ token)) (hpad : Blank pad) {i : Nat}
    {c : Char} {cs : Text} (hd : str.drop i = c :: cs) (hlen : token.length ≤ cs.length)
    (hi : content.length ≤ i) : isspace c = true := by
  obtain ⟨k, rfl⟩ : ∃ k, i = content.length + k := ⟨i - content.length, by omega⟩
  rw [hstr, List.drop_length_add_append, List.drop_append] at hd
  have hk := congrArg List.length hd
  simp only [List.length_append, List.length_drop, List.length_cons] at hk
  have hmem : pad.drop k ≠ [] := by
    intro hnil
    have := congrArg List.length hnil
    simp only [List.length_drop, List.length_nil] at this
    omega
  obtain ⟨d, ds, hds⟩ := List.exists_cons_of_ne_nil hmem
  rw [hds, List.cons_append] at hd
  obtain rfl : d = c := (List.cons.inj hd).1
  exact hpad d (List.mem_of_mem_drop (by rw [hds]; exact List.mem_cons_self))

theorem isspace_of_jsonIsEscape {e : Char} (h : jsonIsEscape e = true) : isspace e = false := by
  obtain ⟨esc, rfl⟩ := exists_code h
  exact isspace_code esc

/-- **Where the scanner goes, the copier goes**, and it counts the quotes the scanner counted.
The induction is on the scanner's run; the copier may be done earlier, since the scanner also
passes the white space between the span and the entity. -/
theorem Scans.copies (hstr : str = content ++ (pad ++ token)) (hpad : Blank pad) {quotes : Nat}
    {t : Text} {counted : List Text} (h : Scans token quotes t counted) : ∀ (i rounds : Nat),
    str.drop i = t → content.length - i ≤ rounds →
      Copies str content.length quotes i (copyRunLoop str content.length rounds quotes i) ∧
      (copyRunLoop str content.length rounds quotes i).quotes.map str.drop = counted := by
  induction h with
  | stop _ =>
    intro i rounds hd _
    have hlen := congrArg List.length hd
    rw [hstr] at hlen
    simp only [List.length_append, List.length_drop] at hlen
    have hi : content.length ≤ i := by omega
    rw [copyRunLoop_done hi]
    exact ⟨.done hi, rfl⟩
  | @escape quotes e es counted hq he hes ih =>
    intro i rounds hd hr
    have hd1 := drop_succ_of_drop hd
    have hi1 : i + 1 < content.length := by
      by_contra hge
      have := isspace_past_span hstr hpad hd1 hes.length_le (by omega)
      rw [isspace_of_jsonIsEscape he] at this
      exact absurd this (by simp)
    obtain ⟨n, rfl⟩ : ∃ n, rounds = n + 1 := ⟨rounds - 1, by omega⟩
    have hc := charAt_of_drop hd
    obtain ⟨hrun, hquotes⟩ := ih (i + 2) n (drop_succ_of_drop hd1) (by omega)
    rw [copyRunLoop, if_neg (by omega), if_pos hc]
    exact ⟨.escape hi1 hq hc ((charAt_of_drop hd1).symm ▸ he) hrun, hquotes⟩
  | @quote quotes cs counted hcs ih =>
    intro i rounds hd hr
    have hi : i < content.length := by
      by_contra hge
      have := isspace_past_span hstr hpad hd hcs.length_le (by omega)
      exact absurd this (by decide)
    obtain ⟨n, rfl⟩ : ∃ n, rounds = n + 1 := ⟨rounds - 1, by omega⟩
    have hc := charAt_of_drop hd
    obtain ⟨hrun, hquotes⟩ := ih (i + 1) n (drop_succ_of_drop hd) (by omega)
    rw [copyRunLoop, if_neg (by omega), if_neg (by rw [hc]; decide), if_pos hc]
    refine ⟨.quote hi hc hrun, ?_⟩
    rw [CopyRun.quote, List.map_cons, hquotes, hd]
  | @other quotes c cs counted hb hq hcs ih =>
    intro i rounds hd hr
    have hc := charAt_of_drop hd
    by_cases hi : content.length ≤ i
    · obtain ⟨_, hquotes⟩ := ih (i + 1) rounds (drop_succ_of_drop hd) (by omega)
      rw [copyRunLoop_done (by omega)] at hquotes
      rw [copyRunLoop_done hi]
      exact ⟨.done hi, hquotes⟩
    · obtain ⟨n, rfl⟩ : ∃ n, rounds = n + 1 := ⟨rounds - 1, by omega⟩
      obtain ⟨hrun, hquotes⟩ := ih (i + 1) n (drop_succ_of_drop hd) (by omega)
      rw [copyRunLoop, if_neg hi, if_neg (by rwa [hc]), if_neg (by rwa [hc])]
      exact ⟨.other (by omega) (by rwa [hc]) (by rwa [hc]) hrun, hquotes⟩

end Span

/-! ## What a run of the copier does -/

/-- The escapes of a segment resolved. -/
def unescaped : Text → Text
  | [] => []
  | [c] => [c]
  | c :: e :: es =>
    if c = '\\' then (unescape e).toList ++ unescaped es
    else c :: unescaped (e :: es)

theorem unescaped_plain {c : Char} {cs : Text} (h : c ≠ '\\') :
    unescaped (c :: cs) = c :: unescaped cs := by
  cases cs with
  | nil => rfl
  | cons e es => rw [unescaped, if_neg h]

theorem unescaped_escape {e : Char} {es : Text} :
    unescaped ('\\' :: e :: es) = (unescape e).toList ++ unescaped es := by
  rw [unescaped, if_pos rfl]

/-- The segments a list of quotes delimits: between the first and the second of them, between the
third and the fourth, and so on. -/
def segments (str : Text) : List Nat → List Text
  | a :: b :: rest => (str.take b).drop (a + 1) :: segments str rest
  | _ => []

theorem length_unescape_le (c : Char) : (unescape c).toList.length ≤ 1 := by
  cases unescape c <;> simp

theorem slice_eq_charAt {str : Text} {i b : Nat} (hi : i < b) (hb : i < str.length) :
    (str.take b).drop i = charAt str i :: (str.take b).drop (i + 1) := by
  have hlt : i < (str.take b).length := by rw [List.length_take]; omega
  rw [List.drop_eq_getElem_cons hlt, charAt, List.getD_eq_getElem _ _ hb, List.getElem_take]

namespace Copies

variable {str : Text} {size quotes i : Nat} {run : CopyRun}

theorem reads_lt (h : Copies str size quotes i run) : ∀ j ∈ run.reads, j < size := by
  induction h with
  | done _ => exact fun j hj => absurd hj (by simp)
  | escape hi _ _ _ _ ih =>
    intro j hj
    simp only [CopyRun.escape, List.mem_cons] at hj
    rcases hj with rfl | rfl | hj
    · omega
    · exact hi
    · exact ih j hj
  | quote hi _ _ ih =>
    intro j hj
    rcases List.mem_cons.mp hj with rfl | hj
    · exact hi
    · exact ih j hj
  | other hi _ _ _ ih =>
    intro j hj
    rcases List.mem_cons.mp hj with rfl | hj
    · exact hi
    · exact ih j hj

theorem length_out (h : Copies str size quotes i run) : run.out.length ≤ size - i := by
  induction h with
  | done _ => exact Nat.zero_le _
  | @escape quotes i run hi _ _ _ _ ih =>
    have := length_unescape_le (charAt str (i + 1))
    rw [CopyRun.escape, List.length_append]
    omega
  | @quote quotes i run hi _ _ ih =>
    show run.out.length ≤ size - i
    omega
  | @other quotes i run hi _ _ _ ih =>
    simp only [CopyRun.other]
    split
    · rw [List.length_cons]; omega
    · omega

/-- The quotes that are counted lie ahead, and are quotes. -/
theorem quotes_spec (h : Copies str size quotes i run) :
    ∀ j ∈ run.quotes, i ≤ j ∧ j < size ∧ charAt str j = '"' := by
  induction h with
  | done _ => exact fun j hj => absurd hj (by simp)
  | escape _ _ _ _ _ ih =>
    intro j hj
    obtain ⟨h₁, h₂⟩ := ih j hj
    exact ⟨by omega, h₂⟩
  | quote hi hc _ ih =>
    intro j hj
    rcases List.mem_cons.mp hj with rfl | hj
    · exact ⟨Nat.le_refl _, hi, hc⟩
    · obtain ⟨h₁, h₂⟩ := ih j hj
      exact ⟨by omega, h₂⟩
  | other _ _ _ _ ih =>
    intro j hj
    obtain ⟨h₁, h₂⟩ := ih j hj
    exact ⟨by omega, h₂⟩

/-- Every backslash that is taken for an escape is one: it has a character behind it in the span,
that character may stand there, and it is not counted as a quote. -/
theorem escapes_spec (h : Copies str size quotes i run) :
    ∀ j ∈ run.escapes, i ≤ j ∧ j + 1 < size ∧ jsonIsEscape (charAt str (j + 1)) = true ∧
      j + 1 ∉ run.quotes := by
  induction h with
  | done _ => exact fun j hj => absurd hj (by simp)
  | escape hi _ _ he hrun ih =>
    intro j hj
    rcases List.mem_cons.mp hj with rfl | hj
    · refine ⟨Nat.le_refl _, hi, he, fun hmem => ?_⟩
      have := (hrun.quotes_spec _ hmem).1
      omega
    · obtain ⟨h₁, h₂⟩ := ih j hj
      exact ⟨by omega, h₂⟩
  | quote _ _ _ ih =>
    intro j hj
    obtain ⟨h₁, h₂, h₃, h₄⟩ := ih j hj
    refine ⟨by omega, h₂, h₃, fun hmem => ?_⟩
    rcases List.mem_cons.mp hmem with hj' | hmem
    · omega
    · exact h₄ hmem
  | other _ _ _ _ ih =>
    intro j hj
    obtain ⟨h₁, h₂⟩ := ih j hj
    exact ⟨by omega, h₂⟩

/-- Without quotes the span is copied as it is. -/
theorem out_of_no_quotes (hsize : size ≤ str.length) (h : Copies str size quotes i run) :
    quotes = 0 → run.quotes = [] → run.out = (str.take size).drop i := by
  induction h with
  | @done quotes i hi =>
    intro _ _
    rw [List.drop_eq_nil_of_le]
    rw [List.length_take]
    omega
  | escape _ hq _ _ _ _ =>
    intro hzero _
    rw [hzero] at hq
    exact absurd hq (by decide)
  | quote _ _ _ _ => exact fun _ hnil => absurd hnil (by simp [CopyRun.quote])
  | @other quotes i run hi _ _ _ ih =>
    intro hzero hnil
    rw [CopyRun.other, if_pos (Or.inl hzero), ih hzero hnil, ← slice_eq_charAt hi (by omega)]

/-- With the strings closed, what is written is the segments between the quotes, unescaped: the
rest of the open one first, where the run starts inside a string. -/
theorem out_of_closed (hsize : size ≤ str.length) (h : Copies str size quotes i run) :
    (quotes + run.quotes.length) % 2 = 0 →
      (quotes % 2 = 1 → ∃ b rest, run.quotes = b :: rest ∧ run.out =
        unescaped ((str.take b).drop i) ++ (segments str rest).flatMap unescaped) ∧
      (quotes % 2 = 0 → 0 < quotes →
        run.out = (segments str run.quotes).flatMap unescaped) := by
  induction h with
  | done _ =>
    intro heven
    refine ⟨fun hodd => ?_, fun _ _ => rfl⟩
    rw [List.length_nil] at heven
    omega
  | @escape quotes i run hi hq hc _ hrun ih =>
    intro heven
    refine ⟨fun hodd => ?_, fun hev => absurd hq (by omega)⟩
    obtain ⟨b, rest, hb, hout⟩ := (ih heven).1 hodd
    have hle : i + 2 ≤ b := (hrun.quotes_spec b (by rw [hb]; exact List.mem_cons_self)).1
    refine ⟨b, rest, hb, ?_⟩
    rw [slice_eq_charAt (i := i) (by omega) (by omega), hc,
      slice_eq_charAt (i := i + 1) (by omega) (by omega), unescaped_escape, List.append_assoc,
      ← hout]
    rfl
  | @quote quotes i run hi hc hrun ih =>
    intro heven
    have heven' : (quotes + 1 + run.quotes.length) % 2 = 0 := by
      rw [CopyRun.quote, List.length_cons] at heven
      omega
    constructor
    · -- the closing quote of the open segment
      intro hodd
      refine ⟨i, run.quotes, rfl, ?_⟩
      have hnil : (str.take i).drop i = [] :=
        List.drop_eq_nil_of_le (by rw [List.length_take]; omega)
      rw [hnil]
      exact (ih heven').2 (by omega) (by omega)
    · -- an opening quote: the run behind it starts inside
      intro hev _
      obtain ⟨b, rest, hb, hout⟩ := (ih heven').1 (by omega)
      rw [CopyRun.quote, hout, hb, segments, List.flatMap_cons]
  | @other quotes i run hi hb hc hrun ih =>
    intro heven
    constructor
    · intro hodd
      obtain ⟨b, rest, hb', hout⟩ := (ih heven).1 hodd
      have hle : i + 1 ≤ b := (hrun.quotes_spec b (by rw [hb']; exact List.mem_cons_self)).1
      refine ⟨b, rest, hb', ?_⟩
      rw [CopyRun.other, if_pos (Or.inr hodd), hout,
        slice_eq_charAt (i := i) (by omega) (by omega), unescaped_plain hb, List.cons_append]
    · intro hev hpos
      rw [CopyRun.other, if_neg (by omega)]
      exact (ih heven).2 hev hpos

/-- The same for a run from the start that opens with a quote. -/
theorem out_of_opening (hsize : size ≤ str.length) (h : Copies str size 0 0 run)
    (hpos : 0 < size) (hc : charAt str 0 = '"') (heven : run.quotes.length % 2 = 0) :
    run.quotes ≠ [] ∧ run.out = (segments str run.quotes).flatMap unescaped := by
  cases h with
  | done hle => exact absurd hle (by omega)
  | escape _ hq _ _ _ => exact absurd hq (by decide)
  | other _ _ hne _ => exact absurd hc hne
  | @quote _ _ run _ _ hrun =>
    rw [CopyRun.quote, List.length_cons] at heven
    obtain ⟨b, rest, hb, hout⟩ := (hrun.out_of_closed hsize (by omega)).1 (by decide)
    refine ⟨by simp [CopyRun.quote], ?_⟩
    rw [CopyRun.quote, hout, hb, segments, List.flatMap_cons]

end Copies

/-! ## The two together -/

/-- The span of the scan is handed to `json_copy`, which delivers `new`. -/
inductive PassedToCopy (s : Scan) (new : Text) : Prop
  | name {node node' : JsonCell} : jsonSetName node s.left s.right = some node' →
      node'.name = some new → PassedToCopy s new
  | value {node node' : JsonCell} : jsonSetValue node s.left s.right = some node' →
      node'.value = some new → PassedToCopy s new

/-- The copier's run over `size` characters from `str` on agrees with the scan of the text. -/
structure FollowsScan (text str : Text) (size : Nat) (run : CopyRun) (new : Text) : Prop where
  /-- the span is part of the text -/
  size_le : size ≤ str.length
  reads_lt : ∀ i ∈ run.reads, i < size
  /-- with the terminator `size + 1` characters are written at most, which is what was allocated -/
  length_le : run.out.length ≤ size
  /-- the quotes that delimit are the quotes the scanner counted -/
  quotes_eq : run.quotes.map str.drop = countedQuotes text
  quotes_even : run.quotes.length % 2 = 0
  escapes : ∀ i ∈ run.escapes, i + 1 < size ∧ jsonIsEscape (charAt str (i + 1)) = true ∧
    i + 1 ∉ run.quotes
  out_eq : run.out = new
  content : run.out = if run.quotes = [] then str.take size
    else (segments str run.quotes).flatMap unescaped

/-- `strtod` converts nothing at an entity or at the end of the text. -/
theorem strtodEnd_of_stop {token : Text} (h : Stop token) : strtodEnd token = 0 := by
  cases token with
  | nil => rfl
  | cons c cs =>
    rcases jsonIsToken_cases (h c (by simp)) with rfl | rfl | rfl | rfl | rfl | rfl <;> rfl

theorem valueType_of_stop {token : Text} (h : Stop token) : valueType token token = none := by
  have hquote : deref token ≠ '"' := by
    cases token with
    | nil => decide
    | cons c cs => exact (jsonIsToken_plain (h c (by simp))).2.1
  have hsize : spanSize token token = 1 := by rw [spanSize, Nat.sub_self]
  simp [valueType, hquote, hsize, strtodEnd_of_stop h]

section Together

variable {text content token new : Text} {s : Scan}

/-- What reaches the copier is not empty, and starts with a quote or is free of them. -/
theorem Scanned.passed (hs : Scanned text content token s) (hp : PassedToCopy s new) :
    content ≠ [] ∧ (content.head? = some '"' ∨ ∀ c ∈ content, c ≠ '"') ∧
      new = jsonCopy s.left (spanSize s.left s.right) := by
  cases hp with
  | @name node node' hset hnew =>
    have hhead : content.head? = some '"' := by
      rw [hs.setName_eq, Option.ite_none_right_eq_some] at hset
      exact hset.1
    refine ⟨fun hnil => absurd hhead (by simp [hnil]), Or.inl hhead, ?_⟩
    rw [jsonSetName, Option.ite_none_left_eq_some] at hset
    rw [← Option.some.inj hset.2] at hnew
    exact (Option.some.inj hnew).symm
  | @value node node' hset hnew =>
    obtain ⟨type, htype, hnode⟩ := Option.map_eq_some_iff.mp hset
    have hne : content ≠ [] := by
      rintro rfl
      cases hs with
      | bare _ hstop => rw [valueType_of_stop hstop] at htype; exact absurd htype (by simp)
      | found _ hf => exact hf.1 rfl
    refine ⟨hne, ?_, ?_⟩
    · by_cases hq : content.head? = some '"'
      · exact Or.inl hq
      · rw [hs.valueType_eq hne] at htype
        have hword := numChar_of_scalarType (hs.flush hne) htype hq
        exact Or.inr fun c hc => (numChar_plain (hword c hc)).2.1
    · rw [← hnode] at hnew
      exact (Option.some.inj hnew).symm

/-- **The copier agrees with the scanner** on every span that reaches it. -/
theorem jsonCopy_follows (hscan : jsonScan text = some s) (hp : PassedToCopy s new) :
    FollowsScan text s.left (spanSize s.left s.right) (copyRun s.left (spanSize s.left s.right))
      new := by
  obtain ⟨content, hs⟩ := jsonScan_spec hscan
  obtain ⟨hne, hquote, hnew⟩ := hs.passed hp
  have hrun : Scans s.token 0 text (countedQuotes text) :=
    .of_run ((scanRun_result 0 none text).trans hscan)
  generalize htoken : s.token = token at hs hrun
  cases hs with
  | bare => exact absurd rfl hne
  | @found pad _ pad' _ x hpad hf hlast hpad' hstop _ =>
    have hpos : 0 < content.length := List.length_pos_iff.mpr hne
    have hsize : spanSize (content ++ (pad' ++ token)) (x :: (pad' ++ token)) = content.length := by
      simp only [spanSize, List.length_append, List.length_cons]; omega
    have hle : content.length ≤ (content ++ (pad' ++ token)).length := by
      rw [List.length_append]; omega
    -- From `left` on the two loops run side by side.
    have hleft := hrun.skip hpad (by simp only [List.length_append]; omega)
    obtain ⟨hcopies, hquotes⟩ := hleft.copies rfl hpad' 0 content.length rfl
      (Nat.le_refl _)
    have heven : (copyRun (content ++ (pad' ++ token)) content.length).quotes.length % 2 = 0 := by
      have := hleft.even
      rw [← hquotes, List.length_map, Nat.zero_add] at this
      exact this
    simp only [hsize] at hnew ⊢
    refine ⟨hle, hcopies.reads_lt, hcopies.length_out, hquotes, heven,
      fun i hi => (hcopies.escapes_spec i hi).2, (copyRun_out hle).trans hnew.symm, ?_⟩
    rcases hquote with hhead | hfree
    · have hc : charAt (content ++ (pad' ++ token)) 0 = '"' := by
        obtain ⟨ds, rfl⟩ := List.head?_eq_some_iff.mp hhead
        rfl
      obtain ⟨hq, hout⟩ := hcopies.out_of_opening hle hpos hc heven
      rw [copyRun, if_neg hq, hout]
    · have hnil : (copyRun (content ++ (pad' ++ token)) content.length).quotes = [] := by
        refine List.eq_nil_iff_forall_not_mem.mpr fun j hj => ?_
        obtain ⟨_, hj', hc⟩ := hcopies.quotes_spec j hj
        rw [charAt, List.getD_append _ _ _ _ hj', List.getD_eq_getElem _ _ hj'] at hc
        exact hfree _ (List.getElem_mem hj') hc
      rw [if_pos hnil]
      exact hcopies.out_of_no_quotes hle rfl hnil

end Together

/-- Two strings, the first with an escaped quote in it, as the name of a member. -/
theorem jsonCopy_follows_strings : ∃ s new, jsonScan "\"a\\\"b\" \"c\" : 1".toList = some s ∧
    new = "a\"bc".toList ∧ (copyRun s.left (spanSize s.left s.right)).quotes = [0, 5, 7, 9] ∧
    FollowsScan "\"a\\\"b\" \"c\" : 1".toList s.left (spanSize s.left s.right)
      (copyRun s.left (spanSize s.left s.right)) new := by
  have hscan : jsonScan "\"a\\\"b\" \"c\" : 1".toList =
      some ⟨"\"a\\\"b\" \"c\" : 1".toList, "\" : 1".toList, ": 1".toList⟩ := by decide +kernel
  refine ⟨_, "a\"bc".toList, hscan, rfl, by decide +kernel, jsonCopy_follows hscan ?_⟩
  exact @PassedToCopy.name _ _ {} { name := some "a\"bc".toList } (by decide +kernel) rfl

end Json
end TsnController

import Mathlib.Data.List.DropRight
import TsnController.Json.Run

/-!
# The scanner, one character at a time

`Reads` says what `json_scan` delivers by the two pointers it leaves. That is how the builder uses
it, and it is the wrong end for comparing the scans of *two* texts, because the pointers are
suffixes of the one text and move with everything behind them. Here the same fact is said forwards:
a machine (`Lex`) runs over the characters in front of the next entity, `stretch` is what it ran
over, and the content is that stretch without the white space at its ends (`reads_iff`).

The machine looks at one character and keeps nothing but its state, so a text that is cut anywhere
is run over in two parts (`passes`). Both facts about pairs of texts, a file that is cut off and a
file with more white space in it, come down to that lemma.
-/

set_option autoImplicit false

namespace TsnController
namespace Json

open CLib Lib

/-! ## The machine -/

/-- Outside quotes, with a string already seen or not; inside; behind a backslash inside. -/
inductive Lex
  | out (seen : Bool)
  | inside
  | escape
  deriving DecidableEq, Repr

/-- One character that is not the next entity; `none` refuses the text. -/
def Lex.step : Lex → Char → Option Lex
  | .out seen, c =>
    if c = '\\' then none
    else if c = '"' then some .inside
    else if seen = true ∧ isspace c = false then none
    else some (.out seen)
  | .inside, c =>
    if c = '\\' then some .escape
    else if c = '"' then some (.out true)
    else some .inside
  | .escape, c => if jsonIsEscape c then some .inside else none

/-- The machine stops in front of an entity, but not inside a string. -/
def Lex.stops : Lex → Char → Bool
  | .out _, c => jsonIsToken c
  | .inside, _ => false
  | .escape, _ => false

/-- More text in front of a stretch. -/
def longer (u : Text) (x : Text × Text) : Text × Text := (u ++ x.1, x.2)

/-- The characters the machine runs over, and the entity it stops in front of. -/
def stretch : Lex → Text → Option (Text × Text)
  | .out _, [] => some ([], [])
  | .inside, [] => none
  | .escape, [] => none
  | s, c :: cs =>
    if s.stops c then some ([], c :: cs)
    else (s.step c).bind fun s' => (stretch s' cs).map (longer [c])

theorem stretch_cons (s : Lex) (c : Char) (cs : Text) :
    stretch s (c :: cs) =
      if s.stops c then some ([], c :: cs)
      else (s.step c).bind fun s' => (stretch s' cs).map (longer [c]) := by
  cases s <;> rfl

theorem stretch_stops {s : Lex} {c : Char} (h : s.stops c = true) (cs : Text) :
    stretch s (c :: cs) = some ([], c :: cs) := by
  rw [stretch_cons, if_pos h]

theorem stretch_step {s s' : Lex} {c : Char} (h : s.stops c = false) (hs : s.step c = some s')
    (cs : Text) : stretch s (c :: cs) = (stretch s' cs).map (longer [c]) := by
  rw [stretch_cons, if_neg (by simp [h]), hs, Option.bind_some]

theorem stretch_refused {s : Lex} {c : Char} (h : s.stops c = false) (hs : s.step c = none)
    (cs : Text) : stretch s (c :: cs) = none := by
  rw [stretch_cons, if_neg (by simp [h]), hs, Option.bind_none]

theorem map_longer_nil (x : Option (Text × Text)) : x.map (longer []) = x := by
  cases x <;> rfl

theorem map_longer_map_longer (x : Option (Text × Text)) (u v : Text) :
    (x.map (longer v)).map (longer u) = x.map (longer (u ++ v)) := by
  cases x <;> simp [longer]

/-- White space outside quotes is run over. -/
theorem stretch_blank_append {pad : Text} (hp : Blank pad) (seen : Bool) (t : Text) :
    stretch (.out seen) (pad ++ t) = (stretch (.out seen) t).map (longer pad) := by
  induction pad with
  | nil => rw [List.nil_append, map_longer_nil]
  | cons c pad ih =>
    have hc : isspace c = true := hp c (by simp)
    obtain ⟨hb, hq, hnt, _⟩ := isspace_plain hc
    have hstop : (Lex.out seen).stops c = false := hnt
    have hstep : (Lex.out seen).step c = some (.out seen) := by
      rw [Lex.step, if_neg hb, if_neg hq, if_neg (by simp [hc])]
    rw [List.cons_append, stretch_step hstop hstep, ih (fun d hd => hp d (by simp [hd])),
      map_longer_map_longer]
    rfl

/-- In front of an entity there is nothing to run over. -/
theorem stretch_stop {token : Text} (ht : Stop token) (seen : Bool) :
    stretch (.out seen) token = some ([], token) := by
  cases token with
  | nil => rfl
  | cons c cs =>
    have hstop : (Lex.out seen).stops c = true := ht c rfl
    exact stretch_stops hstop cs

/-- A stretch and its entity are the text. -/
theorem stretch_eq {u token : Text} : ∀ {t : Text} {s : Lex}, stretch s t = some (u, token) →
    t = u ++ token := by
  intro t
  induction t generalizing u token with
  | nil =>
    intro s h
    cases s with
    | out seen => simp [stretch] at h; simp [h]
    | inside => simp [stretch] at h
    | escape => simp [stretch] at h
  | cons c cs ih =>
    intro s h
    cases hstop : s.stops c with
    | true =>
      rw [stretch_stops hstop] at h
      simp only [Option.some.injEq, Prod.mk.injEq] at h
      rw [← h.1, ← h.2, List.nil_append]
    | false =>
      cases hs : s.step c with
      | none => rw [stretch_refused hstop hs] at h; exact absurd h (by simp)
      | some s' =>
        rw [stretch_step hstop hs] at h
        obtain ⟨⟨u', token'⟩, h', hlonger⟩ := Option.map_eq_some_iff.mp h
        simp only [longer, Prod.mk.injEq] at hlonger
        rw [← hlonger.1, ← hlonger.2, ih h']
        rfl

/-! ## It is the scanner's -/

/-- The machine's state behind a number of quotes. -/
def lexOf (quotes : Nat) : Lex :=
  if quotes % 2 = 1 then .inside else .out (decide (0 < quotes))

theorem lexOf_odd {q : Nat} (h : q % 2 = 1) : lexOf q = .inside := if_pos h

theorem lexOf_even {q : Nat} (h : q % 2 = 0) : lexOf q = .out (decide (0 < q)) :=
  if_neg (by omega)

theorem lexOf_step_quote (q : Nat) : (lexOf q).step '"' = some (lexOf (q + 1)) := by
  rcases Nat.mod_two_eq_zero_or_one q with h | h
  · rw [lexOf_even h, lexOf_odd (by omega)]
    rfl
  · rw [lexOf_odd h, lexOf_even (by omega), decide_eq_true (Nat.succ_pos q)]
    rfl

theorem lexOf_stops_quote (q : Nat) : (lexOf q).stops '"' = false := by
  rcases Nat.mod_two_eq_zero_or_one q with h | h
  · rw [lexOf_even h]; rfl
  · rw [lexOf_odd h]; rfl

theorem scanEnd_token (q : Nat) (m : Option (Text × Text)) (str : Text) (h : q % 2 = 0) :
    (scanEnd q m str).map Scan.token = some str := by
  have hq : ¬ q % 2 = 1 := by omega
  unfold scanEnd
  rw [if_neg hq]
  cases m <;> rfl

/-- A map over a stretch does not change its entity. -/
theorem map_longer_snd (x : Option (Text × Text)) (u : Text) :
    (x.map (longer u)).map Prod.snd = x.map Prod.snd := by
  cases x <;> rfl

/-- Behind `q` quotes and with marks `m`, the scanner stops where the machine does. -/
def Agrees (q : Nat) (m : Option (Text × Text)) (t : Text) : Prop :=
  (scanLoop q m t).map Scan.token = (stretch (lexOf q) t).map Prod.snd

theorem agrees_nil (q : Nat) (m : Option (Text × Text)) : Agrees q m [] := by
  unfold Agrees
  rcases Nat.mod_two_eq_zero_or_one q with h | h
  · rw [scanLoop, scanEnd_token q m [] h, lexOf_even h]
    rfl
  · rw [scanLoop, lexOf_odd h]
    unfold scanEnd
    rw [if_pos h]
    rfl

/-- At a backslash: refused outside quotes, and inside if no escape follows. -/
theorem agrees_escape {q : Nat} {m : Option (Text × Text)} {cs : Text}
    (ih : ∀ m e es, cs = e :: es → Agrees q m es) : Agrees q m ('\\' :: cs) := by
  unfold Agrees
  rcases Nat.mod_two_eq_zero_or_one q with h | h
  · rw [lexOf_even h, stretch_refused rfl rfl]
    cases cs with
    | nil => rfl
    | cons e es => rw [scanLoop_escape, if_neg (by omega)]; rfl
  · have hescape : Lex.inside.step '\\' = some .escape := rfl
    rw [lexOf_odd h, stretch_step rfl hescape, map_longer_snd]
    cases cs with
    | nil => rfl
    | cons e es =>
      rw [scanLoop_escape]
      by_cases he : jsonIsEscape e = true
      · have hstep : Lex.escape.step e = some .inside := if_pos he
        have hrest := ih (mark (e :: es) m) e es rfl
        rw [if_pos ⟨h, he⟩, stretch_step rfl hstep, map_longer_snd, ← lexOf_odd h]
        exact hrest
      · have hstep : Lex.escape.step e = none := if_neg he
        rw [if_neg (fun hq => he hq.2), stretch_refused rfl hstep]
        rfl

/-- At any other character outside quotes. -/
theorem agrees_outside {q : Nat} {m : Option (Text × Text)} {c : Char} {cs : Text}
    (h : q % 2 = 0) (hb : c ≠ '\\') (hq : c ≠ '"') (ih : ∀ m, Agrees q m cs) :
    Agrees q m (c :: cs) := by
  unfold Agrees
  rw [scanLoop_plain hb, if_neg hq, if_pos h, lexOf_even h]
  by_cases ht : jsonIsToken c = true
  · have hstop : (Lex.out (decide (0 < q))).stops c = true := ht
    rw [if_pos ht, scanEnd_token q m _ h, stretch_stops hstop]
    rfl
  have hstop : (Lex.out (decide (0 < q))).stops c = false := Bool.eq_false_iff.mpr ht
  rw [if_neg ht]
  by_cases hbad : 0 < q ∧ isspace c = false
  · have hstep : (Lex.out (decide (0 < q))).step c = none := by
      rw [Lex.step, if_neg hb, if_neg hq, if_pos ⟨decide_eq_true hbad.1, hbad.2⟩]
    rw [if_pos hbad, stretch_refused hstop hstep]
    rfl
  · have hstep : (Lex.out (decide (0 < q))).step c = some (.out (decide (0 < q))) := by
      rw [Lex.step, if_neg hb, if_neg hq,
        if_neg (fun hs => hbad ⟨of_decide_eq_true hs.1, hs.2⟩)]
    rw [if_neg hbad, stretch_step hstop hstep, map_longer_snd, ← lexOf_even h]
    exact ih _

/-- … and inside. -/
theorem agrees_inside {q : Nat} {m : Option (Text × Text)} {c : Char} {cs : Text}
    (h : q % 2 = 1) (hb : c ≠ '\\') (hq : c ≠ '"') (ih : ∀ m, Agrees q m cs) :
    Agrees q m (c :: cs) := by
  have hstep : Lex.inside.step c = some .inside := by
    rw [Lex.step, if_neg hb, if_neg hq]
  unfold Agrees
  rw [scanLoop_plain hb, if_neg hq, if_neg (by omega), lexOf_odd h, stretch_step rfl hstep,
    map_longer_snd, ← lexOf_odd h]
  exact ih _

/-- At a quote. -/
theorem agrees_quote {q : Nat} {m : Option (Text × Text)} {cs : Text}
    (ih : ∀ m, Agrees (q + 1) m cs) : Agrees q m ('"' :: cs) := by
  unfold Agrees
  rw [scanLoop_plain (by decide), if_pos rfl,
    stretch_step (lexOf_stops_quote q) (lexOf_step_quote q), map_longer_snd]
  exact ih _

/-- Whatever the marks, the scanner stops where the machine does. -/
theorem scanLoop_token (n : Nat) : ∀ {q : Nat} {m : Option (Text × Text)} {t : Text},
    t.length ≤ n → (scanLoop q m t).map Scan.token = (stretch (lexOf q) t).map Prod.snd := by
  -- On the length: an escape takes two characters.
  induction n with
  | zero =>
    intro q m t hn
    obtain rfl : t = [] := List.length_eq_zero_iff.mp (Nat.le_zero.mp hn)
    exact agrees_nil q m
  | succ n ih =>
    intro q m t hn
    cases t with
    | nil => exact agrees_nil q m
    | cons c cs =>
      have hlen : cs.length ≤ n := by simpa using hn
      by_cases hb : c = '\\'
      · subst hb
        apply agrees_escape
        intro m e es hcs
        subst hcs
        exact ih (Nat.le_of_succ_le hlen)
      by_cases hq : c = '"'
      · subst hq
        exact agrees_quote fun _ => ih hlen
      rcases Nat.mod_two_eq_zero_or_one q with h | h
      · exact agrees_outside h hb hq fun _ => ih hlen
      · exact agrees_inside h hb hq fun _ => ih hlen

/-! ## The content of a stretch -/

/-- Without the white space at both ends. -/
def trim (u : Text) : Text := (u.dropWhile isspace).rdropWhile isspace

theorem dropWhile_blank_append {pad : Text} (hp : Blank pad) (u : Text) :
    (pad ++ u).dropWhile isspace = u.dropWhile isspace :=
  List.dropWhile_append_of_pos hp

theorem dropWhile_blank {pad : Text} (hp : Blank pad) : pad.dropWhile isspace = [] :=
  List.dropWhile_eq_nil_iff.mpr hp

theorem rdropWhile_append_blank {pad : Text} (hp : Blank pad) (u : Text) :
    (u ++ pad).rdropWhile isspace = u.rdropWhile isspace := by
  have hrev : Blank pad.reverse := by
    intro c hc
    exact hp c (List.mem_reverse.mp hc)
  rw [List.rdropWhile, List.reverse_append, dropWhile_blank_append hrev]
  rfl

theorem trim_blank_append {pad : Text} (hp : Blank pad) (u : Text) : trim (pad ++ u) = trim u := by
  rw [trim, dropWhile_blank_append hp]
  rfl

theorem trim_append_blank {pad : Text} (hp : Blank pad) (u : Text) : trim (u ++ pad) = trim u := by
  induction u with
  | nil => rw [List.nil_append, trim, dropWhile_blank hp]; rfl
  | cons c u ih =>
    cases hc : isspace c with
    | true =>
      have hone : Blank [c] := by simpa [Blank] using hc
      have hfront : ∀ w, trim (c :: w) = trim w := trim_blank_append hone
      rw [List.cons_append, hfront, hfront, ih]
    | false =>
      have hfront : ∀ w : Text, (c :: w).dropWhile isspace = c :: w := by
        intro w
        exact List.dropWhile_cons_of_neg (by simp [hc])
      rw [trim, trim, List.cons_append, hfront, hfront, ← List.cons_append,
        rdropWhile_append_blank hp]

theorem trim_blank {pad : Text} (hp : Blank pad) : trim pad = [] := by
  rw [← List.append_nil pad, trim_blank_append hp]
  rfl

/-- What starts and ends with something else than white space is its own content. -/
theorem trim_eq_self {u : Text} {x : Char} (hu : Flush u) (hlast : u.getLast? = some x)
    (hx : isspace x = false) : trim u = u := by
  have hfront : u.dropWhile isspace = u := by
    cases u with
    | nil => rfl
    | cons c cs =>
      have hc : isspace c = false := hu.2 c rfl
      exact List.dropWhile_cons_of_neg (by simp [hc])
  have hback : u.rdropWhile isspace = u := by
    rw [List.rdropWhile_eq_self_iff]
    intro hne
    rw [List.getLast?_eq_some_getLast hne] at hlast
    rw [Option.some.inj hlast, hx]
    simp
  rw [trim, hfront, hback]

/-! ## What the scanner delivers, forwards -/

/-- The second mark is on a character that is not white space. -/
def Solid (m : Option (Text × Text)) : Prop := ∀ x ∈ m, isspace (deref x.2) = false

theorem solid_mark {m : Option (Text × Text)} (hm : Solid m) (str : Text) :
    Solid (mark str m) := by
  unfold mark
  cases hs : isspace (deref str) with
  | true => exact hm
  | false =>
    cases m with
    | none =>
      intro x hx
      obtain rfl := Option.some.inj (hx : some (str, str) = some x)
      exact hs
    | some m =>
      intro x hx
      obtain rfl := Option.some.inj (hx : some (m.1, str) = some x)
      exact hs

theorem isspace_deref_of_stop {t : Text} (h : Stop t) : isspace (deref t) = false := by
  cases t with
  | nil => rfl
  | cons c cs => exact (jsonIsToken_plain (h c rfl)).2.2.1

theorem scanEnd_right {q : Nat} {m : Option (Text × Text)} {str : Text} {s : Scan} (hm : Solid m)
    (hstr : Stop str) (h : scanEnd q m str = some s) : isspace (deref s.right) = false := by
  unfold scanEnd at h
  split at h
  · exact absurd h (by simp)
  cases m with
  | none =>
    obtain rfl := Option.some.inj h
    exact isspace_deref_of_stop hstr
  | some x =>
    obtain rfl := Option.some.inj h
    exact hm x rfl

theorem scanLoop_right {s : Scan} (n : Nat) : ∀ {q : Nat} {m : Option (Text × Text)} {t : Text},
    t.length ≤ n → Solid m → scanLoop q m t = some s → isspace (deref s.right) = false := by
  induction n with
  | zero =>
    intro q m t hn hm h
    obtain rfl : t = [] := List.length_eq_zero_iff.mp (Nat.le_zero.mp hn)
    exact scanEnd_right hm stop_nil h
  | succ n ih =>
    intro q m t hn hm h
    cases t with
    | nil => exact scanEnd_right hm stop_nil h
    | cons c cs =>
      have hlen : cs.length ≤ n := by simpa using hn
      by_cases hb : c = '\\'
      · subst hb
        cases cs with
        | nil => simp [scanLoop] at h
        | cons e es =>
          rw [scanLoop_escape] at h
          obtain ⟨_, h⟩ := Option.ite_none_right_eq_some.mp h
          exact ih (Nat.le_of_succ_le hlen) (solid_mark hm _) h
      rw [scanLoop_plain hb] at h
      split at h
      · exact ih hlen (solid_mark hm _) h
      split at h
      · split at h
        · rename_i ht
          exact scanEnd_right hm (stop_cons ht) h
        split at h
        · exact absurd h (by simp)
        · exact ih hlen (solid_mark hm _) h
      · exact ih hlen (solid_mark hm _) h

theorem jsonScan_token (t : Text) :
    (jsonScan t).map Scan.token = (stretch (.out false) t).map Prod.snd :=
  scanLoop_token t.length (Nat.le_refl _)

/-- The content is what the machine ran over, trimmed. -/
theorem Scanned.content_eq_trim {t content token u : Text} {s : Scan}
    (h : Scanned t content token s) (hright : isspace (deref s.right) = false)
    (ht : t = u ++ token) : content = trim u := by
  cases h with
  | bare hb =>
    rw [← List.append_cancel_right ht, trim_blank hb]
  | @found pad content pad' token x hb hf hlast hb' hstop hquote =>
    rw [← List.append_assoc, ← List.append_assoc] at ht
    rw [← List.append_cancel_right ht, List.append_assoc, trim_blank_append hb,
      trim_append_blank hb', trim_eq_self hf hlast hright]

/-- **What the scanner delivers is the stretch in front of the next entity.** -/
theorem reads_iff {t content rest : Text} {c : Char} : Reads t content c rest ↔
    ∃ u token, stretch (.out false) t = some (u, token) ∧ content = trim u ∧
      deref token = c ∧ token.tail = rest := by
  constructor
  · rintro ⟨s, hscan, hs, rfl, rfl⟩
    have htoken := jsonScan_token t
    rw [hscan] at htoken
    obtain ⟨⟨u, token⟩, hstretch, hsnd⟩ := Option.map_eq_some_iff.mp htoken.symm
    obtain rfl : token = s.token := hsnd
    have hright := scanLoop_right t.length (Nat.le_refl _) (by simp [Solid]) hscan
    exact ⟨u, s.token, hstretch, hs.content_eq_trim hright (stretch_eq hstretch), rfl, rfl⟩
  · rintro ⟨u, token, hstretch, rfl, rfl, rfl⟩
    have htoken := jsonScan_token t
    rw [hstretch] at htoken
    obtain ⟨s, hscan, rfl⟩ := Option.map_eq_some_iff.mp htoken
    obtain ⟨content, hs⟩ := jsonScan_spec hscan
    have hright := scanLoop_right t.length (Nat.le_refl _) (by simp [Solid]) hscan
    obtain rfl := hs.content_eq_trim hright (stretch_eq hstretch)
    exact ⟨s, hscan, hs, rfl, rfl⟩

theorem reads_of_stretch {t u token : Text} (h : stretch (.out false) t = some (u, token))
    {content rest : Text} {c : Char} : Reads t content c rest ↔
      content = trim u ∧ deref token = c ∧ token.tail = rest := by
  rw [reads_iff, h]
  constructor
  · rintro ⟨u', token', hsome, hreads⟩
    obtain ⟨rfl, rfl⟩ := Prod.mk.inj (Option.some.inj hsome)
    exact hreads
  · intro hreads
    exact ⟨u, token, rfl, hreads⟩

/-! ## Cutting a text anywhere -/

/-- Where a position of a text is, as the quotes in front of it have it. -/
inductive Place
  | outside
  | inside
  | escape
  deriving DecidableEq, Repr

def Place.next : Place → Char → Place
  | .outside, c => if c = '"' then .inside else .outside
  | .inside, c => if c = '\\' then .escape else if c = '"' then .outside else .inside
  | .escape, _ => .inside

/-- The place behind `p`. -/
def placeAfter (p : Text) : Place := p.foldl Place.next .outside

def Lex.place : Lex → Place
  | .out _ => .outside
  | .inside => .inside
  | .escape => .escape

theorem Lex.place_step {s s' : Lex} {c : Char} (h : s.step c = some s') :
    s'.place = s.place.next c := by
  cases s with
  | out seen =>
    rw [Lex.step] at h
    split at h
    · exact absurd h (by simp)
    split at h
    · rename_i hq
      obtain rfl := Option.some.inj h
      exact (if_pos hq).symm
    rename_i hq
    split at h
    · exact absurd h (by simp)
    · obtain rfl := Option.some.inj h
      exact (if_neg hq).symm
  | inside =>
    rw [Lex.step] at h
    show s'.place = if c = '\\' then .escape else if c = '"' then .outside else .inside
    split at h
    · rename_i hb
      obtain rfl := Option.some.inj h
      rw [if_pos hb]
      rfl
    rename_i hb
    rw [if_neg hb]
    split at h
    · rename_i hq
      obtain rfl := Option.some.inj h
      rw [if_pos hq]
      rfl
    · rename_i hq
      obtain rfl := Option.some.inj h
      rw [if_neg hq]
      rfl
  | escape =>
    obtain ⟨_, h⟩ := Option.ite_none_right_eq_some.mp h
    obtain rfl := Option.some.inj h
    rfl

theorem Lex.token_of_stops {s : Lex} {c : Char} (h : s.stops c = true) :
    jsonIsToken c = true ∧ s.place = .outside := by
  cases s with
  | out seen => exact ⟨h, rfl⟩
  | inside => exact absurd h (by simp [Lex.stops])
  | escape => exact absurd h (by simp [Lex.stops])

/-- Behind an entity that is no entity one is still inside a string. -/
theorem Lex.not_token_of_step {s s' : Lex} {c : Char} (h : s.stops c = false)
    (hs : s.step c = some s') (hplace : s'.place = .outside) : jsonIsToken c = false := by
  cases s with
  | out seen => exact h
  | inside =>
    rw [Lex.place_step hs] at hplace
    by_contra ht
    obtain ⟨hb, hq, _⟩ := jsonIsToken_plain (Bool.not_eq_false _ ▸ ht)
    simp [Lex.place, Place.next, hb, hq] at hplace
  | escape =>
    rw [Lex.place_step hs] at hplace
    exact absurd hplace (by simp [Lex.place, Place.next])

/-- How the machine gets through the first part of a text, whatever the second part is: it stops
there, it is still running behind it, or it refuses it. -/
inductive Passes (s : Lex) (p : Text) : Prop
  | stops {u p' : Text} {c : Char} : p = u ++ c :: p' → jsonIsToken c = true →
      u.foldl Place.next s.place = .outside →
      (∀ x, stretch s (p ++ x) = some (u, c :: (p' ++ x))) → Passes s p
  | through {s' : Lex} : p.foldl Place.next s.place = s'.place →
      (s'.place = .outside → ∀ c ∈ p.getLast?, jsonIsToken c = false) →
      (∀ x, stretch s (p ++ x) = (stretch s' x).map (longer p)) → Passes s p
  | refused : (∀ x, stretch s (p ++ x) = none) → Passes s p

theorem passes_cons {s s' : Lex} {c : Char} {p : Text} (hstop : s.stops c = false)
    (hs : s.step c = some s') (h : Passes s' p) : Passes s (c :: p) := by
  have hplace := Lex.place_step hs
  have hstep := stretch_step hstop hs
  cases h with
  | @stops u p' d htext hd hu h =>
    refine @Passes.stops _ _ (c :: u) p' d (by rw [htext]; rfl) hd ?_ ?_
    · rw [List.foldl_cons, ← hplace, hu]
    · intro x
      rw [List.cons_append, hstep, h x]
      rfl
  | @through s'' hp hlast h =>
    refine @Passes.through _ _ s'' ?_ ?_ ?_
    · rw [List.foldl_cons, ← hplace, hp]
    · intro hout d hd
      cases p with
      | nil =>
        obtain rfl : c = d := by simpa using hd
        exact Lex.not_token_of_step hstop hs (hp.trans hout)
      | cons e es => exact hlast hout d (by simpa [List.getLast?_cons_cons] using hd)
    · intro x
      rw [List.cons_append, hstep, h x, map_longer_map_longer]
      rfl
  | refused h =>
    refine .refused ?_
    intro x
    rw [List.cons_append, hstep, h x]
    rfl

/-- **A text may be cut anywhere.** -/
theorem passes (p : Text) : ∀ s : Lex, Passes s p := by
  induction p with
  | nil =>
    intro s
    refine @Passes.through _ _ s rfl (by simp) ?_
    intro x
    rw [List.nil_append, map_longer_nil]
  | cons c p ih =>
    intro s
    cases hstop : s.stops c with
    | true =>
      obtain ⟨hc, hplace⟩ := Lex.token_of_stops hstop
      exact .stops (u := []) rfl hc hplace fun x => stretch_stops hstop _
    | false =>
      cases hs : s.step c with
      | none => exact .refused fun x => stretch_refused hstop hs _
      | some s' => exact passes_cons hstop hs (ih s')

end Json
end TsnController

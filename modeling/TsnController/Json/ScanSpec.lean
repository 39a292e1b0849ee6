import TsnController.Json.Grammar

/-!
# What the scanner finds

`json_scan` against the language. One direction computes it: on white space, a word, or adjacent
strings in front of an entity it stops at the entity, with `left` and `right` around what was
written (`scan_blank`, `scan_word`, `scan_quoted`). The other reads a success back
(`jsonScan_spec`): the text splits into white space, a *content*, white space and the entity, and
a content that starts with a quote is adjacent strings and nothing else.

A content that starts with anything but a quote is left alone here. The scanner lets some
nonsense through in that case (`abc"def"`), and it is `json_set_value` that refuses it.
-/

set_option autoImplicit false

namespace TsnController
namespace Json

open CLib Lib

/-! ## Character classes do not overlap -/

theorem isspace_cases {c : Char} (h : isspace c = true) :
    c = ' ' ∨ c = '\t' ∨ c = '\n' ∨ c = '\x0b' ∨ c = '\x0c' ∨ c = '\r' := by
  simpa [isspace, or_assoc] using h

theorem jsonIsToken_cases {c : Char} (h : jsonIsToken c = true) :
    c = '{' ∨ c = '[' ∨ c = ':' ∨ c = ',' ∨ c = ']' ∨ c = '}' := by
  simpa [jsonIsToken, or_assoc] using h

theorem isspace_plain {c : Char} (h : isspace c = true) :
    c ≠ '\\' ∧ c ≠ '"' ∧ jsonIsToken c = false ∧ numChar c = false := by
  rcases isspace_cases h with rfl | rfl | rfl | rfl | rfl | rfl <;> decide

theorem jsonIsToken_plain {c : Char} (h : jsonIsToken c = true) :
    c ≠ '\\' ∧ c ≠ '"' ∧ isspace c = false ∧ numChar c = false := by
  rcases jsonIsToken_cases h with rfl | rfl | rfl | rfl | rfl | rfl <;> decide

theorem numChar_plain {c : Char} (h : numChar c = true) :
    c ≠ '\\' ∧ c ≠ '"' ∧ isspace c = false ∧ jsonIsToken c = false := by
  refine ⟨?_, ?_, ?_, ?_⟩
  · rintro rfl; exact absurd h (by decide)
  · rintro rfl; exact absurd h (by decide)
  · by_contra hs
    exact absurd h (by simp [(isspace_plain (by simpa using hs)).2.2.2])
  · by_contra ht
    exact absurd h (by simp [(jsonIsToken_plain (by simpa using ht)).2.2.2])

theorem isspace_quote : isspace '"' = false := by decide

theorem jsonIsEscape_code (e : Escape) : jsonIsEscape e.code = true := by cases e <;> rfl

theorem isspace_code (e : Escape) : isspace e.code = false := by cases e <;> rfl

/-- Every character `json_isescape` accepts is one of the eight escapes. -/
theorem exists_code {c : Char} (h : jsonIsEscape c = true) : ∃ e : Escape, e.code = c := by
  simp only [jsonIsEscape, Bool.or_eq_true, beq_iff_eq] at h
  rcases h with ((((((h | h) | h) | h) | h) | h) | h) | h
  · exact ⟨.backslash, h.symm⟩
  · exact ⟨.slash, h.symm⟩
  · exact ⟨.quote, h.symm⟩
  · exact ⟨.b, h.symm⟩
  · exact ⟨.f, h.symm⟩
  · exact ⟨.n, h.symm⟩
  · exact ⟨.r, h.symm⟩
  · exact ⟨.t, h.symm⟩

theorem getLast?_text (s : Str) : s.text.getLast? = some '"' := by
  simp [Str.text, List.getLast?_cons, List.getLast?_append]

/-- Where `json_scan` stops: at an entity or at the end. -/
def Stop (t : Text) : Prop := ∀ c ∈ t.head?, jsonIsToken c = true

theorem stop_nil : Stop [] := by simp [Stop]

theorem stop_cons {c : Char} {t : Text} (h : jsonIsToken c = true) : Stop (c :: t) := by
  simpa [Stop] using h

/-! ## One character of the loop -/

section Loop

variable {q : Nat} {m : Option (Text × Text)}

theorem scanLoop_blank {pad t : Text} (hp : Blank pad) (hq : q % 2 = 0) :
    scanLoop q m (pad ++ t) = scanLoop q m t := by
  induction pad with
  | nil => rfl
  | cons c cs ih =>
    have hc : isspace c = true := hp c (by simp)
    obtain ⟨h₁, h₂, h₃, _⟩ := isspace_plain hc
    rw [List.cons_append, scanLoop_plain h₁]
    simp only [h₂, hq, h₃, hc, mark, deref, if_false, if_true, reduceCtorEq, and_false]
    exact ih (fun d hd => hp d (by simp [hd]))

/-- Inside quotes: the body of a string and its closing quote. -/
theorem scanLoop_body {l r t : Text} (s : Str) (hq : q % 2 = 1) :
    scanLoop q (some (l, r)) (s.body ++ '"' :: t) = scanLoop (q + 1) (some (l, '"' :: t)) t := by
  have hq0 : ¬ q % 2 = 0 := by omega
  induction s generalizing r with
  | nil =>
    simp [Str.body, scanLoop_plain, mark, deref, isspace_quote]
  | cons x xs ih =>
    cases x with
    | plain c h =>
      simp only [Str.body, List.flatMap_cons, StrChar.text, List.cons_append, List.nil_append]
      rw [scanLoop_plain h.2]
      simp only [h.1, hq0, if_false]
      by_cases hc : isspace c = true
      · simp only [mark, deref, hc, if_true]; exact ih
      · simp only [mark, deref, hc]; exact ih
    | escape e =>
      simp only [Str.body, List.flatMap_cons, StrChar.text, List.cons_append, List.nil_append]
      rw [scanLoop_escape]
      simp only [if_true, hq, jsonIsEscape_code, true_and, mark, deref, isspace_code]
      exact ih

/-- A whole string, from outside quotes. -/
theorem scanLoop_str {t : Text} (s : Str) (hq : q % 2 = 0) :
    scanLoop q m (s.text ++ t) =
      scanLoop (q + 2) (some ((m.map Prod.fst).getD (s.text ++ t), '"' :: t)) t := by
  have hq1 : (q + 1) % 2 = 1 := by omega
  rw [Str.text, List.cons_append, scanLoop_plain (by decide)]
  simp only [if_true, List.append_assoc, List.cons_append, List.nil_append]
  cases m with
  | none => simp [mark, deref, isspace_quote, scanLoop_body s hq1]
  | some m => simp [mark, deref, isspace_quote, scanLoop_body s hq1]

/-- A word of number characters, outside and before any string. -/
theorem scanLoop_word {c : Char} {w t : Text} (hw : ∀ d ∈ c :: w, numChar d = true) :
    scanLoop 0 m (c :: w ++ t) =
      scanLoop 0 (some ((m.map Prod.fst).getD (c :: w ++ t),
        (c :: w).getLast (by simp) :: t)) t := by
  induction w generalizing c m with
  | nil =>
    obtain ⟨h₁, h₂, h₃, h₄⟩ := numChar_plain (hw c (by simp))
    rw [List.cons_append, scanLoop_plain h₁]
    cases m <;> simp [h₂, h₃, h₄, mark, deref]
  | cons d ds ih =>
    obtain ⟨h₁, h₂, h₃, h₄⟩ := numChar_plain (hw c (by simp))
    rw [List.cons_append, scanLoop_plain h₁]
    simp only [h₂, h₃, h₄, mark, deref, if_false, Nat.zero_mod, if_true, Nat.lt_irrefl,
      false_and, reduceCtorEq]
    rw [ih (fun x hx => hw x (by simp [hx]))]
    cases m <;> simp

theorem scanLoop_stop {t : Text} (ht : Stop t) (hq : q % 2 = 0) :
    scanLoop q m t = scanEnd q m t := by
  cases t with
  | nil => rfl
  | cons c cs =>
    have hc : jsonIsToken c = true := ht c (by simp)
    obtain ⟨h₁, h₂, _, _⟩ := jsonIsToken_plain hc
    simp [scanLoop_plain h₁, h₂, hq, hc]

end Loop

/-! ## Computing a scan -/

theorem scan_blank {pad rest : Text} (hp : Blank pad) (hr : Stop rest) :
    jsonScan (pad ++ rest) = some ⟨rest, rest, rest⟩ := by
  rw [jsonScan, scanLoop_blank hp rfl, scanLoop_stop hr rfl]
  rfl

theorem scan_word {pad w pad' rest : Text} (hp : Blank pad) (hw : ∀ d ∈ w, numChar d = true)
    (hne : w ≠ []) (hp' : Blank pad') (hr : Stop rest) :
    jsonScan (pad ++ w ++ (pad' ++ rest)) =
      some ⟨w ++ (pad' ++ rest), w.getLast hne :: (pad' ++ rest), rest⟩ := by
  cases w with
  | nil => exact absurd rfl hne
  | cons c cs =>
    rw [jsonScan, List.append_assoc, scanLoop_blank hp rfl, scanLoop_word hw,
      scanLoop_blank hp' rfl, scanLoop_stop hr rfl]
    rfl

/-- Further strings after the first: `left` stays, `right` ends on the last closing quote. -/
theorem scanLoop_strs {strs : List Str} {u rest l : Text} {q : Nat} (hr : Stop rest)
    (hq : q % 2 = 0) (hu : Padded (strs.map Str.text) u) (pre : Text) :
    ∃ v pad, u = v ++ pad ∧ Blank pad ∧ Padded (strs.map Str.text) v ∧ (strs = [] → v = []) ∧
      (strs ≠ [] → v.getLast? = some '"') ∧
      (∃ r, scanLoop q (some (l, '"' :: (pre ++ (u ++ rest)))) (u ++ rest) = some ⟨l, r, rest⟩ ∧
        r = if strs = [] then '"' :: (pre ++ (u ++ rest)) else '"' :: (pad ++ rest)) := by
  induction strs generalizing u q pre with
  | nil =>
    cases hu with
    | nil hb =>
      refine ⟨[], u, rfl, hb, .nil blank_nil, fun _ => rfl, by simp, _, ?_, rfl⟩
      rw [scanLoop_blank hb hq, scanLoop_stop hr hq]
      simp [scanEnd, hq]
  | cons s strs ih =>
    cases hu with
    | @cons p _ u' _ hb hu' =>
      have hq2 : (q + 2) % 2 = 0 := by omega
      obtain ⟨v, pad, rfl, hpad, hv, hnil, hlast, r, hscan, hrr⟩ := ih (q := q + 2) hq2 hu' []
      refine ⟨p ++ s.text ++ v, pad, by simp, hpad, .cons hb hv, by simp, fun _ => ?_, r, ?_, ?_⟩
      · cases strs with
        | nil => simp [hnil rfl, getLast?_text]
        | cons _ _ => rw [List.getLast?_append, hlast (by simp)]; rfl
      · rw [List.append_assoc, List.append_assoc, scanLoop_blank hb hq, scanLoop_str s hq]
        simpa using hscan
      · cases strs with
        | nil => simpa [hnil rfl] using hrr
        | cons _ _ => simpa using hrr

/-- Adjacent strings: `left` on the first quote, `right` on the last one. -/
theorem scan_quoted {q : Quoted} {u rest : Text} (hu : Padded q.tokens u) (hr : Stop rest) :
    ∃ pad content pad', Blank pad ∧ Blank pad' ∧ u = pad ++ (content ++ pad') ∧
      Padded q.tokens content ∧ content.head? = some '"' ∧ content.getLast? = some '"' ∧
      jsonScan (u ++ rest) = some ⟨content ++ (pad' ++ rest), '"' :: (pad' ++ rest), rest⟩ := by
  obtain ⟨first, strs⟩ := q
  cases hu with
  | @cons p _ u' _ hb hu' =>
    obtain ⟨v, pad, rfl, hpad, hv, hnil, hlast, r, hscan, hrr⟩ :=
      scanLoop_strs (l := first.text ++ (u' ++ rest)) (q := 2) hr rfl hu' []
    refine ⟨p, first.text ++ v, pad, hb, hpad, by simp, ?_, rfl, ?_, ?_⟩
    · simpa [Quoted.tokens, Quoted.strs] using @Padded.cons [] first.text _ _ blank_nil hv
    · cases strs with
      | nil => simp [hnil rfl, getLast?_text]
      | cons _ _ => rw [List.getLast?_append, hlast (by simp)]; rfl
    · rw [jsonScan, List.append_assoc, List.append_assoc, scanLoop_blank hb rfl,
        scanLoop_str first rfl]
      have hr' : r = '"' :: (pad ++ rest) := by
        cases strs with
        | nil => simpa [hnil rfl] using hrr
        | cons _ _ => simpa using hrr
      rw [hr'] at hscan
      simpa using hscan

/-! ## Reading a scan back -/

theorem scanLoop_odd {q : Nat} {l : Text} {s : Scan} (hq : q % 2 = 1) : ∀ (t : Text) {r : Text},
    scanLoop q (some (l, r)) t = some s →
      ∃ (body : Str) (t' : Text), t = body.body ++ '"' :: t' ∧
        scanLoop (q + 1) (some (l, '"' :: t')) t' = some s
  | [], r, h => by simp [scanLoop, scanEnd, hq] at h
  | [c], r, h => by
    by_cases hb : c = '\\'
    · subst hb; simp [scanLoop] at h
    rw [scanLoop_plain hb] at h
    by_cases hc : c = '"'
    · subst hc
      exact ⟨[], [], rfl, by simpa [mark, deref, isspace_quote] using h⟩
    · simp only [hc, if_false, scanLoop, scanEnd, hq, if_true] at h
      exact absurd h (by simp)
  | c :: e :: es, r, h => by
    have hq0 : ¬ q % 2 = 0 := by omega
    by_cases hb : c = '\\'
    · subst hb
      rw [scanLoop_escape] at h
      simp only [hq, true_and, Option.ite_none_right_eq_some] at h
      obtain ⟨he, h⟩ := h
      obtain ⟨esc, rfl⟩ := exists_code he
      simp only [mark, deref, isspace_code] at h
      obtain ⟨body, t', rfl, h'⟩ := scanLoop_odd hq es h
      exact ⟨.escape esc :: body, t', by simp [Str.body, StrChar.text], h'⟩
    rw [scanLoop_plain hb] at h
    by_cases hc : c = '"'
    · subst hc
      exact ⟨[], e :: es, rfl, by simpa [mark, deref, isspace_quote] using h⟩
    · simp only [hc, hq0, if_false] at h
      have hm : ∃ r', mark (c :: e :: es) (some (l, r)) = some (l, r') := by
        by_cases hs : isspace c = true
        · exact ⟨r, by simp [mark, deref, hs]⟩
        · exact ⟨_, by simp only [mark, deref, hs]; rfl⟩
      obtain ⟨r', hm⟩ := hm
      rw [hm] at h
      obtain ⟨body, t', ht, h'⟩ := scanLoop_odd hq (e :: es) h
      exact ⟨.plain c ⟨hc, hb⟩ :: body, t', by simp [Str.body, StrChar.text, ht], h'⟩

/-- The white space in front of a scan outside quotes, and what may come after it. -/
theorem scanLoop_skip {q : Nat} {m : Option (Text × Text)} {s : Scan} (hq : q % 2 = 0)
    (t : Text) : scanLoop q m t = some s →
      ∃ pad t', Blank pad ∧ t = pad ++ t' ∧ scanLoop q m t' = some s ∧
        (Stop t' ∨ ∃ c cs, t' = c :: cs ∧ isspace c = false ∧ c ≠ '\\' ∧
          jsonIsToken c = false ∧ (c = '"' ∨ q = 0)) := by
  induction t with
  | nil => exact fun h => ⟨[], [], blank_nil, rfl, h, Or.inl stop_nil⟩
  | cons c cs ih =>
    intro h
    by_cases hs : isspace c = true
    · obtain ⟨h₁, h₂, h₃, _⟩ := isspace_plain hs
      rw [scanLoop_plain h₁] at h
      simp only [h₂, hq, h₃, hs, mark, deref, if_false, if_true, reduceCtorEq, and_false] at h
      obtain ⟨pad, t', hb, rfl, h', hcase⟩ := ih h
      refine ⟨c :: pad, t', ?_, rfl, h', hcase⟩
      simpa [Blank] using ⟨hs, hb⟩
    · refine ⟨[], c :: cs, blank_nil, rfl, h, ?_⟩
      by_cases ht : jsonIsToken c = true
      · exact Or.inl (stop_cons ht)
      by_cases hb : c = '\\'
      · -- outside quotes a backslash is refused at once
        subst hb
        cases cs with
        | nil => simp [scanLoop] at h
        | cons e es => rw [scanLoop_escape] at h; simp [hq] at h
      refine Or.inr ⟨c, cs, rfl, by simpa using hs, hb, by simpa using ht, ?_⟩
      by_cases hc : c = '"'
      · exact Or.inl hc
      rw [scanLoop_plain hb] at h
      by_cases hz : q = 0
      · exact Or.inr hz
      · have hpos : 0 < q := Nat.pos_of_ne_zero hz
        simp [hc, hq, ht, hpos, hs] at h

/-- After a string: only further strings, up to the entity. -/
theorem scanLoop_even {l : Text} {s : Scan} (n : Nat) : ∀ {q : Nat} {t r : Text}, t.length ≤ n →
    q % 2 = 0 → 0 < q → scanLoop q (some (l, r)) t = some s →
      ∃ (strs : List Str) (v pad : Text), t = v ++ (pad ++ s.token) ∧ Blank pad ∧
        Padded (strs.map Str.text) v ∧ Stop s.token ∧ s.left = l ∧
        (strs = [] → v = [] ∧ s.right = r) ∧
        (strs ≠ [] → v.getLast? = some '"' ∧ s.right = '"' :: (pad ++ s.token)) := by
  induction n with
  | zero =>
    intro q t r hn hq hpos h
    have ht : t = [] := List.length_eq_zero_iff.mp (Nat.le_zero.mp hn)
    subst ht
    simp only [scanLoop, scanEnd, hq, Nat.zero_ne_one, if_false, Option.some.injEq] at h
    subst h
    exact ⟨[], [], [], rfl, blank_nil, .nil blank_nil, stop_nil, rfl, by simp, by simp⟩
  | succ n ih =>
    intro q t r hn hq hpos h
    obtain ⟨pad, t', hb, rfl, h', hcase⟩ := scanLoop_skip hq t h
    rcases hcase with hstop | ⟨c, cs, rfl, _, hnb, _, hquote⟩
    · rw [scanLoop_stop hstop hq] at h'
      simp only [scanEnd, hq, Nat.zero_ne_one, if_false, Option.some.injEq] at h'
      subst h'
      exact ⟨[], [], pad, rfl, hb, .nil blank_nil, hstop, rfl, by simp, by simp⟩
    · obtain rfl : c = '"' := hquote.resolve_right (by omega)
      rw [scanLoop_plain hnb] at h'
      simp only [if_true, mark, deref, isspace_quote] at h'
      have hq1 : (q + 1) % 2 = 1 := by omega
      obtain ⟨body, t₂, rfl, h₂⟩ := scanLoop_odd hq1 cs h'
      have hlen : t₂.length ≤ n := by simp at hn; omega
      obtain ⟨strs, v, pad', rfl, hpad', hv, hstop, hleft, hnil, hne⟩ :=
        ih hlen (by omega) (by omega) h₂
      refine ⟨body :: strs, pad ++ body.text ++ v, pad', by simp [Str.text], hpad',
        .cons hb hv, hstop, hleft, by simp, fun _ => ?_⟩
      cases strs with
      | nil =>
        obtain ⟨rfl, hright⟩ := hnil rfl
        exact ⟨by simp [getLast?_text], by simpa using hright⟩
      | cons _ _ =>
        obtain ⟨hlast, hright⟩ := hne (by simp)
        exact ⟨by rw [List.getLast?_append, hlast]; rfl, hright⟩

/-- The marks follow the loop: `right` always ends the content read so far. -/
theorem mark_spec {l cont pad cs : Text} {x c : Char} (hl : l = cont ++ x :: (pad ++ c :: cs))
    (hb : Blank pad) :
    ∃ cont' pad' x', mark (c :: cs) (some (l, x :: (pad ++ c :: cs))) =
        some (l, x' :: (pad' ++ cs)) ∧ l = cont' ++ x' :: (pad' ++ cs) ∧ Blank pad' := by
  by_cases hs : isspace c = true
  · refine ⟨cont, pad ++ [c], x, by simp [mark, deref, hs], by simpa using hl, ?_⟩
    exact hb.append (by simpa [Blank] using hs)
  · exact ⟨cont ++ x :: pad, [], c, by simp only [mark, deref, hs]; rfl, by simpa using hl,
      blank_nil⟩

/-- Once something was found, `left` stays on it and `right` ends up on its last character that
is not white space. -/
theorem scanLoop_marks (n : Nat) : ∀ {q : Nat} {t l cont pad : Text} {x : Char} {s : Scan},
    t.length ≤ n → l = cont ++ x :: (pad ++ t) → Blank pad →
    scanLoop q (some (l, x :: (pad ++ t))) t = some s →
      ∃ cont' pad' x', s.left = l ∧ l = cont' ++ x' :: (pad' ++ s.token) ∧
        s.right = x' :: (pad' ++ s.token) ∧ Blank pad' ∧ Stop s.token := by
  induction n with
  | zero =>
    intro q t l cont pad x s hn hl hb h
    have ht : t = [] := List.length_eq_zero_iff.mp (Nat.le_zero.mp hn)
    subst ht
    simp only [scanLoop, scanEnd, Option.ite_none_left_eq_some, Option.some.injEq] at h
    obtain ⟨_, rfl⟩ := h
    exact ⟨cont, pad, x, rfl, hl, rfl, hb, stop_nil⟩
  | succ n ih =>
    intro q t l cont pad x s hn hl hb h
    cases t with
    | nil => exact ih (Nat.zero_le _) hl hb h
    | cons c cs =>
      have hlen : cs.length ≤ n := by simpa using hn
      obtain ⟨cont', pad', x', hm, hl', hb'⟩ := mark_spec hl hb
      by_cases hbs : c = '\\'
      · subst hbs
        cases cs with
        | nil => simp [scanLoop] at h
        | cons e es =>
          rw [scanLoop_escape] at h
          simp only [Option.ite_none_right_eq_some] at h
          obtain ⟨⟨_, he⟩, h⟩ := h
          obtain ⟨esc, rfl⟩ := exists_code he
          simp only [mark, deref, isspace_code] at h
          have hl' : l = (cont ++ x :: (pad ++ ['\\'])) ++ esc.code :: ([] ++ es) := by
            simpa using hl
          exact ih (by simp at hlen; omega) hl' blank_nil h
      rw [scanLoop_plain hbs, hm] at h
      split at h
      · exact ih hlen hl' hb' h
      split at h
      · split at h
        · rename_i hq ht
          simp only [scanEnd, hq, Nat.zero_ne_one, if_false, Option.some.injEq] at h
          subst h
          exact ⟨cont, pad, x, rfl, hl, rfl, hb, stop_cons ht⟩
        split at h
        · exact absurd h (by simp)
        · exact ih hlen hl' hb' h
      · exact ih hlen hl' hb' h

/-- The two shapes of a scan of `t` that delivers `content` in front of `token`. A content that
starts with a quote ends with one, and is adjacent strings. -/
inductive Scanned : Text → Text → Text → Scan → Prop
  | bare {pad token : Text} : Blank pad → Stop token →
      Scanned (pad ++ token) [] token ⟨token, token, token⟩
  | found {pad content pad' token : Text} {x : Char} : Blank pad → Flush content →
      content.getLast? = some x → Blank pad' → Stop token →
      (content.head? = some '"' → x = '"' ∧ ∃ q : Quoted, Padded q.tokens content) →
      Scanned (pad ++ (content ++ (pad' ++ token))) content token
        ⟨content ++ (pad' ++ token), x :: (pad' ++ token), token⟩

/-- **Every successful scan has one of the two shapes.** -/
theorem jsonScan_spec {t : Text} {s : Scan} (h : jsonScan t = some s) :
    ∃ content, Scanned t content s.token s := by
  obtain ⟨pad, t', hb, rfl, h', hcase⟩ := scanLoop_skip rfl t h
  rcases hcase with hstop | ⟨c, cs, rfl, hs, hnb, hnt, -⟩
  · rw [scanLoop_stop hstop rfl] at h'
    simp only [scanEnd, Nat.zero_mod, Nat.zero_ne_one, if_false, Option.some.injEq] at h'
    subst h'
    exact ⟨[], .bare hb hstop⟩
  · rw [scanLoop_plain hnb] at h'
    by_cases hc : c = '"'
    · subst hc
      simp only [if_true, mark, deref, isspace_quote] at h'
      obtain ⟨body, t₂, rfl, h₂⟩ := scanLoop_odd (by decide) cs h'
      obtain ⟨strs, v, pad', rfl, hpad', hv, hstop, hleft, hnil, hne⟩ :=
        scanLoop_even t₂.length (Nat.le_refl _) (by decide) (by decide) h₂
      have hend : (body.text ++ v).getLast? = some '"' ∧ s.right = '"' :: (pad' ++ s.token) := by
        cases strs with
        | nil =>
          obtain ⟨rfl, hright⟩ := hnil rfl
          exact ⟨by simp [getLast?_text], by simpa using hright⟩
        | cons _ _ =>
          obtain ⟨hlast, hright⟩ := hne (by simp)
          exact ⟨by rw [List.getLast?_append, hlast]; rfl, hright⟩
      have hquoted : Padded (Quoted.mk body strs).tokens (body.text ++ v) := by
        simpa [Quoted.tokens, Quoted.strs] using @Padded.cons [] body.text _ _ blank_nil hv
      refine ⟨body.text ++ v, ?_⟩
      have hs' : s = ⟨body.text ++ v ++ (pad' ++ s.token), '"' :: (pad' ++ s.token), s.token⟩ := by
        cases s
        simp_all [Str.text]
      rw [hs']
      have hflush : Flush (body.text ++ v) :=
        ⟨by simp [Str.text], by simp [Str.text, isspace_quote]⟩
      simpa [Str.text] using
        Scanned.found hb hflush hend.1 hpad' hstop (fun _ => ⟨rfl, _, hquoted⟩)
    · simp only [hc, if_false, Nat.zero_mod, if_true, hnt, Nat.lt_irrefl, false_and, mark, deref,
        hs, reduceCtorEq] at h'
      obtain ⟨cont, pad', x, hleft, hl, hright, hpad', hstop⟩ :=
        scanLoop_marks cs.length (Nat.le_refl _) (show c :: cs = [] ++ c :: ([] ++ cs) from rfl)
          blank_nil h'
      replace hl : c :: cs = cont ++ x :: (pad' ++ s.token) := hl
      have hhead : (cont ++ [x]).head? = some c := by
        cases cont with
        | nil => simp at hl; simp [hl.1]
        | cons d ds => simp at hl; simp [hl.1]
      have hne : ¬ some c = some '"' := by simpa using hc
      refine ⟨cont ++ [x], ?_⟩
      have hs' : s = ⟨cont ++ [x] ++ (pad' ++ s.token), x :: (pad' ++ s.token), s.token⟩ := by
        cases s
        simp_all
      have hflush : Flush (cont ++ [x]) := ⟨by simp, by simp [hhead, hs]⟩
      have hfound := Scanned.found (x := x) hb hflush (by simp) hpad' hstop
        (fun h => absurd (hhead.symm.trans h) hne)
      rw [hs', hl]
      simpa using hfound

/-! ## Copying -/

section Copy

variable {k n : Nat}

theorem copyLoop_plain {c : Char} {cs : Text} (h : c ≠ '\\') :
    copyLoop k (c :: cs) (n + 1) =
      if c = '"' then copyLoop (k + 1) cs n
      else if k = 0 ∨ k % 2 = 1 then c :: copyLoop k cs n
      else copyLoop k cs n := by
  rw [copyLoop.eq_def]
  simp only [h, if_false]

theorem copyLoop_escape {e : Char} {es : Text} :
    copyLoop k ('\\' :: e :: es) (n + 2) = (unescape e).toList ++ copyLoop k es n := by
  rw [copyLoop.eq_def]
  simp

theorem unescape_code (e : Escape) : unescape e.code = some e.char := by cases e <;> rfl

/-- Inside quotes: the body is unescaped, the closing quote dropped. -/
theorem copyLoop_body {t : Text} (s : Str) (hk : k % 2 = 1) :
    copyLoop k (s.body ++ '"' :: t) (s.body.length + (n + 1)) =
      s.chars ++ copyLoop (k + 1) t n := by
  induction s with
  | nil => simp [Str.body, Str.chars, copyLoop_plain]
  | cons x xs ih =>
    cases x with
    | plain c h =>
      have hlen : (Str.body (.plain c h :: xs)).length + (n + 1)
          = (Str.body xs).length + (n + 1) + 1 := by simp [Str.body, StrChar.text]; omega
      rw [hlen]
      simp only [Str.body, List.flatMap_cons, StrChar.text, List.cons_append, List.nil_append]
      rw [copyLoop_plain h.2]
      simp only [h.1, hk, if_false, or_true, if_true]
      rw [show List.flatMap StrChar.text xs = Str.body xs from rfl, ih]
      simp [Str.chars, StrChar.char]
    | escape e =>
      have hlen : (Str.body (.escape e :: xs)).length + (n + 1)
          = (Str.body xs).length + (n + 1) + 2 := by simp [Str.body, StrChar.text]; omega
      rw [hlen]
      simp only [Str.body, List.flatMap_cons, StrChar.text, List.cons_append, List.nil_append]
      rw [copyLoop_escape, unescape_code,
        show List.flatMap StrChar.text xs = Str.body xs from rfl, ih]
      simp [Str.chars, StrChar.char]

theorem copyLoop_str {t : Text} (s : Str) (hk : k % 2 = 0) :
    copyLoop k (s.text ++ t) (s.text.length + n) = s.chars ++ copyLoop (k + 2) t n := by
  have hk1 : (k + 1) % 2 = 1 := by omega
  have hlen : s.text.length + n = s.body.length + (n + 1) + 1 := by simp [Str.text]; omega
  rw [hlen, Str.text, List.cons_append, copyLoop_plain (by decide)]
  simp only [if_true, List.append_assoc, List.cons_append, List.nil_append]
  exact copyLoop_body s hk1

/-- Between two strings white space is skipped. -/
theorem copyLoop_blank {pad t : Text} (hp : Blank pad) (hk : k % 2 = 0) (hpos : 0 < k) :
    copyLoop k (pad ++ t) (pad.length + n) = copyLoop k t n := by
  induction pad with
  | nil => simp
  | cons c cs ih =>
    obtain ⟨h₁, h₂, _, _⟩ := isspace_plain (hp c (by simp))
    have hk' : ¬ (k = 0 ∨ k % 2 = 1) := by omega
    rw [List.length_cons, Nat.add_right_comm, List.cons_append, copyLoop_plain h₁]
    simp only [h₂, hk', if_false]
    exact ih (fun d hd => hp d (by simp [hd]))

theorem copyLoop_strs {strs : List Str} {u t : Text} (hu : Padded (strs.map Str.text) u)
    (hk : k % 2 = 0) (hpos : 0 < k) : copyLoop k (u ++ t) u.length = strs.flatMap Str.chars := by
  induction strs generalizing u k with
  | nil =>
    cases hu with
    | nil hb =>
      have h := copyLoop_blank (n := 0) (t := t) hb hk hpos
      rw [Nat.add_zero] at h
      rw [h]
      cases t <;> rfl
  | cons s strs ih =>
    cases hu with
    | @cons p _ u' _ hb hu' =>
      rw [List.length_append, List.length_append, Nat.add_assoc, List.append_assoc,
        List.append_assoc, copyLoop_blank hb hk hpos, copyLoop_str s hk,
        ih hu' (by omega) (by omega)]
      rfl

end Copy

/-- **Adjacent strings are copied as their concatenated, unescaped contents.** -/
theorem jsonCopy_quoted {q : Quoted} {content t : Text} (hq : Padded q.tokens content)
    (hh : content.head? = some '"') : jsonCopy (content ++ t) content.length = q.content := by
  obtain ⟨first, strs⟩ := q
  cases hq with
  | @cons pad _ u _ hb hu =>
    -- The content starts with a quote, so the padding in front of the first string is empty.
    cases pad with
    | cons d ds =>
      have hd : isspace d = true := hb d (by simp)
      obtain rfl : d = '"' := by simpa using hh
      exact absurd hd (by decide)
    | nil =>
      rw [List.nil_append, jsonCopy, List.length_append, List.append_assoc, copyLoop_str first rfl,
        copyLoop_strs hu (by decide) (by decide)]
      rfl

/-- A word is copied as it is. -/
theorem jsonCopy_word {w t : Text} (hw : ∀ c ∈ w, numChar c = true) :
    jsonCopy (w ++ t) w.length = w := by
  unfold jsonCopy
  induction w with
  | nil => cases t <;> rfl
  | cons c cs ih =>
    obtain ⟨h₁, h₂, _, _⟩ := numChar_plain (hw c (by simp))
    rw [List.length_cons, List.cons_append, copyLoop_plain h₁]
    simp only [h₂, if_false, true_or, if_true]
    rw [ih (fun d hd => hw d (by simp [hd]))]

end Json
end TsnController

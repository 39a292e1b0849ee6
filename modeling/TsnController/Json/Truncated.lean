import TsnController.Json.Items
import TsnController.Json.Overwrite
import TsnController.Json.Stretch

/-!
# A file that is cut off

The builder has no end marker to look for: it accepts when the text ends and the current node is a
used root. So a file that lost its tail is refused only if no text of the language passes through
such a state before its last bracket, and that is what is proved here.

The run on the part that is left and the run on the whole text are the same run for as long as the
part has entities (`Reads.cut`). If the part is accepted, the builder stands at the root when it
ends. Either the root is used, and then the whole text has nothing but white space left; or it is
not, and then no entity has been read at all and the part is shorter than the white space in front
of the first bracket.
-/

set_option autoImplicit false

namespace TsnController
namespace Json

open CLib Lib

/-! ## The first scan of a part and of the whole -/

/-- A scan of the first part of a text either found its entity there, and is a scan of the whole
text, or it took the part to its end. -/
theorem Reads.cut {p content rest : Text} {c : Char} (h : Reads p content c rest) :
    (jsonIsToken c = true ∧ ∀ x, Reads (p ++ x) content c (rest ++ x)) ∨
    (c = '\x00' ∧ content = trim p ∧
      ∃ seen, ∀ x, stretch (.out false) (p ++ x) = (stretch (.out seen) x).map (longer p)) := by
  obtain ⟨u, token, hstretch, rfl, rfl, rfl⟩ := reads_iff.mp h
  cases passes p (.out false) with
  | @stops u' p' d htext hd _ hx =>
    left
    have hnil := hx []
    rw [List.append_nil, List.append_nil, hstretch] at hnil
    simp only [Option.some.injEq, Prod.mk.injEq] at hnil
    obtain ⟨rfl, rfl⟩ := hnil
    refine ⟨hd, ?_⟩
    intro x
    exact reads_iff.mpr ⟨u, d :: (p' ++ x), hx x, rfl, rfl, rfl⟩
  | @through s' _ _ hx =>
    right
    have hnil := hx []
    rw [List.append_nil, hstretch] at hnil
    cases s' with
    | out seen =>
      simp only [stretch, Option.map_some, longer, List.append_nil, Option.some.injEq,
        Prod.mk.injEq] at hnil
      obtain ⟨rfl, rfl⟩ := hnil
      exact ⟨rfl, rfl, seen, hx⟩
    | inside => exact absurd hnil (by simp [stretch])
    | escape => exact absurd hnil (by simp [stretch])
  | refused hx =>
    have hnil := hx []
    rw [List.append_nil, hstretch] at hnil
    exact absurd hnil (by simp)

namespace Cursor

variable {z z' : Cursor} {p x t content : Text} {c : Char} {tree : JsonTree}

/-! ## The run on a part and the run on the whole -/

theorem Walk.append {y : Cursor × Text} (hw : Walk Any (z, p) y) (x : Text) :
    Walk Any (z, p ++ x) (y.1, y.2 ++ x) := by
  induction hw with
  | refl => exact .refl
  | @tail y y' _ hstep ih =>
    obtain ⟨content, c, hr, hok, hm⟩ := hstep
    rcases hr.cut with ⟨_, hx⟩ | ⟨rfl, _⟩
    · exact ih.tail ⟨content, c, hx x, hok, hm⟩
    · exact absurd hm (step_ne_next _ _ _)

/-- A run that is accepted is accepted from wherever it passes. -/
theorem Accepts.of_walk {ok : Cursor → Text → Char → Prop} {y y' : Cursor × Text}
    (hw : Walk Any y y') (h : Accepts ok y.1 y.2 tree) : Accepts ok y'.1 y'.2 tree := by
  induction hw with
  | refl => exact h
  | tail _ hstep ih =>
    obtain ⟨content, c, hr, _, hm⟩ := hstep
    cases ih with
    | done hr' _ hm' =>
      obtain ⟨rfl, rfl, _⟩ := hr.unique hr'
      rw [hm] at hm'
      exact absurd hm' (by simp)
    | step hr' _ hm' hrest =>
      obtain ⟨rfl, rfl, rfl⟩ := hr.unique hr'
      rw [hm] at hm'
      obtain rfl := Move.next.inj hm'
      exact hrest

/-! ## At the root -/

/-- Once the root is used, a text of the language has nothing left. -/
theorem Accepts.blank_of_root (h : Accepts Clean z t tree) (hp : z.parentType = none)
    (hused : z.data.type ≠ .empty) : Blank t := by
  cases h with
  | @done _ z' _ content rest c hr _ hm =>
    obtain ⟨hc, hs, _⟩ := step_accept_cases hm
    obtain ⟨pad, pad', token, hb, hb', hstop, rfl, rfl, rfl⟩ := hr.text_eq
    have hcontent : content = [] := by
      rcases settle_cases hs with ⟨he, _⟩ | ⟨_, hc, _⟩
      · exact absurd he hused
      · exact hc
    have htoken : token = [] := by
      cases token with
      | nil => rfl
      | cons d ds => exact absurd (hstop d rfl) (by rw [deref] at hc; simp [hc])
    rw [hcontent, htoken, List.append_nil, List.append_nil]
    exact hb.append hb'
  | step hr hclean hm _ =>
    cases step_next hm with
    | opening k _ => exact absurd (hclean.1 (by cases k <;> simp [Kind.opening])) hused
    | colon hobj _ _ => rw [hp] at hobj; exact absurd hobj (by simp)
    | comma hne _ _ => exact absurd hp hne
    | closeEmpty k hk _ _ _ => rw [hp] at hk; exact absurd hk (by simp)
    | closing k hk _ _ _ => rw [hp] at hk; exact absurd hk (by simp)

/-- An unused root has not been left yet. -/
theorem Next.used_of_root (h : z.Inv) (hm : z.Next content c z') (hp : z'.parentType = none) :
    z'.data.type ≠ .empty := by
  have hinv := h.next hm
  cases hm with
  | opening k _ => exact absurd hp (by simp [parentType, parentOf])
  | colon hobj _ _ => exact absurd (hobj.symm.trans hp) (by simp)
  | @comma _ y hne _ hs =>
    have hframes := (settle_frame hs).1
    have hsame : y.parentType = z.parentType := by rw [parentType, parentType, hframes]
    exact absurd (hsame.symm.trans hp) hne
  | closeEmpty k _ _ _ hup => exact hinv.used_of_up hup
  | closing k _ _ _ hup => exact hinv.used_of_up hup

/-- … so that a walk that is at an unused root has not begun. -/
theorem Walk.eq_start_of_root {y : Cursor × Text} (hw : Walk Any (start, t) y)
    (hp : y.1.parentType = none) (he : y.1.data.type = .empty) : y = (start, t) := by
  cases hw with
  | refl => rfl
  | @tail y' _ hw' hstep =>
    obtain ⟨content, c, _, _, hm⟩ := hstep
    exact absurd he ((step_next hm).used_of_root (inv_of_walk hw') hp)

/-- A part of a text of the language that is accepted: the rest is white space, or the part is. -/
theorem blank_of_accepts_part {tree' : JsonTree} (hpart : Accepts Any start p tree')
    (hwhole : Accepts Clean start (p ++ x) tree) :
    Blank x ∨ ∃ seen, trim p ≠ [] ∧
      stretch (.out false) (p ++ x) = (stretch (.out seen) x).map (longer p) := by
  obtain ⟨⟨z, p'⟩, content, c, rest, z', hw, hr, hm, _⟩ := hpart.exists_walk
  obtain ⟨hc, hs, hroot⟩ := step_accept_cases hm
  have hp : z.parentType = none := by
    rw [← hroot, parentType, parentType, (settle_frame hs).1]
  rcases settle_cases hs with ⟨he, hne, _⟩ | ⟨hused, _, _⟩
  · right
    obtain ⟨rfl, rfl⟩ := Prod.mk.inj (hw.eq_start_of_root hp he)
    rcases hr.cut with ⟨htoken, _⟩ | ⟨_, rfl, seen, hx⟩
    · exact absurd htoken (by simp [hc])
    · exact ⟨seen, hne, hx x⟩
  · left
    have hblank := (Accepts.of_walk (hw.append x) hwhole).blank_of_root hp hused
    exact fun d hd => hblank d (List.mem_append_right _ hd)

end Cursor

/-- **A text that lost its last bracket is refused**, wherever it is cut: the last bracket of an
array or an object is followed by white space alone, and no part of what stands in front of it is
accepted. -/
theorem jsonParse_truncated {v : Value} {t : Text} {k : Kind} (h : Writes v t)
    (hk : v.kind = some k) : ∃ body pad, t = body ++ k.closing :: pad ∧ Blank pad ∧
      ∀ p, p <+: body → jsonParse p = none := by
  have hwhole := Cursor.accepts_of_writes h
  rw [Writes, (isGroup_entries hk).tokens] at h
  obtain ⟨body, pad, rfl, hbody, hpad⟩ := h.split_at
  cases hpad with
  | nil hpad =>
    refine ⟨body, pad, rfl, hpad, ?_⟩
    intro p hp
    obtain ⟨x, rfl⟩ := hp
    rw [Option.eq_none_iff_forall_ne_some]
    intro tree hparse
    rw [List.append_assoc] at hwhole
    rcases Cursor.blank_of_accepts_part (jsonParse_eq_some_iff.mp hparse) hwhole with
      hblank | ⟨seen, hne, hstretch⟩
    · exact absurd (hblank k.closing (by simp)) (by cases k <;> decide)
    · -- The first entity of the whole text is its opening bracket, behind white space alone.
      obtain ⟨front, rest, hsplit, hfront⟩ : ∃ front rest, p ++ x = front ++ k.opening :: rest ∧
          Blank front := by
        generalize p ++ x = body at hbody
        cases hbody with
        | @cons front _ rest _ hfront _ => exact ⟨front, rest, by simp, hfront⟩
      have hfirst : stretch (.out false) (p ++ (x ++ k.closing :: pad))
          = some (front, k.opening :: (rest ++ k.closing :: pad)) := by
        have hstop : Stop (k.opening :: (rest ++ k.closing :: pad)) :=
          stop_cons (by cases k <;> rfl)
        rw [← List.append_assoc, hsplit, List.append_assoc, List.cons_append,
          stretch_blank_append hfront, stretch_stop hstop, Option.map_some, longer, List.append_nil]
      rw [hfirst] at hstretch
      obtain ⟨⟨u, token⟩, _, hlonger⟩ := Option.map_eq_some_iff.mp hstretch.symm
      have hpart : p ++ u = front := (Prod.mk.inj hlonger).1
      have hpblank : Blank p := by
        intro d hd
        exact hfront d (hpart ▸ List.mem_append_left u hd)
      exact hne (trim_blank hpblank)

/-- A nested array, a string with an escape in it and white space in front of the bracket. -/
theorem jsonParse_truncated_nested :
    ∃ body pad, "[[1], \"a\\n\" ]\n".toList = body ++ ']' :: pad ∧ Blank pad ∧
      ∀ p, p <+: body → jsonParse p = none :=
  jsonParse_truncated
    (v := .array [.array [.scalar (.number ['1'] (by decide))],
      .scalar (.strings ⟨[.plain 'a' (by decide), .escape .n], []⟩)])
    (padded_of_spells (by decide +kernel)) rfl

end Json
end TsnController

import TsnController.Json.Stretch

/-!
# White space next to an entity

The scanner trims what it delivers and the builder looks at nothing else, so white space at either
end of a stretch cannot matter. What has to be shown is that this is where white space beside an
entity always ends up, in texts that are accepted and in texts that are not: one that is refused for
some other reason must be refused with the white space in it as well.
-/

set_option autoImplicit false

namespace TsnController
namespace Json

open CLib Lib

/-- Between `p` and `s` the text starts, ends, or has an entity on one side. -/
def Beside (p s : Text) : Prop :=
  p = [] ∨ s = [] ∨ (∃ c ∈ p.getLast?, jsonIsToken c = true) ∨ ∃ c ∈ s.head?, jsonIsToken c = true

section Insert

variable {p s ws : Text}

/-- Behind an entity of the first part the position is still one beside an entity. -/
theorem Beside.tail {u p' : Text} {c : Char} (h : Beside (u ++ c :: p') s) : Beside p' s := by
  rcases h with h | h | ⟨d, hd, ht⟩ | h
  · exact absurd h (by simp)
  · exact .inr (.inl h)
  · cases p' with
    | nil => exact .inl rfl
    | cons e es =>
      refine .inr (.inr (.inl ⟨d, ?_, ht⟩))
      simpa [List.getLast?_append, List.getLast?_cons_cons] using hd
  · exact .inr (.inr (.inr h))

theorem placeAfter_tail {u p' : Text} {c : Char} (hc : jsonIsToken c = true)
    (hu : u.foldl Place.next .outside = .outside) (h : placeAfter (u ++ c :: p') = .outside) :
    placeAfter p' = .outside := by
  have hnext : Place.next .outside c = .outside := if_neg (jsonIsToken_plain hc).2.1
  rw [placeAfter, List.foldl_append, hu, List.foldl_cons, hnext] at h
  exact h

/-- White space at the end of the part in front of the position is at one end of the stretch. -/
theorem trim_insert {u token : Text} {seen : Bool} (hb : Beside p s)
    (hlast : ∀ c ∈ p.getLast?, jsonIsToken c = false) (hws : Blank ws)
    (hs : stretch (.out seen) s = some (u, token)) : trim (p ++ ws ++ u) = trim (p ++ u) := by
  have hend : Stop s → trim (p ++ ws ++ u) = trim (p ++ u) := by
    intro hstop
    rw [stretch_stop hstop] at hs
    obtain ⟨rfl, -⟩ := Prod.mk.inj (Option.some.inj hs)
    rw [List.append_nil, List.append_nil, trim_append_blank hws]
  rcases hb with rfl | rfl | ⟨c, hc, ht⟩ | ⟨c, hc, ht⟩
  · rw [List.nil_append, List.nil_append, trim_blank_append hws]
  · exact hend stop_nil
  · exact absurd ht (by simp [hlast c hc])
  · apply hend
    intro d hd
    rw [Option.mem_unique hd hc]
    exact ht

/-- What a scan from the front of `p` delivers with and without the white space behind `p`: either
`p` has the entity, and the two scans leave the white space where it was, or they deliver the
same and leave the same. -/
theorem reads_insert (hout : placeAfter p = .outside) (hb : Beside p s) (hws : Blank ws) :
    (∃ content c p', p'.length < p.length ∧ placeAfter p' = .outside ∧ Beside p' s ∧
      ∀ y content' c' rest, Reads (p ++ y) content' c' rest ↔
        content' = content ∧ c' = c ∧ rest = p' ++ y) ∨
    ∀ content c rest, Reads (p ++ (ws ++ s)) content c rest ↔ Reads (p ++ s) content c rest := by
  cases passes p (.out false) with
  | @stops u p' c htext hc hu hx =>
    left
    subst htext
    refine ⟨trim u, c, p', by simp; omega, placeAfter_tail hc hu hout, hb.tail, ?_⟩
    intro y content' c' rest
    rw [reads_of_stretch (hx y), deref, List.tail_cons, eq_comm (a := c), eq_comm (a := p' ++ y)]
  | @through s' hplace hlast hx =>
    right
    intro content c rest
    have hs' : s'.place = .outside := hplace.symm.trans hout
    cases s' with
    | inside => exact absurd hs' (by simp [Lex.place])
    | escape => exact absurd hs' (by simp [Lex.place])
    | out seen =>
      have hpad : stretch (.out false) (p ++ (ws ++ s))
          = (stretch (.out seen) s).map (longer (p ++ ws)) := by
        rw [hx, stretch_blank_append hws, map_longer_map_longer]
      cases hs : stretch (.out seen) s with
      | none => rw [reads_iff, reads_iff, hpad, hx, hs]; rfl
      | some y =>
        rw [hs] at hpad
        have hplain := hx s
        rw [hs] at hplain
        rw [reads_of_stretch hpad, reads_of_stretch hplain,
          trim_insert hb (hlast rfl) hws hs]
  | refused hx =>
    right
    intro content c rest
    rw [reads_iff, reads_iff, hx, hx]

/-! ## Two runs -/

open Cursor

/-- Acceptance, by its first iteration. -/
theorem accepts_iff {ok : Cursor → Text → Char → Prop} {z : Cursor} {t : Text} {tree : JsonTree} :
    Accepts ok z t tree ↔ ∃ content c rest, Reads t content c rest ∧ ok z content c ∧
      ((∃ z', z.step content c = .accept z' ∧ tree = z'.tree) ∨
        ∃ z', z.step content c = .next z' ∧ Accepts ok z' rest tree) := by
  constructor
  · intro h
    cases h with
    | done hr ho hm => exact ⟨_, _, _, hr, ho, .inl ⟨_, hm, rfl⟩⟩
    | step hr ho hm hrest => exact ⟨_, _, _, hr, ho, .inr ⟨_, hm, hrest⟩⟩
  · rintro ⟨content, c, rest, hr, ho, ⟨z', hm, rfl⟩ | ⟨z', hm, hrest⟩⟩
    · exact .done hr ho hm
    · exact .step hr ho hm hrest

/-- The induction is on the part in front of the position: every entity in it is an iteration both
runs make alike. -/
theorem accepts_insert (hws : Blank ws) {tree : JsonTree} (n : Nat) : ∀ {p : Text} {z : Cursor},
    p.length ≤ n → placeAfter p = .outside → Beside p s →
      (Accepts Any z (p ++ (ws ++ s)) tree ↔ Accepts Any z (p ++ s) tree) := by
  induction n with
  | zero =>
    intro p z hn hout hb
    rcases reads_insert hout hb hws with ⟨_, _, p', hlt, _⟩ | hsame
    · omega
    · rw [accepts_iff, accepts_iff (t := p ++ s)]
      simp only [hsame]
  | succ n ih =>
    intro p z hn hout hb
    rw [accepts_iff, accepts_iff (t := p ++ s)]
    rcases reads_insert hout hb hws with ⟨content, c, p', hlt, hout', hb', hreads⟩ | hsame
    · have hrest : ∀ z', Accepts Any z' (p' ++ (ws ++ s)) tree ↔ Accepts Any z' (p' ++ s) tree := by
        intro z'
        exact ih (by omega) hout' hb'
      simp only [hreads]
      constructor
      · rintro ⟨_, _, _, ⟨rfl, rfl, rfl⟩, ho, hcase⟩
        simp only [hrest] at hcase
        exact ⟨_, _, _, ⟨rfl, rfl, rfl⟩, ho, hcase⟩
      · rintro ⟨_, _, _, ⟨rfl, rfl, rfl⟩, ho, hcase⟩
        simp only [← hrest] at hcase
        exact ⟨_, _, _, ⟨rfl, rfl, rfl⟩, ho, hcase⟩
    · simp only [hsame]

end Insert

/-- **White space beside an entity, or at an end of the text, is irrelevant**: with it and without
it the text is accepted or refused alike, and becomes the same tree. -/
theorem jsonParse_insert_blank {p s ws : Text} (hout : placeAfter p = .outside)
    (hb : Beside p s) (hws : Blank ws) : jsonParse (p ++ ws ++ s) = jsonParse (p ++ s) := by
  apply Option.ext
  intro tree
  rw [jsonParse_eq_some_iff, jsonParse_eq_some_iff, List.append_assoc]
  exact accepts_insert hws p.length (Nat.le_refl _) hout hb

/-- Behind a comma between two strings, the second one with a bracket in it. -/
theorem jsonParse_insert_blank_comma :
    jsonParse ("[\"a\\\"\",".toList ++ " \n\t".toList ++ "\"]\"]".toList)
      = jsonParse ("[\"a\\\"\",".toList ++ "\"]\"]".toList) :=
  jsonParse_insert_blank rfl (.inr (.inr (.inl ⟨',', rfl, rfl⟩))) (List.all_eq_true.mp rfl)

end Json
end TsnController

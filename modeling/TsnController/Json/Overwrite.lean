import TsnController.Json.Invariant
import TsnController.Json.Soundness

/-!
# Where the parser departs from its language

`json_build` checks in front of a comma and of a closing bracket that the current node has not been
used, and does not check it in front of an opening one. A group may therefore directly follow a
group: `[1][2]` is accepted, and since the second bracket hangs a new child in the place of the
first group's children, the tree that comes back is that of `[2]`. A forgotten comma silently
drops everything in front of it.

The second departure is the test for an empty group. It asks whether the current node is unused and
the first child, not whether it has a name, so that `{"a":}` passes for an empty object.

Both can be seen in the text alone: `entities` lists what the scanner stops at, and `NoOverwrite`
forbids the two neighbourhoods. On accepted texts that is exactly the language.
-/

set_option autoImplicit false

namespace TsnController
namespace Json

open CLib Lib

/-- The entities of a text in order, each with whether nothing stands in front of it. -/
def entities : Nat → Text → List (Bool × Char)
  | 0, _ => []
  | n + 1, t =>
    match jsonScan t with
    | none => []
    | some s => (decide s.bare, deref s.token) ::
        if s.token = [] then [] else entities n s.token.tail

/-- An opening bracket directly behind a closing one, or the end of an object directly behind a
colon. -/
def Clash (x y : Bool × Char) : Prop :=
  y.1 = true ∧ (((x.2 = ']' ∨ x.2 = '}') ∧ (y.2 = '{' ∨ y.2 = '[')) ∨ (x.2 = ':' ∧ y.2 = '}'))

instance (x y : Bool × Char) : Decidable (Clash x y) := inferInstanceAs (Decidable (_ ∧ _))

def NoOverwrite (t : Text) : Prop :=
  (entities (t.length + 1) t).IsChain fun x y => ¬ Clash x y

instance (t : Text) : Decidable (NoOverwrite t) :=
  inferInstanceAs (Decidable (List.IsChain _ _))

section Entities

variable {t content rest : Text} {c : Char}

theorem Reads.entities_end (h : Reads t content c rest) (hc : jsonIsToken c = false) (n : Nat) :
    entities (n + 1) t = [(decide (content = []), c)] := by
  obtain ⟨s, hscan, hs, rfl, rfl⟩ := h
  have hend : s.token = [] := by
    have hstop := hs.stop
    cases htok : s.token with
    | nil => rfl
    | cons d ds =>
      rw [htok] at hstop hc
      exact absurd (hstop d (by simp)) (by simpa [deref] using hc)
  simp [entities, hscan, hend, hs.bare_iff]

theorem Reads.entities_step (h : Reads t content c rest) (hc : c ≠ '\x00') (n : Nat) :
    entities (n + 1) t = (decide (content = []), c) :: entities n rest ∧
      rest.length < t.length := by
  obtain ⟨u, htext, _⟩ := h.split hc
  obtain ⟨s, hscan, hs, rfl, rfl⟩ := h
  have hne : s.token ≠ [] := by
    intro htok
    rw [htok] at hc
    exact hc rfl
  refine ⟨by simp [entities, hscan, hne, hs.bare_iff], ?_⟩
  rw [htext]
  simp only [List.length_append, List.length_cons]
  omega

end Entities

namespace Cursor

variable {z z' : Cursor} {content rest t : Text} {c p : Char}

/-- What the last entity tells about the current node. -/
structure After (p : Char) (z : Cursor) : Prop where
  used : z.data.type ≠ .empty ↔ p = ']' ∨ p = '}'
  named : z.data.type = .empty → (z.data.name ≠ none ↔ p = ':')

theorem after_start : After ',' start where
  used := by decide
  named := by decide

/-- Closing a group leaves a used node. -/
theorem Inv.used_of_up {y : Cursor} (h : z'.Inv)
    (hup : up y.frames y.node = some (z'.frames, z'.data, z'.left)) : z'.data.type ≠ .empty := by
  have hgroup := h.node.left.mp (hasRoot_up (t := y.node) rfl hup)
  intro he
  rw [he] at hgroup
  exact absurd hgroup (by decide)

theorem After.next (h : z.Inv) (hm : z.Next content c z') : After c z' := by
  have hinv := h.next hm
  cases hm with
  | opening k _ => cases k <;> exact ⟨by simp [Kind.opening], by simp [Kind.opening]⟩
  | colon hp hname _ =>
    have he : z.data.type = .empty := by_contra fun hne => h.node.named hp hne hname
    exact ⟨by simp [he], by simp⟩
  | comma _ _ _ => exact ⟨by simp, by simp⟩
  | closeEmpty k _ _ _ hup =>
    have hne := hinv.used_of_up hup
    exact ⟨iff_of_true hne (by cases k <;> simp [Kind.closing]), fun he => absurd he hne⟩
  | closing k _ _ _ hup =>
    have hne := hinv.used_of_up hup
    exact ⟨iff_of_true hne (by cases k <;> simp [Kind.closing]), fun he => absurd he hne⟩

theorem Next.content_of_opening (hm : z.Next content c z') (hc : c = '{' ∨ c = '[') :
    content = [] := by
  cases hm with
  | opening k _ => rfl
  | colon _ _ _ => exact absurd hc (by decide)
  | comma _ _ _ => exact absurd hc (by decide)
  | closeEmpty k _ _ _ _ => rfl
  | closing k _ _ _ _ => cases k <;> exact absurd hc (by decide)

theorem Next.parent_of_closing (hm : z.Next content c z') (hc : c = ']' ∨ c = '}') :
    z.parentType = some (jsonToken c) := by
  cases hm with
  | opening k _ => cases k <;> exact absurd hc (by decide)
  | colon _ _ _ => exact absurd hc (by decide)
  | comma _ _ _ => exact absurd hc (by decide)
  | closeEmpty k hp _ _ _ => rw [k.jsonToken_closing, hp]
  | closing k hp _ _ _ => rw [k.jsonToken_closing, hp]

/-- An iteration that goes on is clean exactly if its entity does not clash with the last. -/
theorem After.clean_iff (hp : After p z) (h : z.Inv) (hm : z.Next content c z') (b : Bool) :
    z.Clean content c ↔ ¬ Clash (b, p) (decide (content = []), c) := by
  constructor
  · rintro ⟨hopen, hclose⟩ ⟨hbare, ⟨hpc, hco⟩ | ⟨hpc, hcc⟩⟩
    · exact hp.used.mpr hpc (hopen hco)
    · simp only at hpc hcc hbare
      have he : z.data.type = .empty := by
        by_contra hne
        have := hp.used.mp hne
        rw [hpc] at this
        exact absurd this (by decide)
      exact (hp.named he).mpr hpc (hclose (Or.inr hcc) he (of_decide_eq_true hbare))
  · intro hclash
    refine ⟨fun hco => ?_, fun hcc he hbare => ?_⟩
    · by_contra hne
      exact hclash ⟨by simp [hm.content_of_opening hco], Or.inl ⟨hp.used.mp hne, hco⟩⟩
    · by_contra hname
      refine hclash ⟨by simp [hbare], Or.inr ⟨(hp.named he).mp hname, ?_⟩⟩
      -- Only the members of an object have names.
      rcases hcc with rfl | rfl
      · refine absurd (h.node.nameless ?_) hname
        rw [show (parentOf z.frames).map (·.type) = _ from hm.parent_of_closing (Or.inl rfl)]
        simp [jsonToken]
      · rfl

theorem clean_of_accept (hm : z.step content c = .accept z') : z.Clean content c := by
  have hc := (step_accept_cases hm).1
  refine clean_of_ne ?_ ?_
  · rintro (rfl | rfl) <;> exact absurd hc (by decide)
  · rintro (rfl | rfl) <;> exact absurd hc (by decide)

/-- **An accepting run is clean exactly if no two neighbouring entities clash.** The entity in front
of the text is `p`. -/
theorem Accepts.clean_iff {tree : JsonTree} (h : Accepts Any z t tree) : ∀ (b : Bool) (p : Char)
    (n : Nat), After p z → z.Inv → t.length < n →
    (Accepts Clean z t tree ↔ ((b, p) :: entities n t).IsChain fun x y => ¬ Clash x y) := by
  induction h with
  | @done z z' t content rest c hr _ hm =>
    intro b p n hp _ hn
    obtain ⟨m, rfl⟩ := Nat.exists_eq_add_one_of_ne_zero (Nat.ne_of_gt (Nat.zero_lt_of_lt hn))
    refine iff_of_true (.done hr (clean_of_accept hm) hm) ?_
    have hc := (step_accept_cases hm).1
    rw [hr.entities_end hc]
    refine List.isChain_cons_cons.mpr ⟨?_, .singleton _⟩
    rintro ⟨_, ⟨_, rfl | rfl⟩ | ⟨_, rfl⟩⟩ <;> exact absurd hc (by decide)
  | @step z z' t content rest c tree hr _ hm hrest ih =>
    intro b p n hp hinv hn
    obtain ⟨m, rfl⟩ := Nat.exists_eq_add_one_of_ne_zero (Nat.ne_of_gt (Nat.zero_lt_of_lt hn))
    have hnext := step_next hm
    have hne : c ≠ '\x00' := by
      rintro rfl
      exact z.step_ne_next z' content hm
    obtain ⟨hent, hlen⟩ := hr.entities_step hne m
    have htail := ih (decide (content = [])) c m (.next hinv hnext) (hinv.next hnext) (by omega)
    rw [hent, List.isChain_cons_cons, ← hp.clean_iff hinv hnext b, ← htail]
    constructor
    · intro hacc
      -- The run is determined, so the first iteration of any accepting run is this one.
      cases hacc with
      | done hr' _ hm' =>
        obtain ⟨rfl, rfl, rfl⟩ := hr.unique hr'
        exact absurd (hm.symm.trans hm') (by simp)
      | step hr' hclean hm' hacc' =>
        obtain ⟨rfl, rfl, rfl⟩ := hr.unique hr'
        obtain rfl := Move.next.inj (hm.symm.trans hm')
        exact ⟨hclean, hacc'⟩
    · rintro ⟨hclean, hacc'⟩
      exact .step hr hclean hm hacc'

/-- From the start there is no entity in front. -/
theorem accepts_clean_iff {tree : JsonTree} (h : Accepts Any start t tree) :
    Accepts Clean start t tree ↔ NoOverwrite t := by
  rw [h.clean_iff true ',' (t.length + 1) after_start inv_start (Nat.lt_succ_self _), NoOverwrite]
  cases entities (t.length + 1) t with
  | nil => simp
  | cons e es =>
    rw [List.isChain_cons_cons, and_iff_right]
    rintro ⟨_, ⟨h, _⟩ | ⟨h, _⟩⟩ <;> exact absurd h (by decide)

end Cursor

theorem noOverwrite_of_writes {v : Value} {t : Text} (h : Writes v t) : NoOverwrite t := by
  have hclean := Cursor.accepts_of_writes h
  exact (Cursor.accepts_clean_iff (hclean.mono fun _ _ _ _ => trivial)).mp hclean

/-- **Soundness.** Of the texts `json_parse` accepts, those without the two neighbourhoods are
exactly the ones that write a value, and the tree is that value's. -/
theorem jsonParse_writes_iff {t : Text} {tree : JsonTree} (h : jsonParse t = some tree) :
    (∃ v, Writes v t ∧ tree = v.tree) ↔ NoOverwrite t := by
  constructor
  · rintro ⟨v, hv, _⟩
    exact noOverwrite_of_writes hv
  · intro hno
    exact Cursor.writes_of_accepts
      ((Cursor.accepts_clean_iff (jsonParse_eq_some_iff.mp h)).mpr hno)

theorem jsonParse_writes_pair :
    ∃ v, Writes v "[1, 2]".toList ∧ (BinaryTree.node ⟨.array, none, none⟩
      (.node ⟨.number, none, some ['1']⟩ .nil (.node ⟨.number, none, some ['2']⟩ .nil .nil))
      .nil : JsonTree) = v.tree :=
  (jsonParse_writes_iff (by decide +kernel)).mpr (by decide +kernel)

/-- A second group in the place of the first, and a member without its value: both accepted, neither
a value. -/
theorem jsonParse_accepts_nonvalues :
    (jsonParse "[1][2]".toList = jsonParse "[2]".toList ∧
      (jsonParse "[1][2]".toList).isSome = true ∧ ¬ ∃ v, Writes v "[1][2]".toList) ∧
    ((jsonParse ['{', '"', 'a', '"', ':', '}']).isSome = true ∧
      ¬ ∃ v, Writes v ['{', '"', 'a', '"', ':', '}']) := by
  refine ⟨⟨by decide +kernel, by decide +kernel, ?_⟩, by decide +kernel, ?_⟩
  · rintro ⟨v, hv⟩
    exact absurd (noOverwrite_of_writes hv) (by decide +kernel)
  · rintro ⟨v, hv⟩
    exact absurd (noOverwrite_of_writes hv) (by decide +kernel)

end Json
end TsnController

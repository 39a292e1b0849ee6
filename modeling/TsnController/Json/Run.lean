import Mathlib.Logic.Relation
import TsnController.Json.Machine

/-!
# Runs of the builder

`json_parse` is a loop on a heap with a bound on its iterations. Here it becomes a relation: the
builder walks from cursor to cursor while the scanner delivers contents and entities
(`Cursor.Walk`), `Cursor.Accepts` says that such a walk ends in an accepting step, and
`jsonParse_eq_some_iff` that this is when it returns a tree. Both take a condition on the
iterations, because the builder accepts by some that it should not. That the bound on the
iterations is never what ends a run is `jsonBuild_halts`.
-/

set_option autoImplicit false

namespace TsnController
namespace Json

open CLib Lib

/-! ## Iterating -/

/-- **Invariants of the loop**: what holds at the start and survives an iteration holds after any
number of them. -/
theorem jsonBuildAfter_induction {P : Build → Prop} {text : Text}
    (start : P (.running (jsonStart text))) (step : ∀ b, P (.running b) → P (jsonBuildStep b))
    (n : Nat) : P (jsonBuildAfter text n) := by
  induction n with
  | zero => exact start
  | succ n ih =>
    rw [jsonBuildAfter, Function.iterate_succ_apply', ← jsonBuildAfter]
    generalize jsonBuildAfter text n = r at ih
    cases r with
    | running b => exact step b ih
    | accepted b => exact ih
    | rejected b => exact ih

theorem jsonBuildAfter_succ {text : Text} {n : Nat} {b : Builder}
    (h : jsonBuildAfter text n = .running b) : jsonBuildAfter text (n + 1) = jsonBuildStep b := by
  rw [jsonBuildAfter, Function.iterate_succ_apply', ← jsonBuildAfter, h]
  rfl

/-- Once it has returned it has returned. -/
theorem jsonBuildAfter_of_le {text : Text} {n m : Nat} (hnm : n ≤ m)
    (h : ∀ b, jsonBuildAfter text n ≠ .running b) :
    jsonBuildAfter text m = jsonBuildAfter text n := by
  obtain ⟨k, rfl⟩ := Nat.exists_eq_add_of_le hnm
  induction k with
  | zero => rfl
  | succ k ih =>
    rw [← Nat.add_assoc, jsonBuildAfter, Function.iterate_succ_apply', ← jsonBuildAfter,
      ih (Nat.le_add_right n k)]
    cases hb : jsonBuildAfter text n with
    | running b => exact absurd hb (h b)
    | accepted b => rfl
    | rejected b => rfl

/-! ## What the scanner delivers -/

/-- From `t` the scanner delivers `content` and the entity `c`, and leaves `rest`. -/
def Reads (t content : Text) (c : Char) (rest : Text) : Prop :=
  ∃ s, jsonScan t = some s ∧ Scanned t content s.token s ∧ deref s.token = c ∧ s.token.tail = rest

theorem Reads.of_scan {t content token : Text} {s : Scan} (hscan : jsonScan t = some s)
    (hs : Scanned t content token s) : Reads t content (deref token) token.tail := by
  obtain rfl := hs.token_eq
  exact ⟨s, hscan, hs, rfl, rfl⟩

/-- The text in front of the entity is the content with white space around it, and the entity
itself is the end of the text exactly if it is NUL. -/
theorem Reads.text_eq {t content : Text} {c : Char} {rest : Text} (h : Reads t content c rest) :
    ∃ pad pad' token, Blank pad ∧ Blank pad' ∧ Stop token ∧ deref token = c ∧ token.tail = rest ∧
      t = pad ++ content ++ pad' ++ token := by
  obtain ⟨s, _, hs, rfl, rfl⟩ := h
  generalize s.token = token at hs ⊢
  cases hs with
  | bare hb hstop => exact ⟨_, [], _, hb, blank_nil, hstop, rfl, rfl, by simp⟩
  | found hb _ _ hb' hstop _ => exact ⟨_, _, _, hb, hb', hstop, rfl, rfl, by simp⟩

/-- The text in front of an entity holds the tokens of the content. -/
theorem Reads.split {t content : Text} {c : Char} {rest : Text} (h : Reads t content c rest)
    (hc : c ≠ '\x00') :
    ∃ u, t = u ++ c :: rest ∧ ∀ toks, Padded toks content → Padded toks u := by
  obtain ⟨pad, pad', token, hb, hb', hstop, rfl, rfl, rfl⟩ := h.text_eq
  cases token with
  | nil => exact absurd rfl hc
  | cons d ds =>
    refine ⟨pad ++ content ++ pad', rfl, fun toks hp => ?_⟩
    simpa using (hp.blank_append hb).append (.nil hb')

theorem Reads.unique {t content content' : Text} {c c' : Char} {rest rest' : Text}
    (h : Reads t content c rest) (h' : Reads t content' c' rest') :
    content = content' ∧ c = c' ∧ rest = rest' := by
  obtain ⟨s, hscan, hs, rfl, rfl⟩ := h
  obtain ⟨s', hscan', hs', rfl, rfl⟩ := h'
  obtain rfl : s = s' := Option.some.inj (hscan.symm.trans hscan')
  exact ⟨hs.content_eq.trans hs'.content_eq.symm, rfl, rfl⟩

section Contents

variable {t content rest u : Text} {c : Char}

/-- Copied on its own, adjacent strings give their content … -/
theorem copy_quoted {q : Quoted} (hq : Padded q.tokens content) (hh : content.head? = some '"') :
    jsonCopy content content.length = q.content := by
  simpa using jsonCopy_quoted (t := []) hq hh

/-- … and a word gives itself. -/
theorem copy_word {w : Text} (hw : ∀ d ∈ w, numChar d = true) : jsonCopy w w.length = w := by
  simpa using jsonCopy_word (t := []) hw

theorem reads_blank (hu : Blank u) (hr : Stop rest) : Reads (u ++ rest) [] (deref rest) rest.tail :=
  .of_scan (scan_blank hu hr) (.bare hu hr)

/-- Adjacent strings are delivered as one content. -/
theorem reads_quoted {q : Quoted} (hu : Padded q.tokens u) (hr : Stop rest) :
    ∃ content, Reads (u ++ rest) content (deref rest) rest.tail ∧ content.head? = some '"' ∧
      jsonCopy content content.length = q.content := by
  obtain ⟨pad, content, pad', hb, hb', rfl, hq, hhead, hlast, hscan⟩ := scan_quoted hu hr
  have hflush : Flush content := ⟨by rintro rfl; simp at hhead, by simp [hhead, isspace_quote]⟩
  refine ⟨content, .of_scan hscan ?_, hhead, copy_quoted hq hhead⟩
  simpa using Scanned.found hb hflush hlast hb' hr (fun _ => ⟨rfl, q, hq⟩)

theorem head?_ne_quote {w : Text} (hw : ∀ d ∈ w, numChar d = true) : w.head? ≠ some '"' := by
  intro h
  exact (numChar_plain (hw _ (List.mem_of_head? h))).2.1 rfl

/-- A word of number characters is delivered as it is. -/
theorem reads_word {w : Text} (hu : Padded [w] u) (hw : ∀ d ∈ w, numChar d = true) (hne : w ≠ [])
    (hr : Stop rest) : Reads (u ++ rest) w (deref rest) rest.tail := by
  have hflush : Flush w := ⟨hne, fun d hd => (numChar_plain (hw d (List.mem_of_head? hd))).2.2.1⟩
  cases hu with
  | @cons pad _ pad' _ hb hu' =>
    cases hu' with
    | nil hb' =>
      have hscan := scan_word hb hw hne hb' hr
      refine .of_scan (s := ⟨w ++ (pad' ++ rest), w.getLast hne :: (pad' ++ rest), rest⟩) ?_ ?_
      · simpa using hscan
      · simpa using Scanned.found hb hflush (List.getLast?_eq_some_getLast hne) hb' hr
          (fun h => absurd h (head?_ne_quote hw))

theorem scalarType_number {w : Text} (h : IsNumeral w) : scalarType w = some .number := by
  have hword : ∀ k : Text, strtodEnd k ≠ k.length → w ≠ k := by
    rintro k hk rfl
    exact hk h.2
  rw [scalarType, if_neg (head?_ne_quote h.numChar), if_neg (hword _ (by decide)),
    if_neg (hword _ (by decide)), if_neg (hword _ (by decide)), if_pos h.2]

/-- A scalar is delivered as a content of its type that is copied to its value. -/
theorem reads_scalar {s : Scalar} (hu : Padded s.tokens u) (hr : Stop rest) :
    ∃ content, Reads (u ++ rest) content (deref rest) rest.tail ∧ content ≠ [] ∧
      scalarType content = some s.type ∧ jsonCopy content content.length = s.value := by
  cases s with
  | strings q =>
    obtain ⟨content, hreads, hhead, hcopy⟩ := reads_quoted (q := q) hu hr
    refine ⟨content, hreads, by rintro rfl; simp at hhead, ?_, hcopy⟩
    rw [scalarType, if_pos hhead]
    rfl
  | null =>
    exact ⟨_, reads_word hu (numChar_of_all rfl) (by simp) hr, by simp, rfl, rfl⟩
  | true =>
    exact ⟨_, reads_word hu (numChar_of_all rfl) (by simp) hr, by simp, rfl, rfl⟩
  | false =>
    exact ⟨_, reads_word hu (numChar_of_all rfl) (by simp) hr, by simp, rfl, rfl⟩
  | number w hw =>
    exact ⟨w, reads_word hu hw.numChar hw.1.1 hr, hw.1.1, scalarType_number hw,
      copy_word hw.numChar⟩

theorem Reads.exists_quoted (h : Reads t content c rest) (hq : content.head? = some '"') :
    ∃ q : Quoted, Padded q.tokens content ∧ jsonCopy content content.length = q.content := by
  obtain ⟨s, _, hs, _⟩ := h
  obtain ⟨q, hp⟩ := hs.exists_quoted hq
  exact ⟨q, hp, copy_quoted hp hq⟩

/-- A content that has a type writes a scalar of it. -/
theorem Reads.exists_scalar (h : Reads t content c rest) (hc : content ≠ []) {type : JsonType}
    (ht : scalarType content = some type) :
    ∃ s : Scalar, Padded s.tokens content ∧ s.type = type ∧
      jsonCopy content content.length = s.value := by
  by_cases hq : content.head? = some '"'
  · obtain ⟨q, hp, hcopy⟩ := h.exists_quoted hq
    rw [scalarType, if_pos hq] at ht
    exact ⟨.strings q, hp, Option.some.inj ht, hcopy⟩
  obtain ⟨s, _, hs, _⟩ := h
  have hcopy := copy_word (numChar_of_scalarType (hs.flush hc) ht hq)
  rw [scalarType, if_neg hq] at ht
  split at ht
  · rename_i hw
    exact ⟨.null, hw ▸ padded_singleton _, Option.some.inj ht, hw ▸ hcopy⟩
  split at ht
  · rename_i hw
    exact ⟨.true, hw ▸ padded_singleton _, Option.some.inj ht, hw ▸ hcopy⟩
  split at ht
  · rename_i hw
    exact ⟨.false, hw ▸ padded_singleton _, Option.some.inj ht, hw ▸ hcopy⟩
  split at ht
  · rename_i hn
    exact ⟨.number content ⟨hs.flush hc, hn⟩, padded_singleton _, Option.some.inj ht, hcopy⟩
  · exact absurd ht (by simp)

end Contents

/-! ## Walks -/

namespace Cursor

/-- `json_parse`'s fresh root. -/
def start : Cursor := ⟨[], {}, .nil⟩

/-- One iteration that goes on, among those that are `ok`. -/
def Step (ok : Cursor → Text → Char → Prop) (x y : Cursor × Text) : Prop :=
  ∃ content c, Reads x.2 content c y.2 ∧ ok x.1 content c ∧ x.1.step content c = .next y.1

/-- Any number of them. -/
abbrev Walk (ok : Cursor → Text → Char → Prop) : Cursor × Text → Cursor × Text → Prop :=
  Relation.ReflTransGen (Step ok)

/-- No restriction on the iterations. -/
def Any : Cursor → Text → Char → Prop := fun _ _ _ => True

/-- From the cursor and the text on, the loop accepts with the tree. -/
inductive Accepts (ok : Cursor → Text → Char → Prop) : Cursor → Text → JsonTree → Prop
  | done {z z' : Cursor} {t content rest : Text} {c : Char} : Reads t content c rest →
      ok z content c → z.step content c = .accept z' → Accepts ok z t z'.tree
  | step {z z' : Cursor} {t content rest : Text} {c : Char} {tree : JsonTree} :
      Reads t content c rest → ok z content c → z.step content c = .next z' →
      Accepts ok z' rest tree → Accepts ok z t tree

theorem Accepts.mono {ok ok' : Cursor → Text → Char → Prop} {z : Cursor} {t : Text}
    {tree : JsonTree} (hok : ∀ z content c, ok z content c → ok' z content c)
    (h : Accepts ok z t tree) : Accepts ok' z t tree := by
  induction h with
  | done hr ho hm => exact .done hr (hok _ _ _ ho) hm
  | step hr ho hm _ ih => exact .step hr (hok _ _ _ ho) hm ih

theorem Walk.accepts {ok : Cursor → Text → Char → Prop} {x y : Cursor × Text} {tree : JsonTree}
    (hw : Walk ok x y) (h : Accepts ok y.1 y.2 tree) : Accepts ok x.1 x.2 tree := by
  induction hw using Relation.ReflTransGen.head_induction_on with
  | refl => exact h
  | head hstep _ ih =>
    obtain ⟨content, c, hr, ho, hm⟩ := hstep
    exact .step hr ho hm ih

theorem Accepts.exists_walk {ok : Cursor → Text → Char → Prop} {z : Cursor} {t : Text}
    {tree : JsonTree} (h : Accepts ok z t tree) : ∃ x content c rest z', Walk ok (z, t) x ∧
      Reads x.2 content c rest ∧ x.1.step content c = .accept z' ∧ tree = z'.tree := by
  induction h with
  | @done z z' t content rest c hr ho hm =>
    exact ⟨(z, t), content, c, rest, z', .refl, hr, hm, rfl⟩
  | step hr ho hm _ ih =>
    obtain ⟨x, content, c, rest, z', hw, hlast⟩ := ih
    exact ⟨x, content, c, rest, z', hw.head ⟨_, _, hr, ho, hm⟩, hlast⟩

/-- The end of the text is not followed by another iteration. -/
theorem step_ne_next (z z' : Cursor) (content : Text) : z.step content '\x00' ≠ .next z' := by
  intro h
  have hnext := step_next h
  generalize hc : '\x00' = c at hnext
  cases hnext with
  | opening k _ => cases k <;> exact absurd hc (by decide)
  | colon _ _ _ => exact absurd hc (by decide)
  | comma _ _ _ => exact absurd hc (by decide)
  | closeEmpty k _ _ _ _ => cases k <;> exact absurd hc (by decide)
  | closing k _ _ _ _ => cases k <;> exact absurd hc (by decide)

end Cursor

theorem represents_start (text : Text) :
    Represents (jsonStart text).heap (jsonStart text).node Cursor.start := by
  refine ⟨[], {}, .nil, ⟨?_, by simp [plug]⟩, rfl, trivial, rfl, rfl, rfl⟩
  exact ⟨Heap.read_alloc_self _ _, rfl, rfl, rfl, trivial, trivial⟩

/-- What is known of the builder after any number of iterations. -/
def Walked (text : Text) : Build → Prop
  | .running b => ∃ z, Represents b.heap b.node z ∧
      Cursor.Walk Cursor.Any (Cursor.start, text) (z, b.left)
  | .accepted b => ∃ z x content c rest, Represents b.heap b.node z ∧
      Cursor.Walk Cursor.Any (Cursor.start, text) x ∧ Reads x.2 content c rest ∧
      x.1.step content c = .accept z
  | .rejected b => ∃ z, Represents b.heap b.node z

theorem walked_step {text : Text} {b : Builder} (h : Walked text (.running b)) :
    Walked text (jsonBuildStep b) := by
  obtain ⟨z, hz, hw⟩ := h
  cases hscan : jsonScan b.left with
  | none =>
    rw [step_of_scan_none hscan]
    exact ⟨z, hz⟩
  | some s =>
    obtain ⟨content, hs⟩ := jsonScan_spec hscan
    have hreads := Reads.of_scan hscan hs
    have href := step_refines hz hscan hs
    cases hb : jsonBuildStep b with
    | running b' =>
      cases hm : z.step content (deref s.token) with
      | next z' =>
        rw [hb, hm] at href
        exact ⟨z', href.1, hw.tail ⟨content, _, href.2 ▸ hreads, trivial, hm⟩⟩
      | accept z' => rw [hb, hm] at href; exact href.elim
      | reject z' => rw [hb, hm] at href; exact href.elim
    | accepted b' =>
      cases hm : z.step content (deref s.token) with
      | accept z' =>
        rw [hb, hm] at href
        exact ⟨z', (z, b.left), content, _, _, href, hw, hreads, hm⟩
      | next z' => rw [hb, hm] at href; exact href.elim
      | reject z' => rw [hb, hm] at href; exact href.elim
    | rejected b' =>
      cases hm : z.step content (deref s.token) with
      | reject z' => rw [hb, hm] at href; exact ⟨z', href⟩
      | next z' => rw [hb, hm] at href; exact href.elim
      | accept z' => rw [hb, hm] at href; exact href.elim

theorem walked_after (text : Text) (n : Nat) : Walked text (jsonBuildAfter text n) :=
  jsonBuildAfter_induction ⟨Cursor.start, represents_start text, .refl⟩ (fun _ => walked_step) n

/-- The tree at its pointers is the cursor's. -/
theorem Holds.tree_eq {h : Heap JsonCell} {p : Ptr} {z : Cursor}
    {c : List (Frame (Ptr × JsonCell))} {a : JsonCell} {l : BinaryTree (Ptr × JsonCell)}
    (hr : Holds h p z c a l) : (plug c (.node (p, a) l .nil)).map dataOf = z.tree := by
  rw [plug_map, hr.frames, Cursor.tree]
  simp [BinaryTree.map, Cursor.node, hr.left, dataOf, hr.data]

/-- Also when it has been rejected, the builder has a tree. -/
theorem represents_after (text : Text) (n : Nat) : ∃ z,
    Represents (jsonBuildAfter text n).state.heap (jsonBuildAfter text n).state.node z := by
  have hw := walked_after text n
  generalize jsonBuildAfter text n = r at hw
  cases r with
  | running b =>
    obtain ⟨z, hz, _⟩ := hw
    exact ⟨z, hz⟩
  | accepted b =>
    obtain ⟨z, _, _, _, _, hz, _⟩ := hw
    exact ⟨z, hz⟩
  | rejected b => exact hw

/-! ## The loop ends by itself -/

/-- Every iteration that goes on has consumed its entity. -/
theorem jsonBuildStep_shorter {b b' : Builder} {z : Cursor} (hz : Represents b.heap b.node z)
    (h : jsonBuildStep b = .running b') : b'.left.length < b.left.length := by
  cases hscan : jsonScan b.left with
  | none => rw [step_of_scan_none hscan] at h; exact absurd h (by simp)
  | some s =>
    obtain ⟨content, hs⟩ := jsonScan_spec hscan
    have href := step_refines hz hscan hs
    cases hm : z.step content (deref s.token) with
    | accept z' => rw [h, hm] at href; exact href.elim
    | reject z' => rw [h, hm] at href; exact href.elim
    | next z' =>
      rw [h, hm] at href
      obtain ⟨pad, pad', token, _, _, _, hc, hrest, htext⟩ := (Reads.of_scan hscan hs).text_eq
      rw [href.2, ← hrest, htext]
      cases token with
      | nil => rw [← hc] at hm; exact absurd hm (z.step_ne_next z' content)
      | cons d ds => simp only [List.tail_cons, List.length_append, List.length_cons]; omega

theorem length_left_after {text : Text} : ∀ {n : Nat} {b : Builder},
    jsonBuildAfter text n = .running b → b.left.length + n ≤ text.length
  | 0, b, h => by
    obtain rfl : jsonStart text = b := by injection h
    exact Nat.le_refl _
  | n + 1, b, h => by
    cases hn : jsonBuildAfter text n with
    | running b₀ =>
      obtain ⟨z, hz, _⟩ : Walked text (.running b₀) := hn ▸ walked_after text n
      have hlt := jsonBuildStep_shorter hz (jsonBuildAfter_succ hn ▸ h)
      have hle := length_left_after hn
      omega
    | accepted b₀ =>
      rw [jsonBuildAfter_of_le (Nat.le_succ n) (by simp [hn]), hn] at h
      exact absurd h (by simp)
    | rejected b₀ =>
      rw [jsonBuildAfter_of_le (Nat.le_succ n) (by simp [hn]), hn] at h
      exact absurd h (by simp)

theorem jsonBuild_halts (text : Text) (b : Builder) : jsonBuild text ≠ .running b := by
  intro h
  have hle := length_left_after h
  omega

/-- A run that has returned after any number of iterations has returned what `jsonBuild` has. -/
theorem jsonBuild_eq {text : Text} {n : Nat} (h : ∀ b, jsonBuildAfter text n ≠ .running b) :
    jsonBuild text = jsonBuildAfter text n := by
  rcases Nat.le_total n (text.length + 1) with hn | hn
  · exact jsonBuildAfter_of_le hn h
  · exact (jsonBuildAfter_of_le hn (jsonBuild_halts text)).symm

/-! ## `json_parse` as a relation -/

/-- The heap can follow any walk. -/
theorem Cursor.Walk.after {text : Text} {x : Cursor × Text}
    (hw : Cursor.Walk Cursor.Any (Cursor.start, text) x) :
    ∃ n b, jsonBuildAfter text n = .running b ∧ Represents b.heap b.node x.1 ∧ b.left = x.2 := by
  induction hw with
  | refl => exact ⟨0, jsonStart text, rfl, represents_start text, rfl⟩
  | @tail x y _ hstep ih =>
    obtain ⟨n, b, hb, hz, hleft⟩ := ih
    obtain ⟨content, c, ⟨s, hscan, hs, rfl, hrest⟩, _, hm⟩ := hstep
    rw [← hleft] at hscan hs
    have href := step_refines hz hscan hs
    rw [hm] at href
    cases hb' : jsonBuildStep b with
    | running b' =>
      rw [hb'] at href
      exact ⟨n + 1, b', (jsonBuildAfter_succ hb).trans hb', href.1, href.2.trans hrest⟩
    | accepted b' => rw [hb'] at href; exact href.elim
    | rejected b' => rw [hb'] at href; exact href.elim

/-- **`json_parse` returns a tree exactly if the cursor accepts with it.** -/
theorem jsonParse_eq_some_iff {text : Text} {tree : JsonTree} :
    jsonParse text = some tree ↔ Cursor.Accepts Cursor.Any Cursor.start text tree := by
  constructor
  · intro h
    rw [jsonParse] at h
    cases hb : jsonBuild text with
    | accepted b =>
      obtain ⟨z, x, content, c, rest, hz, hw, hr, hm⟩ : Walked text (.accepted b) :=
        hb ▸ walked_after text _
      simp only [hb, Option.some.injEq, hz.readBack_eq] at h
      exact hw.accepts (h ▸ .done hr trivial hm)
    | running b => rw [hb] at h; exact absurd h (by simp)
    | rejected b => rw [hb] at h; exact absurd h (by simp)
  · intro h
    obtain ⟨x, content, c, rest, z, hw, ⟨s, hscan, hs, rfl, _⟩, hm, rfl⟩ := h.exists_walk
    obtain ⟨n, b, hb, hz, hleft⟩ := hw.after
    rw [← hleft] at hscan hs
    have href := step_refines hz hscan hs
    rw [hm] at href
    cases hb' : jsonBuildStep b with
    | accepted b' =>
      rw [hb'] at href
      have hacc : jsonBuildAfter text (n + 1) = .accepted b' := (jsonBuildAfter_succ hb).trans hb'
      rw [jsonParse, jsonBuild_eq (n := n + 1) (by simp [hacc]), hacc]
      exact congrArg some (Represents.readBack_eq href)
    | running b' => rw [hb'] at href; exact href.elim
    | rejected b' => rw [hb'] at href; exact href.elim

/-- Whatever else is known of the iterations. -/
theorem Cursor.Accepts.jsonParse_eq {ok : Cursor → Text → Char → Prop} {text : Text}
    {tree : JsonTree} (h : Cursor.Accepts ok Cursor.start text tree) :
    jsonParse text = some tree :=
  jsonParse_eq_some_iff.mpr (h.mono fun _ _ _ _ => trivial)

end Json
end TsnController

import TsnController.Json.Completeness

/-!
# What clean iterations accept

The converse of completeness. While the builder runs, the text behind it is an unfinished value:
`Ctx` says which frames stand for which tokens, `At` adds the current node, and an iteration that is
`Clean` turns one such state into the next (`At.step`). Closing a bracket is where a value appears:
`Ctx.up` collects the elements of the group from the frames passed on the way up.

Without `Clean` there is no such correspondence. A group opened on a node that already is one takes
the place of its elements, and the tokens of the first group are then in no frame; that is the
whole difference between what `json_parse` accepts and the language.
-/

set_option autoImplicit false

namespace TsnController
namespace Json

open CLib Lib

namespace Cursor

/-- The frames, with the tokens they were built from. -/
inductive Ctx : List (Frame JsonData) → List Text → Prop
  | root : Ctx [] []
  | first {c : List (Frame JsonData)} {toks : List Text} (k : Kind) (name : Option Quoted) :
      Ctx c toks → Fits c name →
      Ctx (.left ⟨k.type, name.map Quoted.content, none⟩ .nil :: c)
        (toks ++ labelTokens name ++ [[k.opening]])
  | next {c : List (Frame JsonData)} {toks : List Text} (e : Entry) :
      Ctx c toks → parentOf c ≠ none → Fits c e.name →
      Ctx (.right e.node.1 e.node.2 :: c) (toks ++ e.tokens ++ [[',']])

/-- The cursor: in front of an element, behind a name, or behind a closed group. -/
inductive At : Cursor → List Text → Prop
  | blank {c : List (Frame JsonData)} {toks : List Text} : Ctx c toks → At (fresh c none) toks
  | named {c : List (Frame JsonData)} {toks : List Text} (q : Quoted) : Ctx c toks →
      Fits c (some q) → At (fresh c (some q.content)) (toks ++ labelTokens (some q))
  | closed {c : List (Frame JsonData)} {toks : List Text} {k : Kind} {es : List Entry}
      (e : Entry) : Ctx c toks → Fits c e.name → IsGroup k es e.value →
      At ⟨c, e.node.1, e.node.2⟩ (toks ++ e.tokens)

theorem intercalate_concat {α : Type} (sep : List α) (xs : List (List α)) (x : List α) :
    List.intercalate sep (xs ++ [x]) = xs.flatMap (· ++ sep) ++ x := by
  induction xs with
  | nil => simp
  | cons y ys ih =>
    cases ys with
    | nil => simp [List.intercalate_cons_cons]
    | cons z zs =>
      rw [List.cons_append, List.cons_append, List.intercalate_cons_cons, ← List.cons_append, ih]
      simp

/-- **Up the frames of a group**: they hold its elements, and its opening bracket is the last thing
the frames above it have seen. -/
theorem Ctx.up {k : Kind} : ∀ {c : List (Frame JsonData)} {toks : List Text}, Ctx c toks →
    (parentOf c).map (·.type) = some k.type → ∀ {t : List Entry} {c' : List (Frame JsonData)}
    {a : JsonData} {l : JsonTree}, Lib.up c (chain (t.map Entry.node)) = some (c', a, l) →
    ∃ es name toks', Ctx c' toks' ∧ Fits c' name ∧ a = ⟨k.type, name.map Quoted.content, none⟩ ∧
      l = chain ((es ++ t).map Entry.node) ∧
      (∀ e ∈ es, (e.name.isSome = true ↔ k = .object)) ∧
      toks = toks' ++ labelTokens name ++ [[k.opening]] ++ es.flatMap (·.tokens ++ [[',']]) := by
  intro c toks h
  induction h with
  | root => exact fun _ _ _ _ _ hup => absurd hup (by simp [Lib.up])
  | @first c toks k' name hc hfit _ =>
    intro hp t c' a l hup
    have hk : k' = k := by
      cases k <;> cases k' <;> simp_all [parentOf, Kind.type]
    subst hk
    simp only [Lib.up, Option.some.injEq, Prod.mk.injEq] at hup
    obtain ⟨rfl, rfl, rfl⟩ := hup
    exact ⟨[], name, toks, hc, hfit, rfl, rfl, by simp, by simp⟩
  | @next c toks e _ _ hfit ih =>
    intro hp t c' a l hup
    have hk : e.name.isSome = true ↔ k = .object := by
      refine Iff.trans hfit ?_
      rw [show (parentOf c).map (·.type) = some k.type from hp]
      cases k <;> simp [Kind.type]
    obtain ⟨es, name, toks', hc', hfit', ha, hl, hes, htoks⟩ := ih hp (t := e :: t) hup
    refine ⟨es ++ [e], name, toks', hc', hfit', ha, by simpa using hl, ?_, ?_⟩
    · intro e' he'
      rcases List.mem_append.mp he' with h | h
      · exact hes e' h
      · rw [List.mem_singleton.mp h]
        exact hk
    · rw [htoks]
      simp

/-- The root has no siblings. -/
theorem Ctx.eq_root {c : List (Frame JsonData)} {toks : List Text} (h : Ctx c toks)
    (hp : parentOf c = none) : c = [] ∧ toks = [] := by
  cases h with
  | root => exact ⟨rfl, rfl⟩
  | first k name _ _ => exact absurd hp (by simp [parentOf])
  | next e _ hne _ => exact absurd hp hne

section Iteration

variable {z z' : Cursor} {toks : List Text} {t content rest : Text} {ch : Char}

theorem fits_of_not_nameless {c : List (Frame JsonData)} (hn : ¬ (fresh c none).Nameless) :
    Fits c (none : Option Quoted) := by
  simp only [Fits, Option.isSome_none, Bool.false_eq_true, false_iff]
  exact fun hobj => hn ⟨hobj, rfl⟩

/-- A settled node is an element, and the content wrote what was missing of it. -/
theorem At.settle (h : At z toks) (hr : Reads t content ch rest) (hn : ¬ z.Nameless)
    (hs : z.settle content = some z') :
    ∃ (e : Entry) (toks₀ toks₁ : List Text), Ctx z.frames toks₀ ∧ Fits z.frames e.name ∧
      z' = ⟨z.frames, e.node.1, e.node.2⟩ ∧ toks ++ toks₁ = toks₀ ++ e.tokens ∧
      Padded toks₁ content := by
  rcases settle_cases hs with ⟨he, hne, type, ht, rfl⟩ | ⟨hne, rfl, rfl⟩
  · obtain ⟨s, hp, rfl, hcopy⟩ := hr.exists_scalar hne ht
    cases h with
    | blank hc =>
      exact ⟨⟨none, .scalar s⟩, toks, s.tokens, hc, fits_of_not_nameless hn, by rw [hcopy]; rfl,
        rfl, hp⟩
    | named q hc hfit =>
      exact ⟨⟨some q, .scalar s⟩, _, s.tokens, hc, hfit, by rw [hcopy]; rfl,
        by simp [Entry.tokens, Value.tokens], hp⟩
    | closed e hc hfit hg => exact absurd he (hg.type_ne_empty)
  · cases h with
    | blank hc => exact absurd rfl hne
    | named q hc hfit => exact absurd rfl hne
    | closed e hc hfit hg => exact ⟨e, _, [], hc, hfit, rfl, by simp, .nil blank_nil⟩

/-- The group whose last element `e` is. -/
theorem Ctx.close {k : Kind} {c c' : List (Frame JsonData)} {a : JsonData} {l : JsonTree}
    (h : Ctx c toks) {e : Entry} (hfit : Fits c e.name)
    (hp : (parentOf c).map (·.type) = some k.type)
    (hup : Lib.up c (chain [e.node]) = some (c', a, l)) :
    At ⟨c', a, l⟩ (toks ++ e.tokens ++ [[k.closing]]) := by
  obtain ⟨es, name, toks', hc', hfit', rfl, rfl, hes, rfl⟩ := h.up hp (t := [e]) hup
  have hall : ∀ e' ∈ es ++ [e], (e'.name.isSome = true ↔ k = .object) := by
    intro e' he'
    rcases List.mem_append.mp he' with h | h
    · exact hes e' h
    · rw [List.mem_singleton.mp h]
      refine Iff.trans hfit ?_
      rw [hp]
      cases k <;> simp [Kind.type]
  obtain ⟨v, hv⟩ := exists_group k (es ++ [e]) hall
  have htoks : toks' ++ labelTokens name ++ [[k.opening]] ++ es.flatMap (·.tokens ++ [[',']]) ++
      e.tokens ++ [[k.closing]] = toks' ++ (⟨name, v⟩ : Entry).tokens := by
    change _ = toks' ++ (labelTokens name ++ v.tokens)
    rw [hv.tokens, List.map_append, List.map_cons, List.map_nil, intercalate_concat,
      List.flatMap_map]
    simp
  have hchildren : v.children = chain ((es ++ [e]).map Entry.node) := by
    rw [hv.children]
    cases es <;> rfl
  rw [htoks]
  have hclosed := At.closed ⟨name, v⟩ hc' hfit' hv
  rw [Entry.node, hv.data, hchildren] at hclosed
  exact hclosed

/-- A bracket right behind its opening one. -/
theorem Ctx.closeEmpty {k : Kind} {c : List (Frame JsonData)} (h : Ctx c toks)
    (hp : (parentOf c).map (·.type) = some k.type) (hfirst : isFirst c = true)
    (hup : Lib.up c (.node {} .nil .nil) = some (z'.frames, z'.data, z'.left)) :
    At z' (toks ++ [[k.closing]]) := by
  cases h with
  | root => exact absurd hfirst (by simp [isFirst])
  | next e _ _ _ => exact absurd hfirst (by simp [isFirst])
  | @first c toks k' name hc hfit =>
    have hk : k' = k := by
      cases k <;> cases k' <;> simp_all [parentOf, Kind.type]
    subst hk
    obtain ⟨frames, data, left⟩ := z'
    simp only [Lib.up, Option.some.injEq, Prod.mk.injEq] at hup
    obtain ⟨rfl, rfl, rfl⟩ := hup
    obtain ⟨v, hv⟩ := exists_group k' [] (by simp)
    have htoks : toks ++ labelTokens name ++ [[k'.opening]] ++ [[k'.closing]] =
        toks ++ (⟨name, v⟩ : Entry).tokens := by
      change _ = toks ++ (labelTokens name ++ v.tokens)
      simp [hv.tokens]
    rw [htoks]
    have hclosed := At.closed ⟨name, v⟩ hc hfit hv
    rw [Entry.node, hv.data, hv.children] at hclosed
    exact hclosed

/-- A used node of a correct state is a closed group. -/
theorem At.not_nameless (h : At z toks) (hn : ¬ (z.data.type = .empty ∧ z.Nameless)) :
    ¬ z.Nameless := by
  cases h with
  | blank hc => exact fun h => hn ⟨rfl, h⟩
  | named q hc hfit => exact fun h => hn ⟨rfl, h⟩
  | closed e hc hfit hg => exact hfit.node.not_nameless

/-- One clean iteration, up to the white space: the content and then its entity. -/
theorem At.next (h : At z toks) (hr : Reads t content ch rest) (hclean : z.Clean content ch)
    (hm : z.Next content ch z') :
    ∃ toks', Padded toks' content ∧ At z' (toks ++ toks' ++ [[ch]]) := by
  cases hm with
  | opening k hn =>
    have he : z.data.type = .empty := hclean.1 (by cases k <;> simp [Kind.opening])
    refine ⟨[], .nil blank_nil, ?_⟩
    rw [List.append_nil]
    cases h with
    | blank hc =>
      have hblank := At.blank (hc.first k none (fits_of_not_nameless hn))
      rw [labelTokens, List.append_nil] at hblank
      exact hblank
    | named q hc hfit => exact At.blank (hc.first k (some q) hfit)
    | closed e hc hfit hg => exact absurd he (hg.type_ne_empty)
  | colon hobj hname hhead =>
    obtain ⟨q, hp, hcopy⟩ := hr.exists_quoted hhead
    refine ⟨q.tokens, hp, ?_⟩
    rw [hcopy]
    cases h with
    | blank hc =>
      have hnamed := At.named q hc (iff_of_true rfl hobj)
      rw [labelTokens, ← List.append_assoc] at hnamed
      exact hnamed
    | named q' hc hfit => exact absurd hname (by simp [fresh])
    | closed e hc hfit hg =>
      exact absurd (hfit.node.mpr hobj) (by simp [show e.node.1.name = none from hname])
  | comma hp hn hs =>
    obtain ⟨e, toks₀, toks₁, hc, hfit, rfl, htoks, hpad⟩ := h.settle hr hn hs
    refine ⟨toks₁, hpad, ?_⟩
    rw [htoks]
    exact At.blank (hc.next e (by simpa [parentType] using hp) hfit)
  | closeEmpty k hp he hfirst hup =>
    have hname := hclean.2 (by cases k <;> simp [Kind.closing]) he rfl
    refine ⟨[], .nil blank_nil, ?_⟩
    rw [List.append_nil]
    cases h with
    | blank hc => exact hc.closeEmpty hp hfirst hup
    | named q hc hfit => exact absurd hname (by simp [fresh])
    | closed e hc hfit hg => exact absurd he (hg.type_ne_empty)
  | closing k hp hn hs hup =>
    obtain ⟨e, toks₀, toks₁, hc, hfit, rfl, htoks, hpad⟩ := h.settle hr (h.not_nameless hn) hs
    refine ⟨toks₁, hpad, ?_⟩
    rw [htoks]
    exact hc.close hfit hp hup

/-- **One clean iteration**: the cursor moves on by the tokens that were read. -/
theorem At.step (h : At z toks) (hr : Reads t content ch rest) (hclean : z.Clean content ch)
    (hm : z.step content ch = .next z') :
    ∃ toks' u, At z' (toks ++ toks') ∧ t = u ++ rest ∧ Padded toks' u := by
  have hch : ch ≠ '\x00' := by
    rintro rfl
    exact z.step_ne_next z' content hm
  obtain ⟨u, rfl, hu⟩ := hr.split hch
  obtain ⟨toks', hp, hat⟩ := h.next hr hclean (step_next hm)
  refine ⟨toks' ++ [[ch]], u ++ [ch], by simpa using hat, by simp, ?_⟩
  exact (hu toks' hp).append (padded_singleton [ch])

theorem At.accept (h : At z toks) (hr : Reads t content ch rest)
    (hm : z.step content ch = .accept z') :
    ∃ v toks', Padded toks' t ∧ toks ++ toks' = Value.tokens v ∧ z'.tree = v.tree := by
  obtain ⟨hch, hs, hp⟩ := step_accept_cases hm
  obtain ⟨pad, pad', token, hb, hb', hstop, rfl, rfl, rfl⟩ := hr.text_eq
  have hend : token = [] := by
    cases token with
    | nil => rfl
    | cons d ds => exact absurd (hstop d (by simp)) (by simpa [deref] using hch)
  subst hend
  rw [parentType, (settle_frame hs).1] at hp
  have hname : ¬ z.Nameless := fun h => absurd (h.1.symm.trans hp) (by simp)
  obtain ⟨e, toks₀, toks₁, hc, hfit, rfl, htoks, hpad⟩ := h.settle hr hname hs
  obtain ⟨hroot, rfl⟩ := hc.eq_root (by simpa using hp)
  have hnone : e.name = none := by
    have := hfit
    rw [hroot] at this
    simpa [Fits, parentOf] using this
  refine ⟨e.value, toks₁, ?_, ?_, ?_⟩
  · simpa using (hpad.blank_append hb).append (.nil hb')
  · rw [htoks, List.nil_append, Entry.tokens, hnone]
    rfl
  · rw [tree, hroot, Entry.node, hnone]
    rfl

end Iteration

/-- **What clean iterations accept is a value**, of which they return the tree. -/
theorem Accepts.exists_value {z : Cursor} {t : Text} {tree : JsonTree}
    (h : Accepts Clean z t tree) :
    ∀ {toks : List Text}, At z toks →
      ∃ v toks', Padded toks' t ∧ toks ++ toks' = Value.tokens v ∧ tree = v.tree := by
  induction h with
  | done hr _ hm => exact fun hat => hat.accept hr hm
  | step hr hclean hm _ ih =>
    intro toks hat
    obtain ⟨toks₁, u, hat', rfl, hu⟩ := hat.step hr hclean hm
    obtain ⟨v, toks₂, hp, htoks, htree⟩ := ih hat'
    exact ⟨v, toks₁ ++ toks₂, hu.append hp, by rw [← htoks, List.append_assoc], htree⟩

theorem writes_of_accepts {t : Text} {tree : JsonTree} (h : Accepts Clean start t tree) :
    ∃ v, Writes v t ∧ tree = v.tree := by
  obtain ⟨v, toks, hp, rfl, htree⟩ := h.exists_value (.blank .root)
  exact ⟨v, hp, htree⟩

end Cursor

end Json
end TsnController

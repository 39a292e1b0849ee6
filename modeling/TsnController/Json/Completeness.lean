import TsnController.Json.Run

/-!
# Every text of the language is accepted

The induction is over the value, and what it proves is not that the builder *has* the value's node
but that it is about to: `Reaches` stops in front of the entity that follows the value, because it
is only that entity's `case` that stores a scalar. What the entity does then is said once for each
of the three there are, a comma, a closing bracket and the end of the text.

All iterations are `Clean`: no value of the language needs one that overwrites a group or drops a
member. The converse is the soundness of the clean iterations.
-/

set_option autoImplicit false

namespace TsnController
namespace Json

open CLib Lib

namespace Cursor

/-- The iterations that lose nothing: a group is only opened on an unused node, and a node that is
still unused at the end of its group is not a member whose value is missing. -/
def Clean (z : Cursor) (content : Text) (c : Char) : Prop :=
  (c = '{' ∨ c = '[' → z.data.type = .empty) ∧
  (c = ']' ∨ c = '}' → z.data.type = .empty → content = [] → z.data.name = none)

theorem clean_of_ne {z : Cursor} {content : Text} {c : Char} (ho : ¬ (c = '{' ∨ c = '['))
    (hc : ¬ (c = ']' ∨ c = '}')) : z.Clean content c :=
  ⟨fun h => absurd h ho, fun h => absurd h hc⟩

/-- A node without anything but its name. -/
def fresh (frames : List (Frame JsonData)) (name : Option Text) : Cursor :=
  ⟨frames, { name := name }, .nil⟩

/-- A node has a name exactly if its parent is an object. -/
def Fits {α : Type} (frames : List (Frame JsonData)) (name : Option α) : Prop :=
  name.isSome = true ↔ (parentOf frames).map (·.type) = some .object

theorem Fits.not_nameless {z : Cursor} (h : Fits z.frames z.data.name) : ¬ z.Nameless := by
  rintro ⟨hobj, hnone⟩
  exact absurd (h.mpr hobj) (by simp [hnone])

theorem Fits.node {c : List (Frame JsonData)} {e : Entry} (h : Fits c e.name) :
    Fits c e.node.1.name := by
  rw [Entry.node, Value.data_name]
  simpa [Fits] using h

/-- From `x` the builder gets to where the scanner stops at `rest`, and the current node is then
settled as `z`. -/
def Reaches (x : Cursor × Text) (rest : Text) (z : Cursor) : Prop :=
  ∃ y content, Walk Clean x y ∧ Reads y.2 content (deref rest) rest.tail ∧
    y.1.settle content = some z

section Entities

variable {x : Cursor × Text} {z : Cursor} {rest : Text}

theorem Reaches.of_walk {y : Cursor × Text} (hw : Walk Clean x y) (h : Reaches y rest z) :
    Reaches x rest z := by
  obtain ⟨y', content, hw', hr, hs⟩ := h
  exact ⟨y', content, hw.trans hw', hr, hs⟩

theorem Reaches.comma (h : Reaches x (',' :: rest) z) (hp : z.parentType ≠ none)
    (hn : Fits z.frames z.data.name) :
    Walk Clean x (fresh (.right z.data z.left :: z.frames) none, rest) := by
  obtain ⟨y, content, hw, hr, hs⟩ := h
  obtain ⟨hframes, hname, _, _⟩ := settle_frame hs
  rw [hframes, hname] at hn
  rw [parentType, hframes, ← parentType] at hp
  exact hw.tail ⟨content, ',', hr, clean_of_ne (by decide) (by decide),
    step_of_next (.comma hp hn.not_nameless hs)⟩

theorem Reaches.close {k : Kind} (h : Reaches x (k.closing :: rest) z)
    (hp : z.parentType = some k.type) (hn : Fits z.frames z.data.name)
    {c : List (Frame JsonData)} {a : JsonData} {l : JsonTree}
    (hup : up z.frames z.node = some (c, a, l)) : Walk Clean x (⟨c, a, l⟩, rest) := by
  obtain ⟨y, content, hw, hr, hs⟩ := h
  obtain ⟨hframes, hname, _, hsome⟩ := settle_frame hs
  rw [hframes, hname] at hn
  rw [parentType, hframes, ← parentType] at hp
  refine hw.tail ⟨content, k.closing, hr, ⟨?_, fun _ he hc => absurd ⟨he, hc⟩ hsome⟩,
    step_of_next (.closing k hp (fun h => hn.not_nameless h.2) hs hup)⟩
  intro h
  cases k <;> exact absurd h (by decide)

theorem Reaches.finish {z₀ : Cursor} {t : Text} (h : Reaches (z₀, t) [] z)
    (hp : z.parentType = none) : Accepts Clean z₀ t z.tree := by
  obtain ⟨y, content, hw, hr, hs⟩ := h
  refine hw.accepts (.done hr (clean_of_ne (by decide) (by decide)) ?_)
  simp only [step, deref, Char.reduceEq, or_self, if_false]
  rw [endOfText, hs]
  simp only [hp, if_true]

end Entities

/-! ## Values -/

/-- What the induction over values carries: wherever a value may stand, the builder reaches its
node. -/
def Reached (v : Value) : Prop :=
  ∀ (c : List (Frame JsonData)) (name : Option Text) (u rest : Text), Fits c name →
    Padded v.tokens u → Stop rest →
    Reaches (fresh c name, u ++ rest) rest ⟨c, v.data name, v.children⟩

theorem reached_scalar (s : Scalar) : Reached (.scalar s) := by
  intro c name u rest _ hu hr
  obtain ⟨content, hreads, hne, htype, hcopy⟩ := reads_scalar hu hr
  refine ⟨_, content, .refl, hreads, ?_⟩
  simp [fresh, settle, hne, htype, hcopy, Value.data, Value.children]

/-- An element, from in front of its name if it has one. -/
theorem reached_entry {e : Entry} (hv : Reached e.value) {c : List (Frame JsonData)}
    (hfit : Fits c e.name) {u rest : Text} (hu : Padded e.tokens u) (hr : Stop rest) :
    Reaches (fresh c none, u ++ rest) rest ⟨c, e.node.1, e.node.2⟩ := by
  obtain ⟨name, v⟩ := e
  cases name with
  | none =>
    refine hv c none u rest ?_ hu hr
    simpa [Fits] using hfit
  | some q =>
    rw [Entry.tokens, labelTokens, List.append_assoc] at hu
    obtain ⟨u₁, u₂, rfl, hq, hu₂⟩ := hu.split_at
    obtain ⟨content, hreads, hhead, hcopy⟩ :=
      reads_quoted hq (stop_cons (c := ':') (t := u₂ ++ rest) rfl)
    have hobj : (parentOf c).map (·.type) = some .object := hfit.mp rfl
    have hvalue := hv c (some q.content) u₂ rest (by simpa [Fits] using hobj) hu₂ hr
    refine Reaches.of_walk (.single ⟨content, ':', ?_, ?_, ?_⟩) hvalue
    · simpa [deref] using hreads
    · exact clean_of_ne (by decide) (by decide)
    · rw [← hcopy]
      exact step_of_next (.colon hobj rfl hhead)

/-- The elements of a group from the first to the closing bracket. The induction is on the
elements still to come; `c` grows by one frame for each that is done. -/
theorem walk_entries {k : Kind} {a : JsonData} {c' : List (Frame JsonData)} {l : JsonTree}
    {rest : Text} : ∀ (e : Entry) (es : List Entry) (c : List (Frame JsonData)) (u : Text),
    (∀ e' ∈ e :: es, Reached e'.value ∧ Fits c e'.name) →
    (parentOf c).map (·.type) = some k.type →
    up c (chain ((e :: es).map Entry.node)) = some (c', a, l) →
    Padded (List.intercalate [[',']] ((e :: es).map Entry.tokens)) u →
    Walk Clean (fresh c none, u ++ k.closing :: rest) (⟨c', a, l⟩, rest)
  | e, [], c, u, hes, hp, hup, hu => by
    obtain ⟨hv, hfit⟩ := hes e (by simp)
    have hstop : Stop (k.closing :: rest) := stop_cons (by cases k <;> rfl)
    have hreach := reached_entry hv hfit (by simpa using hu) hstop
    exact hreach.close hp hfit.node hup
  | e, e' :: es, c, u, hes, hp, hup, hu => by
    obtain ⟨hv, hfit⟩ := hes e (by simp)
    rw [List.map_cons, List.map_cons, List.intercalate_cons_cons, List.append_assoc] at hu
    obtain ⟨u₁, u₂, rfl, hu₁, hu₂⟩ := hu.split_at
    have hreach := reached_entry hv hfit hu₁
      (stop_cons (c := ',') (t := u₂ ++ k.closing :: rest) rfl)
    have hnext := hreach.comma (by simp [parentType, hp]) hfit.node
    simpa using hnext.trans (walk_entries e' es (.right e.node.1 e.node.2 :: c) u₂
      (fun x hx => hes x (by simp [List.mem_cons.mp hx])) hp hup hu₂)

/-- A group, given that its elements are reached. -/
theorem reached_group {k : Kind} {es : List Entry} {v : Value} (hv : IsGroup k es v)
    (hes : ∀ e ∈ es, Reached e.value ∧ (e.name.isSome = true ↔ k = .object)) : Reached v := by
  intro c name u rest hfit hu hr
  rw [hv.tokens] at hu
  obtain ⟨u₁, u₂, rfl, hblank, hu⟩ := @Padded.split_at [] _ _ _ (by simpa using hu)
  obtain ⟨u₃, u₄, rfl, hu₃, hblank'⟩ := hu.split_at
  cases hblank with | nil hb =>
  cases hblank' with | nil hb' =>
  have hkind : k.type = .object ↔ k = .object := by cases k <;> decide
  -- the opening bracket
  have hopen : Walk Clean (fresh c name, u₁ ++ k.opening :: (u₃ ++ k.closing :: (u₄ ++ rest)))
      (fresh (.left ⟨k.type, name, none⟩ .nil :: c) none, u₃ ++ k.closing :: (u₄ ++ rest)) := by
    refine .single ⟨[], k.opening, ?_, ⟨fun _ => rfl, ?_⟩, ?_⟩
    · exact reads_blank hb (stop_cons (by cases k <;> rfl))
    · intro h
      cases k <;> exact absurd h (by decide)
    · exact step_of_next (.opening k hfit.not_nameless)
  -- the elements and the closing bracket
  have hclose : Walk Clean
      (fresh (.left ⟨k.type, name, none⟩ .nil :: c) none, u₃ ++ k.closing :: (u₄ ++ rest))
      (⟨c, ⟨k.type, name, none⟩, groupTree (es.map Entry.node)⟩, u₄ ++ rest) := by
    cases es with
    | nil =>
      cases hu₃ with | nil hb₃ =>
      refine .single ⟨[], k.closing, ?_, ⟨?_, fun _ _ _ => rfl⟩, ?_⟩
      · exact reads_blank hb₃ (stop_cons (by cases k <;> rfl))
      · exact fun _ => rfl
      · exact step_of_next (.closeEmpty k rfl rfl rfl rfl)
    | cons e es =>
      refine walk_entries e es _ u₃ (fun e' he' => ⟨(hes e' he').1, ?_⟩) rfl rfl hu₃
      exact (hes e' he').2.trans (by simpa [parentOf] using hkind.symm)
  -- nothing is left to settle
  refine Reaches.of_walk (by simpa using hopen.trans hclose) ⟨_, [], .refl, reads_blank hb' hr, ?_⟩
  have hne : k.type ≠ .empty := by cases k <;> decide
  simp [settle, hne, hv.data, hv.children]

theorem reached (v : Value) : Reached v := by
  induction v using Value.induct with
  | scalar s => exact reached_scalar s
  | array vs ih =>
    refine reached_group (isGroup_array vs) fun e he => ?_
    obtain ⟨v, hv, rfl⟩ := List.mem_map.mp he
    exact ⟨ih v hv, by simp⟩
  | object ms ih =>
    refine reached_group (isGroup_object ms) fun e he => ?_
    obtain ⟨m, hm, rfl⟩ := List.mem_map.mp he
    exact ⟨ih m hm, by simp⟩

/-- A text that writes a value is accepted, without a loss on the way. -/
theorem accepts_of_writes {v : Value} {t : Text} (h : Writes v t) :
    Accepts Clean start t v.tree := by
  have hfit : Fits (α := Text) [] none := by simp [Fits, parentOf]
  have hreach := reached v [] none t [] hfit h stop_nil
  rw [List.append_nil] at hreach
  exact hreach.finish rfl

end Cursor

/-- **Completeness.** Whatever value a text writes, with whatever white space, is what
`json_parse` returns. -/
theorem jsonParse_of_writes {v : Value} {t : Text} (h : Writes v t) : jsonParse t = some v.tree :=
  (Cursor.accepts_of_writes h).jsonParse_eq

/-- An escape, adjacent strings, an entity inside a string, an empty group and a nested one. -/
theorem jsonParse_of_writes_nested :
    jsonParse " \x7b \"a\\n\" \"[b\" : [ ] , \"c\":[null,-1.5e3]\x7d\n".toList
      = some (Value.object
          [(⟨[.plain 'a' (by decide), .escape .n],
              [[.plain '[' (by decide), .plain 'b' (by decide)]]⟩,
            .array []),
          (⟨[.plain 'c' (by decide)], []⟩,
            .array [.scalar .null, .scalar (.number "-1.5e3".toList (by decide))])]).tree :=
  jsonParse_of_writes (padded_of_spells (by decide +kernel))

end Json
end TsnController

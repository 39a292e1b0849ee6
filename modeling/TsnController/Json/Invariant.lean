import TsnController.Json.Run
import TsnController.Lib.Shape

/-!
# The invariant of `json_build`

What every later walk over the tree relies on and no single `case` establishes. The shape half
(the links form a tree, the current node is last in its chain and so are its ancestors) is
`Focused.treeShaped` and holds in every state, also the one a rejection leaves behind. The other
half, which node may have a child, a value or a name, is `Typed` below: a property of one node and
its parent, carried along every iteration on the cursor.

`Settled` adds what is true of all nodes *but the current one*: an empty node is the only child of
its group. Acceptance needs a typed root as current node, which is how the exception disappears.
-/

set_option autoImplicit false

namespace TsnController
namespace Json

open CLib Lib

/-- What a node may have, by its type and its parent's. -/
structure Typed (par : Option JsonData) (d : JsonData) (hasLeft : Bool) : Prop where
  left : hasLeft = true ↔ d.type.isGroup = true
  value : d.value.isSome = true ↔ d.type.isScalar = true
  named : par.map (·.type) = some .object → d.type ≠ .empty → d.name ≠ none
  nameless : par.map (·.type) ≠ some .object → d.name = none

/-- … and an empty node is the only child of a group. -/
def Settled (par : Option JsonData) (first : Bool) (d : JsonData) (hasLeft hasRight : Bool) :
    Prop :=
  Typed par d hasLeft ∧
  (d.type = .empty → (par.any (·.type.isGroup)) = true ∧ first = true ∧ hasRight = false)

theorem Typed.left_eq_nil {par : Option JsonData} {d : JsonData} {l : JsonTree}
    (h : Typed par d (hasRoot l)) (hd : d.type.isGroup = false) : l = .nil := by
  cases l with
  | nil => rfl
  | node _ _ _ => exact absurd (h.left.mp rfl) (by simp [hd])

/-- A fresh node is typed wherever it stands. -/
theorem typed_fresh (par : Option JsonData) : Typed par {} false where
  left := by decide
  value := by decide
  named := fun _ h => absurd rfl h
  nameless := fun _ => rfl

namespace Cursor

/-- The invariant at the head of the loop. -/
structure Inv (z : Cursor) : Prop where
  frames : EverywhereFrames Settled z.frames
  node : Typed (parentOf z.frames) z.data (hasRoot z.left)
  children : Everywhere Settled (some z.data) true z.left
  /-- a scalar is finished as soon as it is one -/
  open_ : z.data.type.isScalar = false

/-- A finished node: typed, and not empty. -/
structure Done (z : Cursor) : Prop where
  frames : EverywhereFrames Settled z.frames
  node : Typed (parentOf z.frames) z.data (hasRoot z.left)
  children : Everywhere Settled (some z.data) true z.left
  used : z.data.type ≠ .empty

variable {z z' : Cursor} {content : Text}

theorem inv_start : start.Inv := ⟨trivial, typed_fresh _, trivial, rfl⟩

/-- Everything in the tree is settled once its current node is. -/
theorem Done.settled (h : z.Done) (first : Bool) (hasRight : Bool) :
    Settled (parentOf z.frames) first z.data (hasRoot z.left) hasRight :=
  ⟨h.node, fun he => absurd he h.used⟩

theorem Inv.settle (h : z.Inv) (hn : ¬ z.Nameless) (hs : z.settle content = some z') :
    z'.Done := by
  rcases settle_cases hs with ⟨he, _, type, ht, rfl⟩ | ⟨hne, _, rfl⟩
  · have hscalar := scalarType_isScalar ht
    obtain ⟨hgroup, hne⟩ := JsonType.not_group_of_isScalar hscalar
    have hleft : z.left = .nil := h.node.left_eq_nil (by rw [he]; rfl)
    refine ⟨h.frames, ?_, by rw [hleft]; trivial, hne⟩
    refine ⟨by simp [hleft, hasRoot, hgroup], by simp [hscalar], fun hp _ => ?_, h.node.nameless⟩
    exact fun hname => hn ⟨hp, hname⟩
  · exact ⟨h.frames, h.node, h.children, hne⟩

/-- Closing a chain of settled nodes hands the group back as the current node. -/
theorem inv_up : ∀ {c c' : List (Frame JsonData)} {t l : JsonTree} {a : JsonData},
    EverywhereFrames Settled c → hasRoot t = true →
    Everywhere Settled (parentOf c) (isFirst c) t → up c t = some (c', a, l) →
    Inv ⟨c', a, l⟩
  | [], _, _, _, _, _, _, _, h => absurd h (by simp [up])
  | .left b r :: c, c', t, l, a, ⟨hb, _, hc⟩, hroot, ht, h => by
    simp only [up, Option.some.injEq, Prod.mk.injEq] at h
    obtain ⟨rfl, rfl, rfl⟩ := h
    have hgroup : b.type.isGroup = true := hb.1.left.mp rfl
    refine ⟨hc, hroot ▸ hb.1, ht, ?_⟩
    cases htype : b.type <;> simp_all [JsonType.isGroup, JsonType.isScalar]
  | .right b l₀ :: c, _, t, _, _, ⟨hb, hl, hc⟩, hroot, ht, h =>
    inv_up (t := .node b l₀ t) hc rfl ⟨hroot ▸ hb, hl, ht⟩ h

theorem isScalar_kind (k : Kind) : k.type.isScalar = false := by cases k <;> rfl

theorem isGroup_kind (k : Kind) : k.type.isGroup = true := by cases k <;> rfl

/-- **One iteration keeps the invariant.** -/
theorem Inv.next {c : Char} (h : z.Inv) (hm : z.Next content c z') : z'.Inv := by
  cases hm with
  | opening k hn =>
    have hvalue : z.data.value = none := by simpa [h.open_] using h.node.value
    have hne : k.type ≠ .empty := by cases k <;> decide
    refine ⟨⟨⟨⟨by simp [isGroup_kind], by simp [hvalue, isScalar_kind], ?_, h.node.nameless⟩,
      fun he => absurd he hne⟩, trivial, h.frames⟩, typed_fresh _, trivial, rfl⟩
    exact fun hp _ hname => hn ⟨hp, hname⟩
  | colon hp hname _ =>
    refine ⟨h.frames, ⟨h.node.left, h.node.value, fun _ _ => by simp, fun hq => absurd hp hq⟩,
      ?_, h.open_⟩
    -- A node that has no name yet is still empty, so it has no children to look at.
    have he : z.data.type = .empty := by_contra fun hne => h.node.named hp hne hname
    rw [show z.left = .nil from h.node.left_eq_nil (by rw [he]; rfl)]
    trivial
  | comma _ hn hs =>
    have hd := h.settle hn hs
    exact ⟨⟨hd.settled _ _, hd.children, hd.frames⟩, typed_fresh _, trivial, rfl⟩
  | closeEmpty k hp _ hfirst hup =>
    refine inv_up (t := z.node) h.frames rfl
      ⟨⟨h.node, fun _ => ⟨?_, hfirst, rfl⟩⟩, h.children, trivial⟩ hup
    obtain ⟨g, hg, htype⟩ := Option.map_eq_some_iff.mp hp
    rw [hg, Option.any_some, htype, isGroup_kind]
  | @closing k _ y _ hp hn hs hup =>
    have hname : ¬ z.Nameless := fun hl => hn ⟨by_contra fun hne => h.node.named hl.1 hne hl.2, hl⟩
    have hd := h.settle hname hs
    exact inv_up (t := y.node) hd.frames rfl ⟨hd.settled _ _, hd.children, trivial⟩ hup

theorem Inv.accept {c : Char} (h : z.Inv) (hm : z.step content c = .accept z') : z'.Done := by
  obtain ⟨_, hs, hp⟩ := step_accept_cases hm
  refine h.settle ?_ hs
  rintro ⟨hobj, _⟩
  rw [parentType, (settle_frame hs).1, ← parentType, hobj] at hp
  exact absurd hp (by simp)

theorem inv_of_walk {text : Text} {x : Cursor × Text} (hw : Walk Any (start, text) x) :
    x.1.Inv := by
  induction hw with
  | refl => exact inv_start
  | tail _ hstep ih =>
    obtain ⟨content, c, _, _, hm⟩ := hstep
    exact ih.next (step_next hm)

end Cursor

/-! ## On the cells -/

/-- What a cell may have, by its type and its parent's. -/
structure CellInv (h : Heap JsonCell) (a : JsonCell) : Prop where
  left : a.left.isSome = true ↔ a.type = .object ∨ a.type = .array
  value : a.value.isSome = true ↔
    a.type = .string ∨ a.type = .number ∨ a.type = .boolean ∨ a.type = .null
  named : ∀ c, a.parent.bind h.read = some c → c.type = .object → a.type ≠ .empty → a.name ≠ none
  nameless : ∀ c, a.parent.bind h.read = some c → c.type = .array → a.name = none
  root : a.parent = none → a.name = none

/-- The cell at `p` is the only child of a group. -/
def SoleChild (h : Heap JsonCell) (p : Ptr) (a : JsonCell) : Prop :=
  a.right = none ∧ ∃ c, a.parent.bind h.read = some c ∧ (c.type = .object ∨ c.type = .array) ∧
    c.left = some p

/-- Every cell reachable from the root. -/
def Reachable (h : Heap JsonCell) (p : Ptr) (a : JsonCell) : Prop :=
  h.read p = some a ∧ ∃ ds, follow h (some 0) ds = some p

/-- The invariant of `json_build`, at the head of its loop and at its exits. -/
def BuilderInv : Build → Prop
  | .running b => TreeShaped b.heap 0 b.node ∧ ∀ p a, Reachable b.heap p a → CellInv b.heap a
  | .accepted b => TreeShaped b.heap 0 b.node ∧ ∀ p a, Reachable b.heap p a →
      CellInv b.heap a ∧ (a.type = .empty → SoleChild b.heap p a)
  | .rejected b => TreeShaped b.heap 0 b.node

theorem Represents.treeShaped {h : Heap JsonCell} {p : Ptr} {z : Cursor} (hz : Represents h p z) :
    TreeShaped h 0 p := by
  obtain ⟨c, a, l, hr⟩ := hz
  exact hr.focused.treeShaped hr.spine hr.root

/-- A property of the cursor's tree, at a reachable cell. -/
theorem Represents.everywhere {h : Heap JsonCell} {p q : Ptr} {z : Cursor} {a : JsonCell}
    {R : Option JsonData → Bool → JsonData → Bool → Bool → Prop} (hz : Represents h p z)
    (hR : Everywhere R none false z.tree) (ha : Reachable h q a) :
    ∃ first, R ((a.parent.bind h.read).map (·.toJsonData)) first a.toJsonData a.left.isSome
        a.right.isSome ∧
      (first = true → ∀ c, a.parent.bind h.read = some c → c.left = some q) := by
  obtain ⟨c, a₀, l, hr⟩ := hz
  obtain ⟨hread, ds, hds⟩ := ha
  have htree : (plug c (.node (p, a₀) l .nil)).map dataOf = z.tree := by
    rw [plug_map, hr.frames, Cursor.tree]
    simp [BinaryTree.map, Cursor.node, hr.left, dataOf, hr.data]
  rw [← htree] at hR
  rw [← hr.root] at hds
  obtain ⟨a', first, ha', hP, hfirst⟩ := Stored.everywhere (o := none) (f := (·.toJsonData)) ds
    hr.focused.stored (by simp) hR hds
  obtain rfl : a = a' := Option.some.inj (hread.symm.trans ha')
  exact ⟨first, hP, hfirst⟩

theorem Typed.cellInv {h : Heap JsonCell} {a : JsonCell}
    (ht : Typed ((a.parent.bind h.read).map (·.toJsonData)) a.toJsonData a.left.isSome) :
    CellInv h a where
  left := by
    rw [ht.left]
    cases a.type <;> simp [JsonType.isGroup]
  value := by
    rw [ht.value]
    cases a.type <;> simp [JsonType.isScalar]
  named c hc hobj := ht.named (by simp [hc, hobj])
  nameless c hc harr := ht.nameless (by simp [hc, harr])
  root hp := ht.nameless (by simp [hp])


theorem Cursor.Inv.everywhere {z : Cursor} (hz : z.Inv) :
    Everywhere (fun par _ d hasLeft _ => Typed par d hasLeft) none false z.tree := by
  have hmono : ∀ par first d l r, Settled par first d l r → Typed par d l := fun _ _ _ _ _ h => h.1
  refine (everywhere_plug z.frames rfl).mpr ⟨hz.frames.mono hmono, hz.node, ?_, trivial⟩
  exact hz.children.mono hmono

theorem Cursor.Done.everywhere {z : Cursor} (hz : z.Done) : Everywhere Settled none false z.tree :=
  (everywhere_plug z.frames rfl).mpr ⟨hz.frames, hz.settled _ _, hz.children, trivial⟩

/-- What is returned has the invariant in the tree it is read as. -/
theorem jsonParse_settled {text : Text} {tree : JsonTree} (h : jsonParse text = some tree) :
    Everywhere Settled none false tree := by
  obtain ⟨x, content, c, rest, z, hwalk, _, hm, rfl⟩ := (jsonParse_eq_some_iff.mp h).exists_walk
  exact ((Cursor.inv_of_walk hwalk).accept hm).everywhere

/-- **The builder's invariant holds after every iteration**, whatever the text. -/
theorem builderInv_reachable (text : Text) (n : Nat) : BuilderInv (jsonBuildAfter text n) := by
  have hw := walked_after text n
  generalize jsonBuildAfter text n = r at hw
  cases r with
  | running b =>
    obtain ⟨z, hz, hwalk⟩ := hw
    refine ⟨hz.treeShaped, fun p a ha => ?_⟩
    obtain ⟨_, ht, _⟩ := hz.everywhere (Cursor.inv_of_walk hwalk).everywhere ha
    exact ht.cellInv
  | accepted b =>
    obtain ⟨z, x, content, c, rest, hz, hwalk, _, hm⟩ := hw
    have hdone : z.Done := (Cursor.inv_of_walk hwalk).accept hm
    refine ⟨hz.treeShaped, fun p a ha => ?_⟩
    obtain ⟨first, ⟨ht, hsole⟩, hfirst⟩ := hz.everywhere hdone.everywhere ha
    refine ⟨ht.cellInv, fun he => ?_⟩
    obtain ⟨hpar, hf, hright⟩ := hsole he
    refine ⟨by simpa using hright, ?_⟩
    cases hc : a.parent.bind b.heap.read with
    | none => simp [hc] at hpar
    | some g =>
      refine ⟨g, rfl, ?_, hfirst hf g hc⟩
      simp only [hc, Option.map_some, Option.any_some] at hpar
      cases htype : g.type <;> simp_all [JsonType.isGroup]
  | rejected b =>
    obtain ⟨z, hz⟩ := hw
    exact hz.treeShaped

end Json
end TsnController

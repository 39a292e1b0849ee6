import Mathlib.Data.List.Chain
import TsnController.Json.Free
import TsnController.Json.Overwrite
import TsnController.Lib.Census

/-!
# `json.c`: memory that is not given back

`json_parse` hands a tree to its caller, who frees it, or frees it itself when the text is rejected.
Either way `json_free` starts at the root, and gives back what it reaches from there. What
`json_build` has allocated and no longer reaches is lost.

There is one place where that happens. An opening bracket hangs a new child in the place of the
children the node has, and nothing checks that it has none. So memory is lost exactly if a group is
opened directly behind one that was closed, as in `[1][2]`, and this can be read off the entities
that were processed: also for a rejected text, and at any point of the run.

Both sides are counted. A cell is allocated for every opening bracket and every comma that is
accepted; the tree gets a node for each of them as well, and loses what hung below the node when a
bracket is opened.
-/

set_option autoImplicit false

namespace TsnController
namespace Json

open CLib Lib

/-! ## What an iteration allocates -/

/-- The cells an entity that is accepted has allocated. -/
def allocated (c : Char) : Nat := if c = '{' ∨ c = '[' ∨ c = ',' then 1 else 0

/-- The cells these entities have allocated together. -/
def allocations (done : List (Bool × Char)) : Nat := done.foldr (fun e n => allocated e.2 + n) 0

theorem allocations_concat (done : List (Bool × Char)) (e : Bool × Char) :
    allocations (done ++ [e]) = allocations done + allocated e.2 := by
  induction done with
  | nil => exact Nat.add_comm _ 0
  | cons x done ih =>
    show allocated x.2 + allocations (done ++ [e]) = allocated x.2 + allocations done + _
    rw [ih, Nat.add_assoc]

/-- An iteration from `b` that has allocated `k` cells if it went on, and none if it did not. -/
def Allocates (b : Builder) (k : Nat) : Build → Prop
  | .running b' => b'.heap.next = b.heap.next + k ∧ (b.heap.Full → b'.heap.Full)
  | .accepted b' => b'.heap.next = b.heap.next ∧ (b.heap.Full → b'.heap.Full)
  | .rejected b' => b'.heap.next = b.heap.next ∧ (b.heap.Full → b'.heap.Full)

section Step

variable (b : Builder) (node : JsonCell) (parent : Option JsonCell) (s : Scan)

theorem allocates_rejected (k : Nat) : Allocates b k (.rejected b) := ⟨rfl, id⟩

theorem allocates_openGroup : Allocates b 1 (openGroup b node parent s) := by
  unfold openGroup
  split
  · exact allocates_rejected b 1
  · split
    · exact allocates_rejected b 1
    · exact ⟨rfl, fun hfull => (hfull.alloc _).write _ _⟩

theorem allocates_nameNode : Allocates b 0 (nameNode b node parent s) := by
  unfold nameNode
  split
  · exact allocates_rejected b 0
  · cases jsonSetName node s.left s.right with
    | none => exact allocates_rejected b 0
    | some node' => exact ⟨rfl, fun hfull => hfull.write _ _⟩

theorem allocates_pushSibling : Allocates b 1 (pushSibling b s node) :=
  ⟨rfl, fun hfull => (hfull.alloc _).write _ _⟩

theorem allocates_nextSibling : Allocates b 1 (nextSibling b node parent s) := by
  unfold nextSibling
  split
  · exact allocates_rejected b 1
  · split
    · split
      · exact allocates_rejected b 1
      · cases jsonSetValue node s.left s.right with
        | none => exact allocates_rejected b 1
        | some node' => exact allocates_pushSibling b node' s
    · split
      · exact allocates_rejected b 1
      · exact allocates_pushSibling b node s

theorem allocates_climb {heap : Heap JsonCell} (hnext : heap.next = b.heap.next)
    (hfull : b.heap.Full → heap.Full) (up : Option Ptr) : Allocates b 0 (climb b s heap up) := by
  cases up with
  | none => exact ⟨hnext, hfull⟩
  | some p => exact ⟨hnext, hfull⟩

theorem allocates_closeGroup : Allocates b 0 (closeGroup b node parent s) := by
  unfold closeGroup
  split
  · exact allocates_rejected b 0
  · split
    · split
      · split
        · exact allocates_rejected b 0
        · exact allocates_climb b s rfl id _
      · split
        · exact allocates_rejected b 0
        · cases jsonSetValue node s.left s.right with
          | none => exact allocates_rejected b 0
          | some node' =>
            have hnext : (b.heap.write b.node node').next = b.heap.next := rfl
            exact allocates_climb b s hnext (fun hfull => hfull.write _ _) _
    · split
      · exact allocates_rejected b 0
      · exact allocates_climb b s rfl id _

theorem allocates_finish {heap : Heap JsonCell} (hnext : heap.next = b.heap.next)
    (hfull : b.heap.Full → heap.Full) : Allocates b 0 (finish b heap node) := by
  unfold finish
  split
  · exact ⟨hnext, hfull⟩
  · split
    · exact ⟨hnext, hfull⟩
    · exact ⟨hnext, hfull⟩

theorem allocates_endOfText : Allocates b 0 (endOfText b node s) := by
  unfold endOfText
  split
  · split
    · exact allocates_rejected b 0
    · cases jsonSetValue node s.left s.right with
      | none => exact allocates_rejected b 0
      | some node' => exact allocates_finish b node' rfl fun hfull => hfull.write _ _
  · exact allocates_finish b node rfl id

end Step

theorem allocates_jsonBuildStep {b : Builder} {s : Scan} (hscan : jsonScan b.left = some s) :
    Allocates b (allocated (deref s.token)) (jsonBuildStep b) := by
  unfold jsonBuildStep
  rw [hscan]
  cases b.heap.read b.node with
  | none => exact allocates_rejected b _
  | some node =>
    dsimp only
    split
    · rename_i hc
      have hone : allocated (deref s.token) = 1 :=
        if_pos (hc.imp_right Or.inl)
      rw [hone]
      exact allocates_openGroup b node _ s
    · rename_i hopen
      rw [not_or] at hopen
      split
      · rename_i hc
        rw [hc]
        exact allocates_nameNode b node _ s
      · split
        · rename_i hc
          rw [hc]
          exact allocates_nextSibling b node _ s
        · rename_i hcomma
          have hzero : allocated (deref s.token) = 0 :=
            if_neg (not_or.mpr ⟨hopen.1, not_or.mpr ⟨hopen.2, hcomma⟩⟩)
          rw [hzero]
          split
          · exact allocates_closeGroup b node _ s
          · exact allocates_endOfText b node s

/-! ## What an iteration does to the tree -/

namespace Cursor

variable {z z' : Cursor} {content : Text} {c : Char}

/-- A bracket that opens a group replaces what hangs below the node. -/
def replaced (z : Cursor) (c : Char) : Nat := if c = '{' ∨ c = '[' then z.left.numNodes else 0

theorem numNodes_settle (h : z.settle content = some z') :
    z'.tree.numNodes = z.tree.numNodes := by
  rcases settle_cases h with ⟨_, _, type, _, rfl⟩ | ⟨_, _, rfl⟩
  · have hplug := numNodes_plug z.frames
      (.node { z.data with type := type, value := some (jsonCopy content content.length) } z.left
        .nil)
      z.node
    simp only [Cursor.node, BinaryTree.numNodes] at hplug
    exact Nat.add_right_cancel hplug
  · rfl

/-- Going up to the parent leaves the tree as it is. -/
theorem tree_of_up (hspine : Spine z.frames)
    (hup : up z.frames z.node = some (z'.frames, z'.data, z'.left)) : z'.tree = z.tree :=
  (hspine.up_eq hup).2.2.symm

theorem Next.numNodes (hspine : Spine z.frames) (h : z.Next content c z') :
    z'.tree.numNodes + z.replaced c = z.tree.numNodes + allocated c := by
  cases h with
  | opening k _ =>
    have hplug := numNodes_plug z.frames
      (.node { z.data with type := k.type } (.node {} .nil .nil) .nil) z.node
    have hreplaced : z.replaced k.opening = z.left.numNodes := by cases k <;> rfl
    have hone : allocated k.opening = 1 := by cases k <;> rfl
    simp only [Cursor.node, BinaryTree.numNodes] at hplug
    rw [hreplaced, hone]
    simp only [Cursor.tree, Cursor.node, plug]
    omega
  | colon _ _ _ =>
    have hplug := numNodes_plug z.frames
      (.node { z.data with name := some (jsonCopy content content.length) } z.left .nil) z.node
    simp only [Cursor.node, BinaryTree.numNodes] at hplug
    exact Nat.add_right_cancel hplug
  | @comma _ y _ _ hs =>
    have hplug := numNodes_plug y.frames (.node y.data y.left (.node {} .nil .nil)) y.node
    have hsettle := numNodes_settle hs
    simp only [Cursor.node, BinaryTree.numNodes] at hplug
    simp only [Cursor.tree, Cursor.node, plug] at hsettle ⊢
    show _ + 0 = _ + 1
    omega
  | closeEmpty k _ _ _ hup =>
    have hzero : z.replaced k.closing = 0 ∧ allocated k.closing = 0 := by
      cases k <;> exact ⟨rfl, rfl⟩
    rw [tree_of_up hspine hup, hzero.1, hzero.2]
  | @closing k _ y _ _ _ hs hup =>
    have hzero : z.replaced k.closing = 0 ∧ allocated k.closing = 0 := by
      cases k <;> exact ⟨rfl, rfl⟩
    have hyspine : Spine y.frames := (settle_frame hs).1 ▸ hspine
    rw [tree_of_up hyspine hup, hzero.1, hzero.2, numNodes_settle hs]

/-- A rejection leaves the tree as it is but for the value of a node. -/
theorem numNodes_reject (h : z.step content c = .reject z') :
    z'.tree.numNodes = z.tree.numNodes := by
  have hself : ∀ {x y : Cursor}, Move.reject x = .reject y → y.tree.numNodes = x.tree.numNodes :=
    fun heq => by rw [Move.reject.inj heq]
  have hclimb : ∀ {x y : Cursor}, x.climb = .reject y → y.tree.numNodes = x.tree.numNodes := by
    intro x y hxy
    unfold climb at hxy
    cases hup : up x.frames x.node with
    | none =>
      rw [hup] at hxy
      exact hself hxy
    | some u =>
      rw [hup] at hxy
      exact absurd hxy (by simp)
  rw [step] at h
  split at h
  · rw [openGroup] at h
    split at h
    · exact hself h
    · exact absurd h (by simp)
  split at h
  · rw [nameNode] at h
    split at h
    · exact absurd h (by simp)
    · exact hself h
  split at h
  · rw [nextSibling] at h
    split at h
    · exact hself h
    cases hs : z.settle content with
    | none =>
      rw [hs] at h
      exact hself h
    | some y =>
      rw [hs] at h
      exact absurd h (by simp)
  split at h
  · rw [closeGroup] at h
    split at h
    · exact hself h
    split at h
    · split at h
      · exact hclimb h
      · exact hself h
    split at h
    · exact hself h
    cases hs : z.settle content with
    | none =>
      rw [hs] at h
      exact hself h
    | some y =>
      rw [hs] at h
      exact (hclimb h).trans (numNodes_settle hs)
  · rw [endOfText] at h
    cases hs : z.settle content with
    | none =>
      rw [hs] at h
      exact hself h
    | some y =>
      rw [hs] at h
      dsimp only at h
      split at h
      · exact absurd h (by simp)
      · exact (hself h).trans (numNodes_settle hs)

/-- Something hangs below the current node exactly if a group has just been closed. -/
theorem Next.hasRoot_iff (hinv : z.Inv) (h : z.Next content c z') :
    hasRoot z'.left = true ↔ c = ']' ∨ c = '}' := by
  cases h with
  | opening k _ =>
    refine iff_of_false (by simp [hasRoot]) ?_
    cases k <;> decide
  | colon hp hname _ =>
    have he : z.data.type = .empty := by_contra fun hne => hinv.node.named hp hne hname
    have hleft : z.left = .nil := hinv.node.left_eq_nil (by rw [he]; rfl)
    refine iff_of_false ?_ (by decide)
    rw [hleft]
    exact Bool.false_ne_true
  | comma _ _ _ => exact iff_of_false (by simp [hasRoot]) (by decide)
  | @closeEmpty k _ _ _ _ hup =>
    refine iff_of_true (hasRoot_up (t := z.node) rfl hup) ?_
    cases k <;> decide
  | @closing k _ y _ _ _ _ hup =>
    refine iff_of_true (hasRoot_up (t := y.node) rfl hup) ?_
    cases k <;> decide

theorem numNodes_eq_zero_iff (t : JsonTree) : t.numNodes = 0 ↔ ¬ hasRoot t = true := by
  cases t with
  | nil => exact iff_of_true rfl (by simp [hasRoot])
  | node d l r => exact iff_of_false (by simp) (by simp [hasRoot])

end Cursor

/-! ## The account -/

/-- A group is opened directly behind one that was closed. -/
def Reopens (x y : Bool × Char) : Prop :=
  y.1 = true ∧ (x.2 = ']' ∨ x.2 = '}') ∧ (y.2 = '{' ∨ y.2 = '[')

instance (x y : Bool × Char) : Decidable (Reopens x y) := inferInstanceAs (Decidable (_ ∧ _))

/-- What has been allocated and what the tree has of it, when these entities have been processed. -/
structure Account (done : List (Bool × Char)) (heap : Heap JsonCell) (nodes : Nat) : Prop where
  full : heap.Full
  next : heap.next = 1 + allocations done
  lost : nodes = heap.next ↔ done.IsChain fun x y => ¬ Reopens x y

/-- The builder at the head of its loop, when it has processed these entities. -/
structure Processed (text : Text) (done : List (Bool × Char)) (b : Builder) (z : Cursor) :
    Prop where
  represents : Represents b.heap b.node z
  inv : z.Inv
  entities : ∀ m, entities (done.length + m) text = done ++ Json.entities m b.left
  last : hasRoot z.left = true ↔ ∃ e ∈ done.getLast?, e.2 = ']' ∨ e.2 = '}'
  account : Account done b.heap z.tree.numNodes

theorem processed_start (text : Text) : Processed text [] (jsonStart text) Cursor.start where
  represents := represents_start text
  inv := Cursor.inv_start
  entities m := by rw [List.length_nil, Nat.zero_add, List.nil_append]; rfl
  last := iff_of_false (by simp [Cursor.start, hasRoot]) (by simp)
  account := ⟨Heap.full_empty.alloc _, rfl, iff_of_true rfl .nil⟩

theorem Represents.numNodes_le {h : Heap JsonCell} {p : Ptr} {z : Cursor} (hz : Represents h p z) :
    z.tree.numNodes ≤ h.next := by
  obtain ⟨c, a, l, hr⟩ := hz
  rw [← hr.tree_eq, numNodes_map]
  exact hr.focused.stored.numNodes_le hr.focused.nodup

theorem Represents.spine {h : Heap JsonCell} {p : Ptr} {z : Cursor} (hz : Represents h p z) :
    Spine z.frames := by
  obtain ⟨c, a, l, hr⟩ := hz
  exact hr.frames ▸ hr.spine.map dataOf

/-- One more entity, and what it has replaced. -/
theorem Account.push {done : List (Bool × Char)} {heap heap' : Heap JsonCell} {nodes nodes' : Nat}
    (h : Account done heap nodes) (hle : nodes ≤ heap.next) {e : Bool × Char} {replaced : Nat}
    (hfull : heap.Full → heap'.Full) (hnext : heap'.next = heap.next + allocated e.2)
    (hnodes : nodes' + replaced = nodes + allocated e.2)
    (hreplaced : replaced = 0 ↔ ∀ x ∈ done.getLast?, ¬ Reopens x e) :
    Account (done ++ [e]) heap' nodes' := by
  refine ⟨hfull h.full, ?_, ?_⟩
  · rw [hnext, h.next, allocations_concat, Nat.add_assoc]
  · have hlost : nodes' = heap'.next ↔ nodes = heap.next ∧ replaced = 0 := by
      rw [hnext]
      omega
    rw [hlost, h.lost, hreplaced, List.isChain_append]
    refine and_congr_right fun _ => ?_
    simp

theorem Processed.step {text : Text} {done : List (Bool × Char)} {b b' : Builder} {z : Cursor}
    (h : Processed text done b z) (hb : jsonBuildStep b = .running b') :
    ∃ e z', Processed text (done ++ [e]) b' z' := by
  cases hscan : jsonScan b.left with
  | none =>
    rw [step_of_scan_none hscan] at hb
    exact absurd hb (by simp)
  | some s =>
    obtain ⟨content, hs⟩ := jsonScan_spec hscan
    have hreads := Reads.of_scan hscan hs
    have href := step_refines h.represents hscan hs
    have halloc := allocates_jsonBuildStep hscan
    cases hm : z.step content (deref s.token) with
    | accept z' =>
      rw [hb, hm] at href
      exact href.elim
    | reject z' =>
      rw [hb, hm] at href
      exact href.elim
    | next z' =>
      rw [hb, hm] at href
      rw [hb] at halloc
      have hnext := Cursor.step_next hm
      have hne : deref s.token ≠ '\x00' := by
        intro heq
        rw [heq] at hm
        exact z.step_ne_next z' content hm
      refine ⟨(decide (content = []), deref s.token), z', href.1, h.inv.next hnext, ?_, ?_, ?_⟩
      · intro m
        rw [List.length_append, List.length_singleton, Nat.add_assoc, Nat.add_comm 1 m,
          h.entities, (hreads.entities_step hne m).1, href.2, List.append_assoc]
        rfl
      · rw [hnext.hasRoot_iff h.inv, List.getLast?_concat]
        simp
      · refine h.account.push h.represents.numNodes_le halloc.2 halloc.1
          (hnext.numNodes h.represents.spine) ?_
        unfold Cursor.replaced
        split
        · rename_i hopen
          rw [Cursor.numNodes_eq_zero_iff, h.last]
          have hbare : content = [] := hnext.content_of_opening hopen
          constructor
          · intro hnone x hx hreopens
            exact hnone ⟨x, hx, hreopens.2.1⟩
          · rintro hchain ⟨x, hx, hclosed⟩
            exact hchain x hx ⟨decide_eq_true hbare, hclosed, hopen⟩
        · rename_i hopen
          exact iff_of_true rfl fun x _ hreopens => hopen hreopens.2.2

theorem processed_after {text : Text} : ∀ {n : Nat} {b : Builder},
    jsonBuildAfter text n = .running b → ∃ done z, done.length = n ∧ Processed text done b z
  | 0, b, h => by
    obtain rfl : jsonStart text = b := by injection h
    exact ⟨[], Cursor.start, rfl, processed_start text⟩
  | n + 1, b, h => by
    cases hn : jsonBuildAfter text n with
    | running b₀ =>
      obtain ⟨done, z, hlength, hz⟩ := processed_after hn
      obtain ⟨e, z', hz'⟩ := hz.step ((jsonBuildAfter_succ hn).symm.trans h)
      exact ⟨done ++ [e], z', by rw [List.length_append, hlength]; rfl, hz'⟩
    | accepted b₀ =>
      rw [jsonBuildAfter_of_le (Nat.le_succ n) (by simp [hn]), hn] at h
      exact absurd h (by simp)
    | rejected b₀ =>
      rw [jsonBuildAfter_of_le (Nat.le_succ n) (by simp [hn]), hn] at h
      exact absurd h (by simp)

/-! ## At any point of the run -/

/-- How many of the first iterations have gone on. -/
def wentOn (text : Text) : Nat → Nat
  | 0 => 0
  | n + 1 =>
    match jsonBuildAfter text (n + 1) with
    | .running _ => n + 1
    | _ => wentOn text n

/-- The entities that have been processed after some iterations. -/
def processed (text : Text) (n : Nat) : List (Bool × Char) :=
  (entities (text.length + 1) text).take (wentOn text n)

theorem processed_of_running {text : Text} {n : Nat} {b : Builder}
    (h : jsonBuildAfter text n = .running b) :
    ∃ z, Processed text (processed text n) b z := by
  obtain ⟨done, z, hlength, hz⟩ := processed_after h
  have hwent : wentOn text n = n := by
    cases n with
    | zero => rfl
    | succ n =>
      unfold wentOn
      rw [h]
  have hle := length_left_after h
  have hdone : processed text n = done := by
    obtain ⟨m, hm⟩ := Nat.exists_eq_add_of_le (Nat.le_trans (Nat.le_add_left n _) hle)
    have hentities := hz.entities (m + 1)
    rw [hlength, ← Nat.add_assoc, ← hm] at hentities
    rw [processed, hwent, hentities, List.take_left' hlength]
  exact ⟨z, hdone ▸ hz⟩

/-- The last iteration, which did not go on. -/
theorem Processed.stop {text : Text} {done : List (Bool × Char)} {b : Builder} {z : Cursor}
    (h : Processed text done b z) (hb : ∀ b', jsonBuildStep b ≠ .running b') :
    ∃ z', Represents (jsonBuildStep b).state.heap (jsonBuildStep b).state.node z' ∧
      Account done (jsonBuildStep b).state.heap z'.tree.numNodes := by
  cases hscan : jsonScan b.left with
  | none =>
    rw [step_of_scan_none hscan]
    exact ⟨z, h.represents, h.account⟩
  | some s =>
    obtain ⟨content, hs⟩ := jsonScan_spec hscan
    have href := step_refines h.represents hscan hs
    have halloc := allocates_jsonBuildStep hscan
    have hkept : ∀ {heap : Heap JsonCell} {nodes : Nat}, heap.next = b.heap.next →
        (b.heap.Full → heap.Full) → nodes = z.tree.numNodes → Account done heap nodes := by
      intro heap nodes hnext hfull hnodes
      refine ⟨hfull h.account.full, hnext.trans h.account.next, ?_⟩
      rw [hnodes, hnext, h.account.lost]
    cases hstep : jsonBuildStep b with
    | running b' => exact absurd hstep (hb b')
    | accepted b' =>
      rw [hstep] at href halloc
      cases hm : z.step content (deref s.token) with
      | accept z' =>
        rw [hm] at href
        have hsettle := (Cursor.step_accept_cases hm).2.1
        exact ⟨z', href, hkept halloc.1 halloc.2 (Cursor.numNodes_settle hsettle)⟩
      | next z' => rw [hm] at href; exact href.elim
      | reject z' => rw [hm] at href; exact href.elim
    | rejected b' =>
      rw [hstep] at href halloc
      cases hm : z.step content (deref s.token) with
      | reject z' =>
        rw [hm] at href
        exact ⟨z', href, hkept halloc.1 halloc.2 (Cursor.numNodes_reject hm)⟩
      | next z' => rw [hm] at href; exact href.elim
      | accept z' => rw [hm] at href; exact href.elim

theorem account_after (text : Text) : ∀ n, ∃ z,
    Represents (jsonBuildAfter text n).state.heap (jsonBuildAfter text n).state.node z ∧
      Account (processed text n) (jsonBuildAfter text n).state.heap z.tree.numNodes := by
  intro n
  induction n with
  | zero =>
    have hstart : jsonBuildAfter text 0 = .running (jsonStart text) := rfl
    obtain ⟨z, hz⟩ := processed_of_running hstart
    exact ⟨z, hz.represents, hz.account⟩
  | succ n ih =>
    by_cases hrun : ∃ b, jsonBuildAfter text (n + 1) = .running b
    · obtain ⟨b, hb⟩ := hrun
      obtain ⟨z, hz⟩ := processed_of_running hb
      rw [hb]
      exact ⟨z, hz.represents, hz.account⟩
    · have hsame : processed text (n + 1) = processed text n := by
        unfold processed
        rw [wentOn]
        cases h : jsonBuildAfter text (n + 1) with
        | running b => exact absurd ⟨b, h⟩ hrun
        | accepted b => rfl
        | rejected b => rfl
      rw [hsame]
      cases hn : jsonBuildAfter text n with
      | running b =>
        obtain ⟨z, hz⟩ := processed_of_running hn
        rw [jsonBuildAfter_succ hn] at hrun ⊢
        exact hz.stop fun b' hb' => hrun ⟨b', hb'⟩
      | accepted b => rwa [jsonBuildAfter_of_le (Nat.le_succ n) (by simp [hn])]
      | rejected b => rwa [jsonBuildAfter_of_le (Nat.le_succ n) (by simp [hn])]

/-- `json_free` on the heap of a builder: it comes to its end, and how much it leaves is a matter of
numbers. -/
theorem Represents.jsonFree {h : Heap JsonCell} {p : Ptr} {z : Cursor} (hz : Represents h p z)
    (hfull : h.Full) : ∃ steps heap freed,
      jsonFreeStep^[steps] (.running h 0 []) = .done heap freed ∧
      (∀ m, jsonFreeStep^[m] (.running h 0 []) ≠ .fault) ∧ freed.Nodup ∧
      ((∀ q, heap.read q = none) ↔ z.tree.numNodes = h.next) := by
  obtain ⟨c, a, l, hr⟩ := hz
  have hperm := sweepOrder_perm (plug c (.node (p, a) l .nil))
  obtain ⟨heap', hfreed, steps, hrun⟩ := sweep cuts_clearLeft [] hr.focused.stored hr.focused.nodup
  rw [hr.root] at hrun
  rw [jsonFreeStep_eq]
  refine ⟨steps, heap', _, hrun, ?_, hperm.nodup_iff.mpr hr.focused.nodup, ?_⟩
  · exact Leads.ne_fault ⟨steps, hrun⟩ rfl (by simp [Sweep.goto])
  · rw [hfreed.empty_iff hfull hr.focused.stored hr.focused.nodup, ← hr.tree_eq, numNodes_map]

/-- **What is lost.** At any point of the run, also when the text has been rejected, one cell has
been allocated for the root and one for every opening bracket and every comma that was processed.
From the root `json_free` then comes to its end, without a fault and freeing no node twice; and it
leaves nothing of the heap exactly if no group was opened directly behind one that was closed. -/
theorem jsonFree_empties_iff (text : Text) (n : Nat) :
    (jsonBuildAfter text n).state.heap.next = 1 + allocations (processed text n) ∧
    ∃ steps heap freed,
      jsonFreeStep^[steps] (.running (jsonBuildAfter text n).state.heap 0 []) = .done heap freed ∧
      (∀ m, jsonFreeStep^[m] (.running (jsonBuildAfter text n).state.heap 0 []) ≠ .fault) ∧
      freed.Nodup ∧
      ((∀ p, heap.read p = none) ↔ (processed text n).IsChain fun x y => ¬ Reopens x y) := by
  obtain ⟨z, hz, haccount⟩ := account_after text n
  obtain ⟨steps, heap, freed, hrun, hfault, hnodup, hempty⟩ := hz.jsonFree haccount.full
  exact ⟨haccount.next, steps, heap, freed, hrun, hfault, hnodup, hempty.trans haccount.lost⟩

/-- The forgotten comma of `[1][2]` costs a node. -/
example : ¬ (processed "[1][2]".toList 7).IsChain fun x y => ¬ Reopens x y := by decide +kernel

end Json
end TsnController

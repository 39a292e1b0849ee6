import TsnController.Json.Leak
import TsnController.Lib.Refusals

/-!
# `json.c` when memory runs out

Every `calloc` and `malloc` of `json_parse` may be refused. The functions below are those of
`Json.Build` with the branches for that: the builder as it is, with a number for every request it
makes. A refusal is noticed at once, but not before the node has been touched: the type of a group
is stored before its first child is asked for, the type of a value before the copy of its text, and
the links that were to be set are `NULL`.

`jsonParse_scarce` says that nothing comes of it. The first refusal ends the run with `NULL`, and
`json_free` then runs on the tree as the refusal left it, as on any other.
-/

set_option autoImplicit false

namespace TsnController
namespace Json
namespace Scarce

open CLib Lib

/-! ## The functions -/

section Functions

variable (grants : Nat → Bool)

/-- `json_copy`. -/
def jsonCopy (str : Text) (size k : Nat) : Served (Option Text) :=
  ⟨if grants k = true then some (Json.jsonCopy str size) else none, k + 1⟩

/-- `json_set_name`: what the node is then, and what is returned. -/
def jsonSetName (node : JsonCell) (left right : Text) (k : Nat) : Served (JsonCell × Option Text) :=
  if deref left ≠ '"' ∨ deref right ≠ '"' then ⟨(node, none), k⟩
  else
    let name := jsonCopy grants left (spanSize left right) k
    ⟨({ node with name := name.state }, name.state), name.asked⟩

def jsonSetValue (node : JsonCell) (left right : Text) (k : Nat) :
    Served (JsonCell × Option Text) :=
  match valueType left right with
  | none => ⟨(node, none), k⟩
  | some type =>
    let value := jsonCopy grants left (spanSize left right) k
    ⟨({ node with type := type, value := value.state }, value.state), value.asked⟩

/-- `return NULL`, with the current node as it is by then. -/
def reject (b : Builder) (node : JsonCell) : Build :=
  .rejected { b with heap := b.heap.write b.node node }

/-- `if (… == NULL) return NULL`, and what follows. -/
def ifSet (b : Builder) (set : Served (JsonCell × Option Text))
    (next : JsonCell → Nat → Served Build) : Served Build :=
  if set.state.2 = none then ⟨reject b set.state.1, set.asked⟩ else next set.state.1 set.asked

variable (b : Builder) (node : JsonCell) (parent : Option JsonCell) (s : Scan) (k : Nat)

def openGroup : Served Build :=
  if ¬ s.bare then ⟨.rejected b, k⟩
  else if parentIs parent .object ∧ node.name = none then ⟨.rejected b, k⟩
  else if grants k = true then
    let node' := { node with type := jsonToken (deref s.token), left := some b.heap.next }
    ⟨.running ⟨(b.heap.alloc { parent := some b.node }).write b.node node', b.heap.next,
      s.token.tail⟩, k + 1⟩
  else ⟨reject b { node with type := jsonToken (deref s.token), left := none }, k + 1⟩

def nameNode : Served Build :=
  if ¬ parentIs parent .object ∨ node.name ≠ none then ⟨.rejected b, k⟩
  else
    ifSet b (jsonSetName grants node s.left s.right k) fun node' k =>
      ⟨.running ⟨b.heap.write b.node node', b.node, s.token.tail⟩, k⟩

def pushSibling (node' : JsonCell) : Served Build :=
  if grants k = true then
    ⟨.running ⟨(b.heap.alloc { parent := node'.parent }).write b.node
      { node' with right := some b.heap.next }, b.heap.next, s.token.tail⟩, k + 1⟩
  else ⟨reject b { node' with right := none }, k + 1⟩

def nextSibling : Served Build :=
  if parent = none ∨ (parentIs parent .object ∧ node.name = none) then ⟨.rejected b, k⟩
  else if node.type = .empty then
    if s.bare then ⟨.rejected b, k⟩
    else
      ifSet b (jsonSetValue grants node s.left s.right k) fun node' k =>
        pushSibling grants b s k node'
  else if ¬ s.bare then ⟨.rejected b, k⟩
  else pushSibling grants b s k node

def closeGroup : Served Build :=
  if ¬ parentIs parent (jsonToken (deref s.token)) then ⟨.rejected b, k⟩
  else if node.type = .empty then
    if s.bare then
      if parent.bind (·.left) ≠ some b.node then ⟨.rejected b, k⟩
      else ⟨climb b s b.heap node.parent, k⟩
    else if parentIs parent .object ∧ node.name = none then ⟨.rejected b, k⟩
    else
      ifSet b (jsonSetValue grants node s.left s.right k) fun node' k =>
        ⟨climb b s (b.heap.write b.node node') node'.parent, k⟩
  else if ¬ s.bare then ⟨.rejected b, k⟩
  else ⟨climb b s b.heap node.parent, k⟩

def endOfText : Served Build :=
  if ¬ s.bare then
    if node.type ≠ .empty then ⟨.rejected b, k⟩
    else
      ifSet b (jsonSetValue grants node s.left s.right k) fun node' k =>
        ⟨finish b (b.heap.write b.node node') node', k⟩
  else ⟨finish b b.heap node, k⟩

/-- The body of the `while`. -/
def jsonBuildStep : Served Build :=
  match b.heap.read b.node, jsonScan b.left with
  | some node, some s =>
    let parent := node.parent.bind b.heap.read
    let c := deref s.token
    if c = '{' ∨ c = '[' then openGroup grants b node parent s k
    else if c = ':' then nameNode grants b node parent s k
    else if c = ',' then nextSibling grants b node parent s k
    else if c = ']' ∨ c = '}' then closeGroup grants b node parent s k
    else endOfText grants b node s k
  | _, _ => ⟨.rejected b, k⟩

def advance : Served Build → Served Build
  | ⟨.running b, k⟩ => jsonBuildStep grants b k
  | done => done

/-- The root was the first request. -/
def jsonBuild (text : Text) : Served Build :=
  (advance grants)^[text.length + 1] ⟨.running (jsonStart text), 1⟩

/-- `json_parse`, up to the call of `json_free`: nothing, if the root is refused. -/
def jsonParse (text : Text) : Option (Served Build) :=
  if grants 0 = true then some (jsonBuild grants text) else none

end Functions

/-! ## An iteration -/

/-- The links of a node are as they were. -/
structure Spared (node cell : JsonCell) : Prop where
  parent : cell.parent = node.parent
  left : cell.left = node.left
  right : node.right = none → cell.right = none

/-- The run has ended in the middle of the changes to a node, but none of its links was lost. -/
def Interrupted (b : Builder) (node : JsonCell) (x : Build) : Prop :=
  ∃ cell, Spared node cell ∧ x = reject b cell

section Steps

variable {grants : Nat → Bool} {b : Builder} {node : JsonCell} {parent : Option JsonCell} {s : Scan}
  {k : Nat}

/-- How `json_set_name` and `json_set_value` can end, where `plain` is what they do if nothing is
refused. -/
inductive Sets (grants : Nat → Bool) (node : JsonCell) (plain : Option JsonCell) (k : Nat) :
    Served (JsonCell × Option Text) → Prop
  | invalid (h : plain = none) : Sets grants node plain k ⟨(node, none), k⟩
  | granted {cell : JsonCell} {text : Text} (h : plain = some cell) (hk : grants k = true)
      (hcell : Spared node cell) : Sets grants node plain k ⟨(cell, some text), k + 1⟩
  | refused {cell : JsonCell} (hk : grants k = false) (hcell : Spared node cell) :
      Sets grants node plain k ⟨(cell, none), k + 1⟩

theorem sets_jsonSetName : Sets grants node (Json.jsonSetName node s.left s.right) k
    (jsonSetName grants node s.left s.right k) := by
  unfold jsonSetName Json.jsonSetName jsonCopy
  split
  · exact .invalid rfl
  · by_cases hk : grants k = true
    · simp only [hk, if_true]
      exact .granted rfl hk ⟨rfl, rfl, id⟩
    · simp only [hk]
      exact .refused (Bool.eq_false_iff.mpr hk) ⟨rfl, rfl, id⟩

theorem sets_jsonSetValue : Sets grants node (Json.jsonSetValue node s.left s.right) k
    (jsonSetValue grants node s.left s.right k) := by
  unfold jsonSetValue Json.jsonSetValue jsonCopy
  cases valueType s.left s.right with
  | none => exact .invalid rfl
  | some type =>
    by_cases hk : grants k = true
    · simp only [hk, if_true]
      exact .granted rfl hk ⟨rfl, rfl, id⟩
    · simp only [hk]
      exact .refused (Bool.eq_false_iff.mpr hk) ⟨rfl, rfl, id⟩

theorem reject_self (hread : b.heap.read b.node = some node) : reject b node = .rejected b := by
  have hheap : b.heap.write b.node node = b.heap := by
    obtain ⟨⟨cell, next, fresh⟩, p, left⟩ := b
    have hcell : (fun q => if q = p then (cell p).map (fun _ => node) else cell q) = cell := by
      funext q
      split
      · rename_i hq
        have hp : cell p = some node := hread
        rw [hq, hp]
        rfl
      · rfl
    simp only [Heap.write, hcell]
  rw [reject, hheap]

/-- A copy is made, and the rest follows if it could be. -/
theorem Sets.outcome {plain : Option JsonCell} {set : Served (JsonCell × Option Text)} {r : Build}
    {next : JsonCell → Nat → Served Build} (hset : Sets grants node plain k set)
    (hread : b.heap.read b.node = some node) (hnone : plain = none → r = .rejected b)
    (hsome : ∀ cell k', plain = some cell → Spared node cell →
      Outcome grants r (Interrupted b node) k' (next cell k')) :
    Outcome grants r (Interrupted b node) k (ifSet b set next) := by
  unfold ifSet
  cases hset with
  | invalid h =>
    rw [if_pos rfl, hnone h, reject_self hread]
    exact .none
  | granted h hk hcell =>
    rw [if_neg (by simp)]
    exact (hsome _ _ h hcell).succ hk
  | refused hk hcell =>
    rw [if_pos rfl]
    exact .of_refusal hk ⟨_, hcell, rfl⟩

theorem outcome_nameNode (hread : b.heap.read b.node = some node) :
    Outcome grants (Json.nameNode b node parent s) (Interrupted b node) k
      (nameNode grants b node parent s k) := by
  unfold nameNode Json.nameNode
  split
  · exact .none
  · refine sets_jsonSetName.outcome hread (fun h => ?_) fun cell k' h _ => ?_
    · rw [h]
    · rw [h]
      exact .none

theorem outcome_pushSibling {node' : JsonCell} (hnode : Spared node node') :
    Outcome grants (Json.pushSibling b s node') (Interrupted b node) k
      (pushSibling grants b s k node') := by
  unfold pushSibling
  by_cases hk : grants k = true
  · rw [if_pos hk]
    exact .of_grant hk
  · rw [if_neg hk]
    exact .of_refusal (Bool.eq_false_iff.mpr hk)
      ⟨{ node' with right := none }, ⟨hnode.parent, hnode.left, fun _ => rfl⟩, rfl⟩

theorem outcome_nextSibling (hread : b.heap.read b.node = some node) :
    Outcome grants (Json.nextSibling b node parent s) (Interrupted b node) k
      (nextSibling grants b node parent s k) := by
  unfold nextSibling Json.nextSibling
  split
  · exact .none
  · split
    · split
      · exact .none
      · refine sets_jsonSetValue.outcome hread (fun h => ?_) fun cell k' h hcell => ?_
        · rw [h]
        · rw [h]
          exact outcome_pushSibling hcell
    · split
      · exact .none
      · exact outcome_pushSibling ⟨rfl, rfl, id⟩

theorem outcome_closeGroup (hread : b.heap.read b.node = some node) :
    Outcome grants (Json.closeGroup b node parent s) (Interrupted b node) k
      (closeGroup grants b node parent s k) := by
  unfold closeGroup Json.closeGroup
  split
  · exact .none
  · split
    · split
      · split
        · exact .none
        · exact .none
      · split
        · exact .none
        · refine sets_jsonSetValue.outcome hread (fun h => ?_) fun cell k' h _ => ?_
          · rw [h]
          · rw [h]
            exact .none
    · split
      · exact .none
      · exact .none

theorem outcome_endOfText (hread : b.heap.read b.node = some node) :
    Outcome grants (Json.endOfText b node s) (Interrupted b node) k
      (endOfText grants b node s k) := by
  unfold endOfText Json.endOfText
  split
  · split
    · exact .none
    · refine sets_jsonSetValue.outcome hread (fun h => ?_) fun cell k' h _ => ?_
      · rw [h]
      · rw [h]
        exact .none
  · exact .none

/-- Where a child is asked for, the node had passed all checks. -/
theorem outcome_openGroup : Outcome grants (Json.openGroup b node parent s)
    (fun x => (∃ b', Json.openGroup b node parent s = .running b') ∧
      x = reject b { node with type := jsonToken (deref s.token), left := none }) k
    (openGroup grants b node parent s k) := by
  unfold openGroup Json.openGroup
  split
  · exact .none
  · split
    · exact .none
    · by_cases hk : grants k = true
      · rw [if_pos hk]
        exact .of_grant hk
      · rw [if_neg hk]
        exact .of_refusal (Bool.eq_false_iff.mpr hk) ⟨⟨_, rfl⟩, rfl⟩

end Steps

/-! ## The run -/

/-- What an iteration from `x` leaves if a request was refused in it. -/
inductive RefusedAt : Build → Build → Prop
  | interrupted {b : Builder} {node : JsonCell} {s : Scan} {x : Build}
      (hread : b.heap.read b.node = some node) (hscan : jsonScan b.left = some s)
      (hx : Interrupted b node x) : RefusedAt (.running b) x
  /-- the first child of a group -/
  | childless {b b' : Builder} {node : JsonCell} {s : Scan}
      (hread : b.heap.read b.node = some node) (hscan : jsonScan b.left = some s)
      (hc : deref s.token = '{' ∨ deref s.token = '[')
      (hstep : Json.jsonBuildStep b = .running b') :
      RefusedAt (.running b)
        (reject b { node with type := jsonToken (deref s.token), left := none })

theorem outcome_jsonBuildStep (grants : Nat → Bool) (b : Builder) (k : Nat) :
    Outcome grants (Json.jsonBuildStep b) (RefusedAt (.running b)) k
      (jsonBuildStep grants b k) := by
  cases hread : b.heap.read b.node with
  | none =>
    simp only [jsonBuildStep, Json.jsonBuildStep, hread]
    exact .none
  | some node =>
    cases hscan : jsonScan b.left with
    | none =>
      simp only [jsonBuildStep, Json.jsonBuildStep, hread, hscan]
      exact .none
    | some s =>
      have hint : ∀ x, Interrupted b node x → RefusedAt (.running b) x :=
        fun x hx => .interrupted hread hscan hx
      by_cases hc : deref s.token = '{' ∨ deref s.token = '['
      · have hplain : Json.jsonBuildStep b =
            Json.openGroup b node (node.parent.bind b.heap.read) s := by
          simp only [Json.jsonBuildStep, hread, hscan, if_pos hc]
        rw [hplain]
        simp only [jsonBuildStep, hread, hscan, if_pos hc]
        refine outcome_openGroup.mono ?_
        rintro x ⟨⟨b', hb'⟩, rfl⟩
        exact .childless hread hscan hc (hplain.trans hb')
      · simp only [jsonBuildStep, Json.jsonBuildStep, hread, hscan, if_neg hc]
        split
        · exact (outcome_nameNode hread).mono hint
        split
        · exact (outcome_nextSibling hread).mono hint
        split
        · exact (outcome_closeGroup hread).mono hint
        · exact (outcome_endOfText hread).mono hint

theorem outcome_jsonBuild (grants : Nat → Bool) (text : Text) :
    Outcome grants (Json.jsonBuild text)
      (fun x => ∃ m < text.length + 1, RefusedAt (jsonBuildAfter text m) x) 1
      (jsonBuild grants text) := by
  have hstep : ∀ s k, Outcome grants (Json.advance s) (RefusedAt s) k (advance grants ⟨s, k⟩) := by
    intro s k
    cases s with
    | running b => exact outcome_jsonBuildStep grants b k
    | accepted b => exact .none
    | rejected b => exact .none
  refine Outcome.iterate hstep ?_ _ 1 _
  intro s x k hx
  cases hx with
  | interrupted _ _ hx =>
    obtain ⟨cell, _, rfl⟩ := hx
    rfl
  | childless _ _ _ _ => rfl

/-! ## What a refusal leaves -/

/-- The links of the current node are as they were, so the tree is, too. -/
theorem represents_interrupted {b : Builder} {z : Cursor} {node cell : JsonCell}
    (hz : Represents b.heap b.node z) (hread : b.heap.read b.node = some node)
    (hcell : Spared node cell) :
    Represents (b.heap.write b.node cell) b.node { z with data := cell.toJsonData } := by
  obtain ⟨c, a, l, hr⟩ := hz
  obtain rfl : a = node := Option.some.inj (hr.focused.read_focus.symm.trans hread)
  have hright : a.right = none := hr.focused.focus.2.2.1
  have heq : cell = { a with toJsonData := cell.toJsonData } := by
    obtain ⟨hparent, hleft, hnone⟩ := hcell
    have hcellright := hnone hright
    cases cell
    cases a
    simp_all
  rw [heq]
  exact ⟨c, _, l, hr.store cell.toJsonData⟩

theorem represents_childless {b : Builder} {z : Cursor} {node : JsonCell} (type : JsonType)
    (hz : Represents b.heap b.node z) (hread : b.heap.read b.node = some node) :
    Represents (b.heap.write b.node { node with type := type, left := none }) b.node
      { z with data := { z.data with type := type }, left := .nil } := by
  obtain ⟨c, a, l, hr⟩ := hz
  obtain rfl : a = node := Option.some.inj (hr.focused.read_focus.symm.trans hread)
  refine ⟨c, { a with type := type, left := none }, .nil, hr.focused.prune rfl rfl rfl, ?_,
    hr.spine, hr.frames, ?_, rfl⟩
  · refine (rootPtr_plug c ?_).trans hr.root
    rfl
  · rw [← hr.data]

theorem numNodes_interrupted (z : Cursor) (d : JsonData) :
    ({ z with data := d } : Cursor).tree.numNodes = z.tree.numNodes := by
  have hplug := numNodes_plug z.frames (.node d z.left .nil) z.node
  exact Nat.add_right_cancel hplug

theorem numNodes_childless (z : Cursor) (d : JsonData) :
    ({ z with data := d, left := .nil } : Cursor).tree.numNodes + z.left.numNodes =
      z.tree.numNodes := by
  have hplug := numNodes_plug z.frames (.node d .nil .nil) z.node
  simp only [Cursor.node, BinaryTree.numNodes] at hplug
  simp only [Cursor.tree, Cursor.node]
  omega

theorem wentOn_le (text : Text) : ∀ n, wentOn text n ≤ n
  | 0 => Nat.le_refl 0
  | n + 1 => by
    unfold wentOn
    split
    · exact Nat.le_refl _
    · exact Nat.le_succ_of_le (wentOn_le text n)

theorem wentOn_mono {text : Text} {m n : Nat} (h : m ≤ n) : wentOn text m ≤ wentOn text n := by
  induction h with
  | refl => exact Nat.le_refl _
  | @step n h ih =>
    rw [wentOn]
    split
    · exact Nat.le_trans (wentOn_le text m) (Nat.le_succ_of_le h)
    · exact ih

/-- What has been processed by some iterations begins what has been by more. -/
theorem isChain_processed {text : Text} {m n : Nat} {R : Bool × Char → Bool × Char → Prop}
    (h : m ≤ n) (hchain : (processed text n).IsChain R) : (processed text m).IsChain R := by
  have htake : processed text m = (processed text n).take (wentOn text m) := by
    rw [processed, processed, List.take_take, Nat.min_eq_left (wentOn_mono h)]
  rw [htake]
  exact hchain.take _

/-- A group that could be opened: one node more, and those less that were there before. -/
theorem numNodes_opened {b b' : Builder} {z z' : Cursor} {s : Scan}
    (hz : Represents b.heap b.node z) (hz' : Represents b'.heap b'.node z')
    (hscan : jsonScan b.left = some s) (hc : deref s.token = '{' ∨ deref s.token = '[')
    (hstep : Json.jsonBuildStep b = .running b') :
    z'.tree.numNodes + z.left.numNodes = z.tree.numNodes + 1 ∧
      b'.heap.next = b.heap.next + 1 := by
  obtain ⟨content, hs⟩ := jsonScan_spec hscan
  have href := step_refines hz hscan hs
  have halloc := allocates_jsonBuildStep hscan
  have hone : allocated (deref s.token) = 1 := if_pos (hc.imp_right Or.inl)
  rw [hstep, hone] at halloc
  rw [hstep] at href
  cases hm : z.step content (deref s.token) with
  | accept y =>
    rw [hm] at href
    exact href.elim
  | reject y =>
    rw [hm] at href
    exact href.elim
  | next y =>
    rw [hm] at href
    have htree : z'.tree = y.tree := hz'.readBack_eq.symm.trans href.1.readBack_eq
    have hnodes := (Cursor.step_next hm).numNodes hz.spine
    rw [hone, Cursor.replaced, if_pos hc] at hnodes
    rw [htree]
    exact ⟨hnodes, halloc.1⟩

/-- A refusal in an iteration from a state of the run: the heap is still one tree, and nothing of
it is out of reach unless a group was opened directly behind one that was closed. -/
theorem RefusedAt.represents {text : Text} {m : Nat} {x : Build}
    (hx : RefusedAt (jsonBuildAfter text m) x) : ∃ b z, x = .rejected b ∧
      Represents b.heap b.node z ∧ b.heap.Full ∧
      ((processed text (m + 1)).IsChain (fun x y => ¬ Reopens x y) →
        z.tree.numNodes = b.heap.next) := by
  generalize hrun : jsonBuildAfter text m = r at hx
  cases hx with
  | @interrupted b node s x hread hscan hx =>
    obtain ⟨z, hz⟩ := processed_of_running hrun
    obtain ⟨cell, hcell, rfl⟩ := hx
    refine ⟨_, _, rfl, represents_interrupted hz.represents hread hcell,
      hz.account.full.write _ _, fun hchain => ?_⟩
    rw [numNodes_interrupted]
    exact hz.account.lost.mpr (isChain_processed (Nat.le_succ m) hchain)
  | @childless b b' node s hread hscan hc hstep =>
    obtain ⟨z, hz⟩ := processed_of_running hrun
    obtain ⟨z₁, hz₁⟩ := processed_of_running ((jsonBuildAfter_succ hrun).trans hstep)
    refine ⟨_, _, rfl, represents_childless _ hz.represents hread, hz.account.full.write _ _,
      fun hchain => ?_⟩
    have hnodes := numNodes_childless z { z.data with type := jsonToken (deref s.token) }
    have hlost := hz₁.account.lost.mpr hchain
    obtain ⟨hopened, hnext⟩ := numNodes_opened hz.represents hz₁.represents hscan hc hstep
    refine Nat.add_right_cancel (hnodes.trans ?_)
    rw [hlost, hnext, Nat.add_right_comm] at hopened
    exact (Nat.add_right_cancel hopened).symm

/-- **A refusal comes to nothing.** Whichever requests are refused, `json_parse` does as if there
were memory for everything, up to the first refusal, and no request follows that one. It ends with
`NULL`, and with a `json_free` that comes to its end, without a fault and freeing no node twice; and
nothing is left of the heap if no group was opened directly behind one that was closed. -/
theorem jsonParse_scarce (grants : Nat → Bool) (text : Text) :
    (jsonParse grants text = none ∧ grants 0 = false) ∨
    ∃ run, jsonParse grants text = some run ∧
      (((∀ i < run.asked, grants i = true) ∧ run.state = Json.jsonBuild text) ∨
       ∃ i b, run.asked = i + 1 ∧ grants i = false ∧ (∀ j < i, grants j = true) ∧
        run.state = .rejected b ∧ ∃ steps heap freed,
          jsonFreeStep^[steps] (.running b.heap 0 []) = .done heap freed ∧
          (∀ m, jsonFreeStep^[m] (.running b.heap 0 []) ≠ .fault) ∧ freed.Nodup ∧
          ((processed text (text.length + 1)).IsChain (fun x y => ¬ Reopens x y) →
            ∀ p, heap.read p = none)) := by
  unfold jsonParse
  by_cases hzero : grants 0 = true
  · right
    rw [if_pos hzero]
    refine ⟨_, rfl, ?_⟩
    have hall : ∀ {k : Nat}, (∀ i, 1 ≤ i → i < k → grants i = true) → ∀ i < k, grants i = true := by
      intro k hk i hi
      cases i with
      | zero => exact hzero
      | succ i => exact hk (i + 1) (Nat.le_add_left 1 i) hi
    have hout := outcome_jsonBuild grants text
    generalize jsonBuild grants text = run at hout
    cases hout with
    | granted hle hgranted => exact .inl ⟨hall hgranted, rfl⟩
    | @refused i x hle hgranted hno hx =>
      obtain ⟨m, hm, hx⟩ := hx
      obtain ⟨b, z, rfl, hz, hfull, hlost⟩ := hx.represents
      obtain ⟨steps, heap, freed, hrun, hfault, hnodup, hempty⟩ := hz.jsonFree hfull
      refine .inr ⟨i, b, rfl, hno, hall hgranted, rfl, steps, heap, freed, hrun, hfault, hnodup, ?_⟩
      exact fun hchain => hempty.mpr (hlost (isChain_processed hm hchain))
  · left
    rw [if_neg hzero]
    exact ⟨rfl, Bool.eq_false_iff.mpr hzero⟩

/-- The root and its child are there, the copy of `1` is refused. -/
example : (jsonBuild (fun i => i != 2) "[1]".toList).asked = 3 := by decide +kernel

end Scarce
end Json
end TsnController

import TsnController.Json.Cells
import TsnController.Lib.Outline
import TsnController.Lib.Readers

/-!
# `json.c`: printing a tree

`json_print` writes a line for every node, with a tabulator for every level and the type, the name
and the value of the node. A name or a value that is `NULL` is printed as `(null)`, which is what
the C library makes of it. `print` goes down to the left and then to the right, on the heap and
without a bound, and indexes a table with the type.

A line does not say where a name ends, and `(null)` may also be a name. Apart from that nothing is
lost: `jsonPrint_reads_back` says that the walk over the heap comes to its end, at any point of the
run of the builder, and that the tree can be read from what is printed if there is no `>` in a name
or a value and none of them is `(null)`.
-/

set_option autoImplicit false

namespace TsnController
namespace Json

open CLib Lib

/-! ## Printing -/

/-- `json_type_name[type]`. The table ends before `JSON_NONE`. -/
def jsonTypeName : JsonType → Option Text
  | .empty => some "Empty".toList
  | .object => some "Object".toList
  | .array => some "Array".toList
  | .string => some "String".toList
  | .number => some "Number".toList
  | .boolean => some "Boolean".toList
  | .null => some "Null".toList
  | .none => none

/-- `%s`. -/
def formatS (s : Option Text) : Text := s.getD "(null)".toList

/-- `printf("(%s) <%s> = <%s>\n", …)`, behind the tabulators. -/
def printLine (level : Nat) (type : Text) (d : JsonData) : Text :=
  List.replicate level '\t' ++ ('(' :: (type ++ (')' :: (" <".toList ++ (formatS d.name ++ ('>' ::
    (" = <".toList ++ (formatS d.value ++ ['>', '\n']))))))))

def printNode (level : Nat) (d : JsonData) : Option Text :=
  (jsonTypeName d.type).map fun type => printLine level type d

/-- `print`. Nothing comes of a pointer that leads nowhere, and of a recursion that is too deep. -/
def Pointer.print (heap : Heap JsonCell) : Nat → Option Ptr → Nat → Option Text
  | _, none, _ => some []
  | 0, some _, _ => none
  | depth + 1, some p, level => do
    let cell ← heap.read p
    let line ← printNode level cell.toJsonData
    let below ← print heap depth cell.left (level + 1)
    let beside ← print heap depth cell.right level
    some (line ++ below ++ beside)

/-- `json_print`, for the root. -/
def Pointer.jsonPrint (heap : Heap JsonCell) (root : Option Ptr) : Option Text :=
  print heap heap.next root 0

/-! ## Reading -/

def readTypeName (w : Text) : Option JsonType :=
  [JsonType.empty, .object, .array, .string, .number, .boolean, .null].find?
    fun type => jsonTypeName type = some w

def readS (w : Text) : Option Text := if w = "(null)".toList then none else some w

/-- A line: the level, the node, and the rest of the text. -/
def readNode (text : Text) : Option ((Nat × JsonData) × Text) := do
  let level := (text.takeWhile (· = '\t')).length
  let rest ← expect ['('] (text.drop level)
  let (name, rest) ← cut ')' rest
  let type ← readTypeName name
  let rest ← expect " <".toList rest
  let (name, rest) ← cut '>' rest
  let rest ← expect " = <".toList rest
  let (value, rest) ← cut '>' rest
  let rest ← expect ['\n'] rest
  some ((level, ⟨type, readS name, readS value⟩), rest)

def readNodes : Nat → Text → Option (List (Nat × JsonData))
  | _, [] => some []
  | 0, _ :: _ => none
  | fuel + 1, c :: cs => do
    let (x, rest) ← readNode (c :: cs)
    let xs ← readNodes fuel rest
    some (x :: xs)

/-- The tree that was printed. -/
def readPrinted (text : Text) : Option JsonTree := do
  let xs ← readNodes text.length text
  let (tree, rest) := assemble xs.length 0 xs
  if rest = [] then some tree else none

/-! ## Reading what was printed -/

theorem readTypeName_of_eq {type : JsonType} {w : Text} (h : jsonTypeName type = some w) :
    readTypeName w = some type ∧ ')' ∉ w := by
  cases type <;> cases h <;> decide

/-- A name or a value that can be told from what is around it. -/
def PlainText (s : Option Text) : Prop := ∀ w ∈ s, '>' ∉ w ∧ w ≠ "(null)".toList

def PlainData (d : JsonData) : Prop := PlainText d.name ∧ PlainText d.value

theorem PlainText.notMem {s : Option Text} (h : PlainText s) : '>' ∉ formatS s := by
  cases s with
  | none => decide
  | some w => exact (h w rfl).1

theorem PlainText.readS_eq {s : Option Text} (h : PlainText s) : readS (formatS s) = s := by
  cases s with
  | none => exact if_pos rfl
  | some w => exact if_neg (h w rfl).2

theorem takeWhile_tabs (level : Nat) (rest : Text) :
    (List.replicate level '\t' ++ '(' :: rest).takeWhile (· = '\t') =
      List.replicate level '\t' := by
  have htab : ∀ c ∈ List.replicate level '\t', decide (c = '\t') = true := fun c hc =>
    decide_eq_true (List.eq_of_mem_replicate hc)
  rw [List.takeWhile_append_of_pos htab, List.takeWhile_cons_of_neg (by decide), List.append_nil]

theorem readNode_printNode {level : Nat} {d : JsonData} {line : Text}
    (hline : printNode level d = some line) (hd : PlainData d) (rest : Text) :
    readNode (line ++ rest) = some ((level, d), rest) := by
  obtain ⟨type, htype, rfl⟩ := Option.map_eq_some_iff.mp hline
  obtain ⟨hread, hparen⟩ := readTypeName_of_eq htype
  simp only [printLine, List.append_assoc, List.cons_append, List.nil_append, readNode]
  rw [takeWhile_tabs, List.length_replicate, List.drop_left' List.length_replicate]
  have hopen : ∀ u : Text, expect ['('] ('(' :: u) = some u := expect_append ['(']
  have hclose : ∀ u : Text, expect ['\n'] ('\n' :: u) = some u := expect_append ['\n']
  simp only [hopen, hclose, cut_append hparen, hread, expect_append,
    cut_append hd.1.notMem, cut_append hd.2.notMem, hd.1.readS_eq, hd.2.readS_eq,
    Option.bind_eq_bind, Option.bind_some]

theorem printNode_ne_nil {level : Nat} {d : JsonData} {line : Text}
    (hline : printNode level d = some line) : line ≠ [] := by
  obtain ⟨type, _, rfl⟩ := Option.map_eq_some_iff.mp hline
  simp [printLine]

/-- What a list of nodes is printed as. -/
def printNodes : List (Nat × JsonData) → Option Text
  | [] => some []
  | x :: xs => do
    let line ← printNode x.1 x.2
    let rest ← printNodes xs
    some (line ++ rest)

theorem printNodes_append : ∀ {xs ys : List (Nat × JsonData)} {u v : Text},
    printNodes xs = some u → printNodes ys = some v → printNodes (xs ++ ys) = some (u ++ v)
  | [], ys, u, v, hxs, hys => by
    obtain rfl := Option.some.inj hxs
    exact hys
  | x :: xs, ys, u, v, hxs, hys => by
    simp only [printNodes, Option.bind_eq_bind, Option.bind_eq_some_iff] at hxs
    obtain ⟨line, hline, rest, hrest, hu⟩ := hxs
    obtain rfl := Option.some.inj hu
    rw [List.cons_append, printNodes, hline, printNodes_append hrest hys, List.append_assoc]
    rfl

theorem readNodes_printNodes : ∀ {xs : List (Nat × JsonData)} {out : Text} {fuel : Nat},
    printNodes xs = some out → (∀ x ∈ xs, PlainData x.2) → out.length ≤ fuel →
    readNodes fuel out = some xs
  | [], out, fuel, hout, _, _ => by
    obtain rfl := Option.some.inj hout
    cases fuel <;> rfl
  | x :: xs, out, fuel, hout, hplain, hfuel => by
    simp only [printNodes, Option.bind_eq_bind, Option.bind_eq_some_iff] at hout
    obtain ⟨line, hline, rest, hrest, hu⟩ := hout
    obtain rfl := Option.some.inj hu
    have hne := printNode_ne_nil hline
    obtain ⟨hx, hxs⟩ := List.forall_mem_cons.mp hplain
    rw [List.length_append] at hfuel
    have hpos : 0 < line.length := List.length_pos_iff.mpr hne
    cases fuel with
    | zero => omega
    | succ fuel =>
      have ih : readNodes fuel rest = some xs := readNodes_printNodes hrest hxs (by omega)
      have hnode := readNode_printNode hline hx rest
      cases hcons : line ++ rest with
      | nil => exact absurd (List.append_eq_nil_iff.mp hcons).1 hne
      | cons c cs =>
        rw [hcons] at hnode
        rw [readNodes, hnode]
        show (readNodes fuel rest).bind _ = _
        rw [ih]
        rfl

theorem readPrinted_printNodes {tree : JsonTree} {out : Text}
    (hout : printNodes (outline 0 tree) = some out)
    (hplain : ∀ x ∈ outline 0 tree, PlainData x.2) : readPrinted out = some tree := by
  have hread := readNodes_printNodes hout hplain (Nat.le_refl _)
  have hassemble : assemble (outline 0 tree).length 0 (outline 0 tree) = (tree, []) := by
    have hbelow : Below 0 ([] : List (Nat × JsonData)) := fun x hx => absurd hx (by simp)
    have hheight : tree.height ≤ (outline 0 tree).length := by
      rw [length_outline]
      exact BinaryTree.height_le_numNodes tree
    simpa using assemble_outline tree hheight hbelow
  rw [readPrinted, hread]
  simp only [Option.bind_eq_bind, Option.bind_some, hassemble, if_true]

/-! ## On the heap -/

theorem printNode_isSome {d : JsonData} (hd : d.type ≠ .none) (level : Nat) :
    ∃ line, printNode level d = some line := by
  unfold printNode
  cases htype : d.type with
  | none => exact absurd htype hd
  | _ => exact ⟨_, rfl⟩

/-- `print` writes the lines of the outline. -/
theorem print_eq {heap : Heap JsonCell} (hcells : Cells Valued heap) :
    ∀ {t : BinaryTree (Ptr × JsonCell)} {par : Option Ptr} {depth : Nat} (level : Nat),
    Stored heap par t → t.height ≤ depth →
    ∃ out, Pointer.print heap depth (rootPtr t) level = some out ∧
      printNodes (outline level (t.map dataOf)) = some out
  | .nil, par, depth, level, _, _ => by
    refine ⟨[], ?_, rfl⟩
    cases depth <;> rfl
  | .node c l r, par, 0, level, _, hdepth => absurd hdepth (Nat.not_succ_le_zero _)
  | .node c l r, par, depth + 1, level, hs, hdepth => by
    obtain ⟨hread, hleft, hright, _, hl, hr⟩ := hs
    have hmax := Nat.max_le.mp (Nat.le_of_succ_le_succ hdepth)
    obtain ⟨line, hline⟩ := printNode_isSome (hcells _ _ hread).type level
    obtain ⟨below, hbelow, hlines⟩ := print_eq hcells (level + 1) hl hmax.1
    obtain ⟨beside, hbeside, hlines'⟩ := print_eq hcells level hr hmax.2
    have hl' : c.2.left = rootPtr l := hleft
    have hr' : c.2.right = rootPtr r := hright
    refine ⟨line ++ (below ++ beside), ?_, ?_⟩
    · rw [rootPtr_node, Pointer.print, hread]
      simp only [Option.bind_eq_bind, Option.bind_some, hline, hl', hr', hbelow, hbeside,
        List.append_assoc]
    · show printNodes ((level, dataOf c) :: (outline (level + 1) (l.map dataOf) ++
        outline level (r.map dataOf))) = _
      rw [printNodes, printNodes_append hlines hlines']
      show (printNode level c.2.toJsonData).bind _ = _
      rw [hline]
      rfl

/-- **`json_print` loses nothing.** At any point of the run of the builder, and in particular when
`json_parse` returns, printing the tree comes to its end without a read that leads nowhere, and the
tree is read back from what was printed if its names and values are plain. -/
theorem jsonPrint_reads_back (text : Text) (n : Nat) :
    ∃ out, Pointer.jsonPrint (jsonBuildAfter text n).state.heap (some 0) = some out ∧
      ((∀ x ∈ outline 0 (readBack (jsonBuildAfter text n).state.heap (some 0)), PlainData x.2) →
        readPrinted out = some (readBack (jsonBuildAfter text n).state.heap (some 0))) := by
  obtain ⟨z, hz⟩ := represents_after text n
  have hcells := valued_after text n
  generalize (jsonBuildAfter text n).state = b at hz hcells ⊢
  rw [hz.readBack_eq]
  obtain ⟨c, a, l, hr⟩ := hz
  have hheight : (plug c (.node (b.node, a) l .nil)).height ≤ b.heap.next :=
    Nat.le_trans (height_le_numNodes _) (hr.focused.stored.numNodes_le hr.focused.nodup)
  obtain ⟨out, hprint, hlines⟩ := print_eq hcells 0 hr.focused.stored hheight
  rw [hr.root] at hprint
  rw [hr.tree_eq] at hlines
  exact ⟨out, hprint, readPrinted_printNodes hlines⟩

end Json
end TsnController

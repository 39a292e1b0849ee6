import TsnController.Client.Emit
import TsnController.Lib.Block

/-!
# `utils.c`: reading a file

`file_data` reads a file into one block together with a text in front of it and a text behind it.
The content goes behind the first text, the second one to the offset `size`, which is where the
content ends only if nothing stands in front of it. With both texts the second is stored over the
end of the content, and as many bytes as the shorter of the two has are never stored at all.

The client asks for neither (`file_read`), and what it parses is then the content of the file
(`clientRun_eq`).
-/

set_option autoImplicit false

namespace TsnController
namespace Client

open CLib Lib Json

/-- A file that could be opened: its content, and how the calls on it turn out. -/
structure File where
  content : Text
  /-- the two calls of `fseek` -/
  seekEnd : Bool
  seekSet : Bool
  /-- `ftell` -/
  tell : Bool
  /-- `malloc`, of the block the file is read to -/
  memory : Bool
  /-- what `fread` returns -/
  delivered : Nat

/-- `none` is `FILE_ERROR`. -/
def fileSize (file : File) : Option Nat :=
  if file.seekEnd = false then none
  else if file.tell = false then none
  else if file.seekSet = false then none
  else some file.content.length

/-- The stores into the block, in order: `fread`, the two `memcpy`s and the terminator. -/
def filePieces (content : Text) (prefixText suffixText : Option Text) : List (Piece Char) :=
  let size := content.length
  let sizePrefix := (prefixText.getD []).length
  let sizeSuffix := (suffixText.getD []).length
  ⟨sizePrefix, content⟩ ::
    ((if 0 < sizePrefix then [⟨0, prefixText.getD []⟩] else [])
    ++ (if 0 < sizeSuffix then [⟨size, suffixText.getD []⟩] else [])
    ++ [⟨size + sizePrefix + sizeSuffix, [nul]⟩])

/-- The number of characters the block is for, without the terminator. -/
def fileTotal (content : Text) (prefixText suffixText : Option Text) : Nat :=
  content.length + (prefixText.getD []).length + (suffixText.getD []).length

/-- The block after all stores. -/
def fileBlock (content : Text) (prefixText suffixText : Option Text) : Block Char :=
  (filePieces content prefixText suffixText).foldl Block.store
    (Block.fresh (fileTotal content prefixText suffixText + 1))

/-- The block `file_data` returns; `file` is `none` if the file cannot be opened. -/
def fileData (file : Option File) (prefixText suffixText : Option Text) : Option (Block Char) :=
  match file with
  | none => none
  | some file =>
    match fileSize file with
    | none => none
    | some size =>
      if file.memory = false then none
      else if file.delivered ≠ size then none
      else some (fileBlock file.content prefixText suffixText)

def fileRead (file : Option File) : Option (Block Char) := fileData file none none

/-! ## Where things are stored -/

/-- The block holds the three texts and the terminator, everything in it has been stored, and
nothing is stored over the content. -/
structure HoldsFile (content : Text) (prefixText suffixText : Option Text) (str : Block Char) :
    Prop where
  bytes : str = (prefixText.getD [] ++ content ++ suffixText.getD [] ++ [nul]).map some
  initialised : none ∉ str
  kept : ∀ p ∈ (filePieces content prefixText suffixText).tail,
    p.Apart (prefixText.getD []).length content.length

section Pieces

variable {content : Text} {prefixText suffixText : Option Text}

/-- What is stored behind the content. -/
theorem mem_tail_filePieces {p : Piece Char}
    (h : p ∈ (filePieces content prefixText suffixText).tail) :
    p = ⟨0, prefixText.getD []⟩ ∨
    (suffixText.getD [] ≠ [] ∧ p = ⟨content.length, suffixText.getD []⟩) ∨
    p = ⟨fileTotal content prefixText suffixText, [nul]⟩ := by
  unfold filePieces at h
  rw [List.tail_cons, List.mem_append, List.mem_append, List.mem_ite_nil_right,
    List.mem_ite_nil_right, List.mem_singleton, List.mem_singleton, List.mem_singleton] at h
  rcases h with (⟨_, hp⟩ | ⟨hpos, hp⟩) | hp
  · exact Or.inl hp
  · exact Or.inr (Or.inl ⟨List.length_pos_iff.mp hpos, hp⟩)
  · exact Or.inr (Or.inr hp)

/-- Whatever else, no store leaves the block. -/
theorem stop_le_of_mem_filePieces {p : Piece Char}
    (h : p ∈ filePieces content prefixText suffixText) :
    p.stop ≤ fileTotal content prefixText suffixText + 1 := by
  unfold Piece.stop fileTotal
  rcases List.mem_cons.mp h with rfl | h
  · simp only; omega
  · rcases mem_tail_filePieces h with rfl | ⟨_, rfl⟩ | rfl
    · simp only; omega
    · simp only; omega
    · simp only [fileTotal, List.length_singleton]; omega

/-- With only one of the two texts the pieces lie side by side. -/
theorem fileBlock_of_one (h : prefixText.getD [] = [] ∨ suffixText.getD [] = []) :
    fileBlock content prefixText suffixText =
      (prefixText.getD [] ++ content ++ suffixText.getD [] ++ [nul]).map some := by
  have hpieces : ∀ b : Block Char, (filePieces content prefixText suffixText).foldl Block.store b =
      (((b.store ⟨(prefixText.getD []).length, content⟩).store ⟨0, prefixText.getD []⟩).store
        ⟨content.length, suffixText.getD []⟩).store
        ⟨fileTotal content prefixText suffixText, [nul]⟩ := by
    intro b
    unfold filePieces
    rw [List.foldl_cons, List.foldl_append, List.foldl_append,
      Block.foldl_store_ite _ ⟨0, prefixText.getD []⟩,
      Block.foldl_store_ite _ ⟨content.length, suffixText.getD []⟩]
    rfl
  unfold fileBlock
  rw [hpieces]
  unfold fileTotal
  generalize prefixText.getD [] = p at h ⊢
  generalize suffixText.getD [] = s at h ⊢
  have hfresh : (Block.fresh (content.length + p.length + s.length + 1) : Block Char) =
      Block.fresh p.length ++ (Block.fresh content.length ++
        (Block.fresh s.length ++ (Block.fresh 1 ++ []))) := by
    rw [Nat.add_comm content.length, Block.fresh_add, Block.fresh_add, Block.fresh_add,
      List.append_nil, List.append_assoc, List.append_assoc]
  have hcontent : Block.store (Block.fresh p.length ++ (Block.fresh content.length ++
      (Block.fresh s.length ++ (Block.fresh 1 ++ [])))) ⟨p.length, content⟩ =
      Block.fresh p.length ++
        (content.map some ++ (Block.fresh s.length ++ (Block.fresh 1 ++ []))) :=
    Block.store_append (Block.length_fresh _) (Block.length_fresh _)
  have hfront : Block.store ([] ++ (Block.fresh p.length ++ (content.map some ++
      (Block.fresh s.length ++ (Block.fresh 1 ++ []))))) ⟨0, p⟩ =
      [] ++ (p.map some ++ (content.map some ++ (Block.fresh s.length ++ (Block.fresh 1 ++ [])))) :=
    Block.store_append rfl (Block.length_fresh _)
  -- Here the offset is right because `p` or `s` is empty.
  have hbehind : Block.store (p.map some ++ (content.map some ++
      (Block.fresh s.length ++ (Block.fresh 1 ++ [])))) ⟨content.length, s⟩ =
      p.map some ++ (content.map some ++ (s.map some ++ (Block.fresh 1 ++ []))) := by
    rcases h with rfl | rfl
    · exact Block.store_append (List.length_map _) (Block.length_fresh _)
    · exact Block.store_nil _ _
  have hend : Block.store ((p ++ content ++ s).map some ++ (Block.fresh 1 ++ []))
      ⟨content.length + p.length + s.length, [nul]⟩ =
      (p ++ content ++ s).map some ++ ([nul].map some ++ []) := by
    apply Block.store_append _ rfl
    rw [List.length_map, List.length_append, List.length_append, Nat.add_comm p.length]
  rw [List.nil_append, List.nil_append] at hfront
  simp only [List.map_append, List.append_assoc] at hend
  rw [hfresh, hcontent, hfront, hbehind, hend]
  simp only [List.map_append, List.append_assoc, List.append_nil]

/-- With both of them the last place in front of the terminator is in none of the pieces. -/
theorem none_mem_fileBlock (hp : prefixText.getD [] ≠ []) (hs : suffixText.getD [] ≠ []) :
    none ∈ fileBlock content prefixText suffixText := by
  have hp' := List.length_pos_iff.mpr hp
  have hs' := List.length_pos_iff.mpr hs
  apply List.mem_of_getElem? (i := fileTotal content prefixText suffixText - 1)
  unfold fileBlock
  rw [Block.getElem?_foldl_store]
  · rw [Block.fresh, List.getElem?_replicate_of_lt (by omega)]
  · intro p hmem
    rw [Block.length_fresh]
    exact stop_le_of_mem_filePieces hmem
  · intro p hmem
    unfold Piece.Apart Piece.stop fileTotal
    rcases List.mem_cons.mp hmem with rfl | hmem
    · simp only; omega
    · rcases mem_tail_filePieces hmem with rfl | ⟨_, rfl⟩ | rfl
      · simp only; omega
      · simp only; omega
      · simp only [fileTotal]; omega

/-- Behind the content nothing is stored over it, unless both texts are there. -/
theorem filePieces_kept (h : prefixText.getD [] = [] ∨ suffixText.getD [] = []) :
    ∀ p ∈ (filePieces content prefixText suffixText).tail,
      p.Apart (prefixText.getD []).length content.length := by
  intro p hmem
  unfold Piece.Apart Piece.stop
  rcases mem_tail_filePieces hmem with rfl | ⟨hne, rfl⟩ | rfl
  · simp only; omega
  · have hp := h.resolve_right hne
    rw [hp, List.length_nil]
    simp only; omega
  · simp only [fileTotal]; omega

end Pieces

theorem fileData_eq_some {file : File} {prefixText suffixText : Option Text} {str : Block Char}
    (h : fileData (some file) prefixText suffixText = some str) :
    str = fileBlock file.content prefixText suffixText := by
  unfold fileData at h
  cases hsize : fileSize file with
  | none =>
    simp only [hsize] at h
    exact absurd h (by simp)
  | some size =>
    simp only [hsize, Option.ite_none_left_eq_some, Option.some.injEq] at h
    exact h.2.2.symm

/-- **The block holds what it is meant to hold** exactly if at most one of the two texts has a
character. -/
theorem fileData_holds_iff {file : File} {prefixText suffixText : Option Text} {str : Block Char}
    (h : fileData (some file) prefixText suffixText = some str) :
    HoldsFile file.content prefixText suffixText str ↔
      prefixText.getD [] = [] ∨ suffixText.getD [] = [] := by
  rw [fileData_eq_some h]
  constructor
  · intro hholds
    by_contra hboth
    rw [not_or] at hboth
    exact hholds.initialised (none_mem_fileBlock hboth.1 hboth.2)
  · intro hone
    refine ⟨fileBlock_of_one hone, ?_, filePieces_kept hone⟩
    rw [fileBlock_of_one hone]
    exact fun hnone => absurd (List.mem_map.mp hnone) (by simp)

/-- A file of one character. -/
def sampleFile : File := ⟨['c'], true, true, true, true, 1⟩

theorem fileData_holds_front : ∃ str, fileData (some sampleFile) (some ['a']) none = some str ∧
    HoldsFile ['c'] (some ['a']) none str := by
  have h : fileData (some sampleFile) (some ['a']) none =
      some (fileBlock ['c'] (some ['a']) none) := rfl
  exact ⟨_, h, (fileData_holds_iff h).mpr (Or.inr rfl)⟩

/-- With one behind it as well the content is gone, and a byte is not stored. -/
theorem fileData_overwrites :
    fileData (some sampleFile) (some ['a']) (some ['b']) =
      some [some 'a', some 'b', none, some nul] ∧
    ¬ HoldsFile ['c'] (some ['a']) (some ['b']) [some 'a', some 'b', none, some nul] :=
  ⟨by decide, fun h => h.initialised (by decide)⟩

/-! ## What the client parses -/

/-- The string in a block. -/
def cString (str : Block Char) : Text := (str.takeWhile (· ≠ some nul)).reduceOption

theorem cString_map_some {w : Text} (h : nul ∉ w) (rest : Block Char) :
    cString (w.map some ++ some nul :: rest) = w := by
  have hall : ∀ c ∈ w.map some, decide (c ≠ some nul) = true := by
    intro c hc
    obtain ⟨d, hd, rfl⟩ := List.mem_map.mp hc
    exact decide_eq_true fun heq => h (Option.some.inj heq ▸ hd)
  unfold cString
  rw [List.takeWhile_append_of_pos hall, List.takeWhile_cons_of_neg (by simp), List.append_nil]
  show (w.map some).filterMap id = w
  rw [List.filterMap_map]
  exact List.filterMap_some

/-- `main`, from the file on. -/
def clientRun (opens : Text → Bool) (junk : Junk) (castInf : Int) (file : Option File) : Outcome :=
  match fileRead file with
  | none => ⟨some (.exit 1), []⟩
  | some text => clientMain opens junk castInf (cString text)

/-- **A file that can be read is parsed as it is.** -/
theorem clientRun_eq (opens : Text → Bool) (junk : Junk) (castInf : Int) {file : File}
    {text : Block Char} (h : nul ∉ file.content) (hread : fileRead (some file) = some text) :
    clientRun opens junk castInf (some file) = clientMain opens junk castInf file.content := by
  have htext : text = file.content.map some ++ [some nul] := by
    rw [fileData_eq_some hread, fileBlock_of_one (Or.inl rfl), Option.getD_none, List.nil_append,
      List.append_nil, List.map_append, List.map_singleton]
  unfold clientRun
  simp only [hread]
  rw [htext, cString_map_some h]

end Client
end TsnController

import Mathlib.Tactic.Common

/-!
# A block of memory that is filled piece by piece

What `malloc` hands out is not initialised: an element is `none` until something has been stored
there. A `Piece` is a sequence of elements together with the offset it is stored at.

There are two ways to look at a block after a number of stores. Where the pieces lie side by side
the block is their concatenation (`store_append`); and an element that lies outside of a piece is
not changed by storing it (`getElem?_store`).
-/

set_option autoImplicit false

namespace TsnController
namespace Lib

structure Piece (α : Type) where
  offset : Nat
  bytes : List α
  deriving DecidableEq

abbrev Block (α : Type) := List (Option α)

variable {α : Type}

namespace Piece

/-- Where the piece ends. -/
def stop (p : Piece α) : Nat := p.offset + p.bytes.length

/-- The piece lies in front of the range or behind it. -/
def Apart (p : Piece α) (start length : Nat) : Prop := p.stop ≤ start ∨ start + length ≤ p.offset

end Piece

namespace Block

def fresh (size : Nat) : Block α := List.replicate size none

def store (b : Block α) (p : Piece α) : Block α :=
  b.take p.offset ++ (p.bytes.map some ++ b.drop p.stop)

theorem length_fresh (size : Nat) : (fresh size : Block α).length = size := List.length_replicate

theorem fresh_add (m n : Nat) : (fresh (m + n) : Block α) = fresh m ++ fresh n :=
  List.replicate_append_replicate.symm

theorem length_store {b : Block α} {p : Piece α} (h : p.stop ≤ b.length) :
    (b.store p).length = b.length := by
  unfold Piece.stop at h
  unfold store Piece.stop
  rw [List.length_append, List.length_append, List.length_take, List.length_map, List.length_drop]
  omega

/-- An empty piece changes nothing. -/
theorem store_nil (b : Block α) (offset : Nat) : b.store ⟨offset, []⟩ = b := by
  unfold store Piece.stop
  rw [List.map_nil, List.nil_append, List.length_nil, Nat.add_zero, List.take_append_drop]

/-- … and need not be stored. -/
theorem foldl_store_ite (b : Block α) (p : Piece α) :
    (if 0 < p.bytes.length then [p] else []).foldl store b = b.store p := by
  obtain ⟨offset, bytes⟩ := p
  cases bytes with
  | nil => exact (store_nil b offset).symm
  | cons a bytes => rfl

/-- A piece that takes the place of `y`. -/
theorem store_append {x y z : Block α} {offset : Nat} {bytes : List α} (hx : x.length = offset)
    (hy : y.length = bytes.length) :
    Block.store (x ++ (y ++ z)) ⟨offset, bytes⟩ = x ++ (bytes.map some ++ z) := by
  have hdrop : (x ++ (y ++ z)).drop (x.length + bytes.length) = z := by
    rw [← hy, ← List.length_append, ← List.append_assoc, List.drop_left]
  unfold store Piece.stop
  rw [← hx, List.take_left, hdrop]

/-- What lies outside of a piece stays. -/
theorem getElem?_store {b : Block α} {p : Piece α} {i : Nat} (hfits : p.stop ≤ b.length)
    (h : p.Apart i 1) : (b.store p)[i]? = b[i]? := by
  unfold Piece.Apart at h
  unfold Piece.stop at h hfits
  unfold store Piece.stop
  have hlength : (b.take p.offset).length = p.offset := by
    rw [List.length_take]
    omega
  rcases h with hbehind | hfront
  · rw [List.getElem?_append_right (by omega), hlength,
      List.getElem?_append_right (by rw [List.length_map]; omega), List.length_map,
      List.getElem?_drop]
    congr 1
    omega
  · rw [List.getElem?_append_left (by omega), List.getElem?_take_of_lt (by omega)]

/-- … and it stays when several are stored. -/
theorem getElem?_foldl_store {i : Nat} {ps : List (Piece α)} : ∀ {b : Block α},
    (∀ p ∈ ps, p.stop ≤ b.length) → (∀ p ∈ ps, p.Apart i 1) → (ps.foldl store b)[i]? = b[i]? := by
  induction ps with
  | nil => intro b _ _; rfl
  | cons p ps ih =>
    intro b hfits hapart
    have hlength := length_store (hfits p List.mem_cons_self)
    rw [List.foldl_cons, ih, getElem?_store (hfits p List.mem_cons_self)
      (hapart p List.mem_cons_self)]
    · intro q hq
      rw [hlength]
      exact hfits q (List.mem_cons_of_mem p hq)
    · exact fun q hq => hapart q (List.mem_cons_of_mem p hq)

end Block

end Lib
end TsnController

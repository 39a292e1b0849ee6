import Mathlib.Data.List.Basic

/-!
# Taking a list apart from the front

Two readers that go through a list once. `cut` looks for an element and returns what stands on
either side of it, `expect` takes off a beginning that has to be there. Each of them undoes an
append (`cut_append`, `expect_append`), which is how what was printed is read back, and `cut` finds
nothing else (`cut_eq_some`).
-/

set_option autoImplicit false

namespace TsnController
namespace Lib

variable {α : Type} [DecidableEq α]

/-- What stands in front of the first `c` and behind it. -/
def cut (c : α) : List α → Option (List α × List α)
  | [] => none
  | d :: ds => if d = c then some ([], ds) else (cut c ds).map fun x => (d :: x.1, x.2)

theorem cut_eq_some {c : α} : ∀ {t a b : List α}, cut c t = some (a, b) →
    t = a ++ c :: b ∧ c ∉ a := by
  intro t
  induction t with
  | nil => intro a b h; exact absurd h (by simp [cut])
  | cons d ds ih =>
    intro a b h
    rw [cut] at h
    by_cases hd : d = c
    · rw [if_pos hd] at h
      cases h
      exact ⟨by rw [hd]; rfl, List.not_mem_nil⟩
    · rw [if_neg hd] at h
      obtain ⟨x, hx, heq⟩ := Option.map_eq_some_iff.mp h
      cases heq
      obtain ⟨hds, hmem⟩ := ih hx
      refine ⟨by rw [hds]; rfl, ?_⟩
      intro hc
      rcases List.mem_cons.mp hc with hc | hc
      · exact hd hc.symm
      · exact hmem hc

theorem cut_append {c : α} {u : List α} (hu : c ∉ u) (rest : List α) :
    cut c (u ++ c :: rest) = some (u, rest) := by
  induction u with
  | nil => rw [List.nil_append, cut, if_pos rfl]
  | cons d u ih =>
    rw [List.mem_cons, not_or] at hu
    rw [List.cons_append, cut, if_neg (Ne.symm hu.1), ih hu.2]
    rfl

/-- These have to come first. -/
def expect : List α → List α → Option (List α)
  | [], xs => some xs
  | x :: expected, y :: ys => if x = y then expect expected ys else none
  | _ :: _, [] => none

@[simp] theorem expect_append (expected xs : List α) :
    expect expected (expected ++ xs) = some xs := by
  induction expected with
  | nil => rfl
  | cons x expected ih => rw [List.cons_append, expect, if_pos rfl, ih]

end Lib
end TsnController

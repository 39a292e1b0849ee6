import Mathlib.Logic.Function.Iterate

/-!
# Requests that may be refused

A program that asks for memory may be refused any time. Which of its requests are granted is a
function of their number, and the program counts them. Written next to the program that is never
refused, it does the same up to the first refusal; what it does then is its own.

`Outcome` is that comparison for a piece of a program, and `Outcome.iterate` carries it from one
iteration of a loop to all of them, if the loop has ended where a request was refused.
-/

set_option autoImplicit false

namespace TsnController
namespace Lib

variable {α : Type}

/-- A value, and how many requests have been made by then. -/
structure Served (α : Type) where
  state : α
  asked : Nat

/-- From `k` requests on: either all were granted and the result is `granted`, or all but the last
were, and the result is one that a refusal leaves. -/
inductive Outcome (grants : Nat → Bool) (granted : α) (Refused : α → Prop) (k : Nat) :
    Served α → Prop
  | granted {k' : Nat} (hle : k ≤ k') (hall : ∀ i, k ≤ i → i < k' → grants i = true) :
      Outcome grants granted Refused k ⟨granted, k'⟩
  | refused {k' : Nat} {x : α} (hle : k ≤ k') (hall : ∀ i, k ≤ i → i < k' → grants i = true)
      (hno : grants k' = false) (hx : Refused x) : Outcome grants granted Refused k ⟨x, k' + 1⟩

namespace Outcome

variable {grants : Nat → Bool} {granted : α} {Refused : α → Prop} {k k' : Nat}

/-- Nothing was asked for. -/
theorem none : Outcome grants granted Refused k ⟨granted, k⟩ :=
  .granted (Nat.le_refl k) fun _ hk hlt => absurd (Nat.lt_of_le_of_lt hk hlt) (Nat.lt_irrefl k)

/-- One request, which was granted … -/
theorem of_grant (hk : grants k = true) : Outcome grants granted Refused k ⟨granted, k + 1⟩ := by
  refine .granted (Nat.le_succ k) fun i hi hlt => ?_
  rwa [Nat.le_antisymm (Nat.le_of_lt_succ hlt) hi]

/-- … or was not. -/
theorem of_refusal {x : α} (hk : grants k = false) (hx : Refused x) :
    Outcome grants granted Refused k ⟨x, k + 1⟩ :=
  .refused (Nat.le_refl k)
    (fun _ hi hlt => absurd (Nat.lt_of_le_of_lt hi hlt) (Nat.lt_irrefl k)) hk hx

/-- More requests after some that were granted. -/
theorem after {r : Served α} (h : Outcome grants granted Refused k' r) (hle : k ≤ k')
    (hall : ∀ i, k ≤ i → i < k' → grants i = true) : Outcome grants granted Refused k r := by
  have hjoin : ∀ {m : Nat}, (∀ i, k' ≤ i → i < m → grants i = true) →
      ∀ i, k ≤ i → i < m → grants i = true := by
    intro m hm i hi hlt
    rcases Nat.lt_or_ge i k' with h' | h'
    · exact hall i hi h'
    · exact hm i h' hlt
  cases h with
  | granted hle' hall' => exact .granted (Nat.le_trans hle hle') (hjoin hall')
  | refused hle' hall' hno hx => exact .refused (Nat.le_trans hle hle') (hjoin hall') hno hx

/-- More requests after one that was granted. -/
theorem succ {r : Served α} (hk : grants k = true)
    (h : Outcome grants granted Refused (k + 1) r) : Outcome grants granted Refused k r := by
  refine h.after (Nat.le_succ k) fun i hi hlt => ?_
  rwa [Nat.le_antisymm (Nat.le_of_lt_succ hlt) hi]

theorem mono {Refused' : α → Prop} {r : Served α} (h : Outcome grants granted Refused k r)
    (himp : ∀ x, Refused x → Refused' x) : Outcome grants granted Refused' k r := by
  cases h with
  | granted hle hall => exact .granted hle hall
  | refused hle hall hno hx => exact .refused hle hall hno (himp _ hx)

/-- **The loop rule.** What holds of an iteration holds of any number of them, with the iteration
in which a request was refused, if there is one. -/
theorem iterate {step : α → α} {scarce : Served α → Served α} {RefusedAt : α → α → Prop}
    (hstep : ∀ s k, Outcome grants (step s) (RefusedAt s) k (scarce ⟨s, k⟩))
    (hfinal : ∀ s x k, RefusedAt s x → scarce ⟨x, k⟩ = ⟨x, k⟩) (s : α) (k : Nat) : ∀ n,
    Outcome grants (step^[n] s) (fun x => ∃ m < n, RefusedAt (step^[m] s) x) k
      (scarce^[n] ⟨s, k⟩)
  | 0 => .none
  | n + 1 => by
    rw [Function.iterate_succ_apply', Function.iterate_succ_apply']
    have ih := iterate hstep hfinal s k n
    generalize scarce^[n] ⟨s, k⟩ = r at ih
    cases ih with
    | granted hle hall =>
      refine ((hstep _ _).mono fun x hx => ?_).after hle hall
      exact ⟨n, Nat.lt_succ_self n, hx⟩
    | refused hle hall hno hx =>
      obtain ⟨m, hm, hrefused⟩ := hx
      rw [hfinal _ _ _ hrefused]
      exact .refused hle hall hno ⟨m, Nat.lt_succ_of_lt hm, hrefused⟩

end Outcome

end Lib
end TsnController

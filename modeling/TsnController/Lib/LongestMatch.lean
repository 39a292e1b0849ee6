import Mathlib.Tactic.Common

/-!
# The longest matching prefix

A recogniser that reads a text from the left and stops at the longest prefix it accepts, which
is how the C library's number readers are specified. The recogniser is a partial automaton:
`step` answers `none` where no continuation can be accepted any more, and that is also what makes
the answer *local*, since nothing after a character `step` refuses can be looked at
(`munch_exact`).
-/

set_option autoImplicit false

namespace TsnController
namespace Lib

structure Matcher (σ κ : Type) where
  step : σ → κ → Option σ
  accept : σ → Bool

namespace Matcher

variable {σ κ : Type} (M : Matcher σ κ)

/-- The state a whole word leads to. -/
def run : σ → List κ → Option σ
  | s, [] => some s
  | s, c :: cs => (M.step s c).bind fun s' => run s' cs

/-- The length of the longest accepted prefix; `none` when not even the empty one is. -/
def munch : σ → List κ → Option Nat
  | s, [] => if M.accept s then some 0 else none
  | s, c :: cs =>
    match (M.step s c).bind fun s' => munch s' cs with
    | some n => some (n + 1)
    | none => if M.accept s then some 0 else none

theorem run_append (s : σ) : ∀ (u v : List κ),
    M.run s (u ++ v) = (M.run s u).bind fun s' => M.run s' v := by
  intro u
  induction u generalizing s with
  | nil => intro v; rfl
  | cons c cs ih =>
    intro v
    cases hs : M.step s c with
    | none => simp [run, hs]
    | some s' => simp [run, hs, ih s' v]

/-- The prefix found is accepted. -/
theorem munch_sound {s : σ} {w : List κ} {n : Nat} (h : M.munch s w = some n) :
    n ≤ w.length ∧ ∃ s', M.run s (w.take n) = some s' ∧ M.accept s' = true := by
  induction w generalizing s n with
  | nil =>
    simp only [munch, Option.ite_none_right_eq_some, Option.some.injEq] at h
    obtain ⟨hacc, rfl⟩ := h
    exact ⟨Nat.le_refl _, s, rfl, hacc⟩
  | cons c cs ih =>
    rw [munch] at h
    cases hb : (M.step s c).bind fun s' => M.munch s' cs with
    | some m =>
      rw [hb] at h
      simp only [Option.some.injEq] at h
      subst h
      obtain ⟨s', hs, hm⟩ := Option.bind_eq_some_iff.mp hb
      obtain ⟨hle, t, ht, hacc⟩ := ih hm
      exact ⟨Nat.succ_le_succ hle, t, by simp [run, hs, ht], hacc⟩
    | none =>
      rw [hb] at h
      simp only [Option.ite_none_right_eq_some, Option.some.injEq] at h
      obtain ⟨hacc, rfl⟩ := h
      exact ⟨Nat.zero_le _, s, rfl, hacc⟩

/-- **An accepted word is found whole** when what follows it cannot continue it. -/
theorem munch_exact {s s' : σ} {u v : List κ} (hrun : M.run s u = some s')
    (hacc : M.accept s' = true) (hstop : ∀ c ∈ v.head?, M.step s' c = none) :
    M.munch s (u ++ v) = some u.length := by
  induction u generalizing s with
  | nil =>
    simp only [run, Option.some.injEq] at hrun
    subst hrun
    cases v with
    | nil => simp [munch, hacc]
    | cons c cs => simp [munch, hstop c (by simp), hacc]
  | cons c cs ih =>
    obtain ⟨t, ht, hrun'⟩ := Option.bind_eq_some_iff.mp hrun
    have hm := ih hrun'
    simp [munch, ht, hm]

/-- Conversely, a match that reaches the end of `u` stops there if `v` cannot continue it, and
then `u` is accepted. -/
theorem run_of_munch {s : σ} {u v : List κ} {n : Nat} (h : M.munch s (u ++ v) = some n)
    (hn : u.length ≤ n) (hstop : ∀ s', M.run s u = some s' → ∀ c ∈ v.head?, M.step s' c = none) :
    ∃ s', M.run s u = some s' ∧ M.accept s' = true := by
  obtain ⟨_, t, ht, hacc⟩ := M.munch_sound h
  rw [List.take_append, List.take_of_length_le hn, run_append] at ht
  obtain ⟨s', hs', hrest⟩ := Option.bind_eq_some_iff.mp ht
  refine ⟨s', hs', ?_⟩
  -- One character of `v` taken would be a step the hypothesis rules out.
  cases v with
  | nil =>
    simp only [List.take_nil, run, Option.some.injEq] at hrest
    rw [hrest]; exact hacc
  | cons c cs =>
    cases hk : n - u.length with
    | zero =>
      rw [hk] at hrest
      simp only [List.take_zero, run, Option.some.injEq] at hrest
      rw [hrest]; exact hacc
    | succ k =>
      rw [hk] at hrest
      simp [run, hstop s' hs' c (by simp)] at hrest

/-! ## Whole words -/

/-- The word is accepted from `s` as a whole. -/
def Accepts (s : σ) (w : List κ) : Prop := ∃ s', M.run s w = some s' ∧ M.accept s' = true

theorem accepts_nil {s : σ} : M.Accepts s [] ↔ M.accept s = true := by
  constructor
  · intro ⟨s', hs', hacc⟩
    rw [Option.some.inj hs']
    exact hacc
  · intro h
    exact ⟨s, rfl, h⟩

theorem accepts_cons {s : σ} {c : κ} {cs : List κ} :
    M.Accepts s (c :: cs) ↔ ∃ s', M.step s c = some s' ∧ M.Accepts s' cs := by
  constructor
  · intro ⟨t, ht, hacc⟩
    obtain ⟨s', hs', hrun⟩ := Option.bind_eq_some_iff.mp ht
    exact ⟨s', hs', t, hrun, hacc⟩
  · intro ⟨s', hs', t, hrun, hacc⟩
    exact ⟨t, Option.bind_eq_some_iff.mpr ⟨s', hs', hrun⟩, hacc⟩

/-- **A state that stays where it is on a class of characters** reads any number of them, and then
the word ends there or the state is left by the first character outside. -/
theorem Accepts.loop {s : σ} {stays : κ → Bool} {leave : κ → Option σ}
    (hs : ∀ c, M.step s c = if stays c then some s else leave c) {w : List κ}
    (h : M.Accepts s w) : ∃ ds rest, w = ds ++ rest ∧ (∀ c ∈ ds, stays c = true) ∧
      ((rest = [] ∧ M.accept s = true) ∨
        ∃ c cs s', rest = c :: cs ∧ leave c = some s' ∧ M.Accepts s' cs) := by
  induction w with
  | nil => exact ⟨[], [], rfl, by simp, .inl ⟨rfl, M.accepts_nil.mp h⟩⟩
  | cons c cs ih =>
    obtain ⟨s', hs', hcs⟩ := M.accepts_cons.mp h
    rw [hs c] at hs'
    by_cases hc : stays c = true
    · rw [if_pos hc] at hs'
      rw [← Option.some.inj hs'] at hcs
      obtain ⟨ds, rest, rfl, hds, hrest⟩ := ih hcs
      exact ⟨c :: ds, rest, rfl, List.forall_mem_cons.mpr ⟨hc, hds⟩, hrest⟩
    · rw [if_neg hc] at hs'
      exact ⟨[], c :: cs, rfl, by simp, .inr ⟨c, cs, s', rfl, hs', hcs⟩⟩

end Matcher

end Lib
end TsnController

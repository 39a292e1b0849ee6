import TsnController.Lib.Wire

/-!
# Programs that keep out of each other's way

Several programs on one server, each with a part of its state. A program asks only about its own
part and changes only that (`OwnParts`). However they take turns, each of them is then answered as
if it were alone: what is ahead of it is the rest of its execution alone, and its part is what that
has made of it so far (`World.asAlone`).

A part is given by when two states agree on it.
-/

set_option autoImplicit false

namespace TsnController
namespace Lib

variable {Q R ε α σ ι : Type}

/-- The program has come to its end, with this result. -/
inductive Proc.Ended : Proc Q R ε α → Except ε α → Prop
  | ret (a : α) : Ended (.ret a) (.ok a)
  | halt (e : ε) : Ended (.halt e) (.error e)

theorem Proc.Ended.run_eq {p : Proc Q R ε α} {result : Except ε α} (h : p.Ended result)
    (serve : σ → Q → R × σ) (s : σ) : p.run serve s = (result, s) := by
  cases h <;> rfl

/-- Each program has requests of its own, which are answered from its part of the state and change
nothing else. -/
structure OwnParts (serve : σ → Q → R × σ) (own : ι → Q → Prop) (agree : ι → σ → σ → Prop) :
    Prop where
  refl : ∀ i s, agree i s s
  self : ∀ {i q s s'}, own i q → agree i s s' →
    (serve s q).1 = (serve s' q).1 ∧ agree i (serve s q).2 (serve s' q).2
  other : ∀ {i j q s s'}, own j q → j ≠ i → agree i s s' → agree i (serve s q).2 s'

namespace World

variable [DecidableEq ι] {serve : σ → Q → R × σ} {own : ι → Q → Prop} {agree : ι → σ → σ → Prop}

/-- What every request of the programs keeps of the state, their turns keep. -/
theorem keeps_after {procs : ι → Proc Q R ε α} (hasks : ∀ i, (procs i).Asks (own i)) {s : σ}
    {P : σ → Prop} (hs : P s) (hserve : ∀ {i q s'}, own i q → P s' → P (serve s' q).2)
    (turns : List ι) : P (after serve (start procs s) turns).state := by
  have hstep : ∀ (w : World ι Q R ε α σ) (j : ι),
      ((∀ i, (w.procs i).Asks (own i)) ∧ P w.state) → True →
      (∀ i, ((step serve w j).procs i).Asks (own i)) ∧ P (step serve w j).state := by
    intro w j h _
    refine ⟨asks_step h.1 j, ?_⟩
    rcases step_cases serve w j with hstep | ⟨q, k, hproc, hturn⟩
    · rw [hstep]
      exact h.2
    · have hown := h.1 j
      rw [hproc] at hown
      rw [hturn.state]
      exact hserve hown.1 h.2
  exact (invariant serve hstep turns _ ⟨hasks, hs⟩ (obeys_true serve _ turns)).2

/-- What is left of the program is the rest of its execution alone, and its part of the state is
what that has come to. -/
def AsAlone (serve : σ → Q → R × σ) (agree : ι → σ → σ → Prop) (procs : ι → Proc Q R ε α) (s : σ)
    (w : World ι Q R ε α σ) (i : ι) : Prop :=
  ∃ s', (w.procs i).run serve s' = (procs i).run serve s ∧ agree i w.state s'

theorem AsAlone.step (hparts : OwnParts serve own agree) {procs : ι → Proc Q R ε α} {s : σ}
    {w : World ι Q R ε α σ} (hasks : ∀ i, (w.procs i).Asks (own i)) {i : ι}
    (h : AsAlone serve agree procs s w i) (j : ι) :
    AsAlone serve agree procs s (World.step serve w j) i := by
  rcases step_cases serve w j with hstep | ⟨q, k, hproc, hturn⟩
  · rw [hstep]
    exact h
  · have hown := hasks j
    rw [hproc] at hown
    obtain ⟨s', hrest, hagree⟩ := h
    by_cases hij : i = j
    · -- Its own request: alone it is answered alike, and both parts go on alike.
      subst hij
      rw [hproc, Proc.run_call] at hrest
      obtain ⟨hanswer, hnext⟩ := hparts.self hown.1 hagree
      refine ⟨(serve s' q).2, ?_, ?_⟩
      · rw [hturn.procs_self, hanswer]
        exact hrest
      · rw [hturn.state]
        exact hnext
    · refine ⟨s', ?_, ?_⟩
      · rw [hturn.procs_ne i hij]
        exact hrest
      · rw [hturn.state]
        exact hparts.other hown.1 (Ne.symm hij) hagree

/-- **Each as if it were alone**, in any interleaving. -/
theorem asAlone (hparts : OwnParts serve own agree) {procs : ι → Proc Q R ε α}
    (hasks : ∀ i, (procs i).Asks (own i)) (s : σ) (turns : List ι) (i : ι) :
    AsAlone serve agree procs s (after serve (start procs s) turns) i := by
  have hstep : ∀ (w : World ι Q R ε α σ) (j : ι),
      ((∀ i, (w.procs i).Asks (own i)) ∧ AsAlone serve agree procs s w i) → True →
      (∀ i, ((step serve w j).procs i).Asks (own i)) ∧
        AsAlone serve agree procs s (step serve w j) i :=
    fun w j h _ => ⟨asks_step h.1 j, h.2.step hparts h.1 j⟩
  exact (invariant serve hstep turns _ ⟨hasks, s, rfl, hparts.refl i s⟩
    (obeys_true serve _ turns)).2

end World

end Lib
end TsnController

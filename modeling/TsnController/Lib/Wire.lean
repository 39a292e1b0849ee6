import TsnController.Lib.Process

/-!
# Programs over a wire

The requests of a program are sent as something else, text for example, and the server has to make
requests of that again. Encoding may fail, and the program then halts; what cannot be decoded is
answered by a refusal.

A program none of whose requests gets lost in this way does not notice (`World.after_send`),
whatever the answers are and however many other programs there are: what it asks for, for any
answers it could be given, is `Proc.Asks`.
-/

set_option autoImplicit false

namespace TsnController
namespace Lib

namespace Proc

variable {Q W R ε α β : Type}

/-- Whatever the answers are, only such requests are made. -/
def Asks (P : Q → Prop) : Proc Q R ε α → Prop
  | ret _ => True
  | halt _ => True
  | call q k => P q ∧ ∀ r, Asks P (k r)

theorem Asks.bind {P : Q → Prop} {p : Proc Q R ε α} {f : α → Proc Q R ε β} (hp : p.Asks P)
    (hf : ∀ a, (f a).Asks P) : (p >>= f).Asks P := by
  induction p with
  | ret a => exact hf a
  | halt e => trivial
  | call q k ih => exact ⟨hp.1, fun r => ih r (hp.2 r)⟩

theorem asks_forM {P : Q → Prop} {γ : Type} {xs : List γ} {f : γ → Proc Q R ε PUnit}
    (h : ∀ x ∈ xs, (f x).Asks P) : (forM xs f).Asks P := by
  induction xs with
  | nil => trivial
  | cons x xs ih =>
    rw [List.forM_cons]
    exact (h x List.mem_cons_self).bind fun _ => ih fun y hy => h y (List.mem_cons_of_mem x hy)

/-- Every request is encoded. -/
def send (encode : Q → Except ε W) : Proc Q R ε α → Proc W R ε α
  | ret a => ret a
  | halt e => halt e
  | call q k =>
    match encode q with
    | .ok w => call w fun r => (k r).send encode
    | .error e => halt e

theorem send_call {encode : Q → Except ε W} {q : Q} {w : W} (h : encode q = .ok w)
    (k : R → Proc Q R ε α) : (call q k).send encode = call w fun r => (k r).send encode := by
  rw [send, h]

end Proc

/-- The server at the other end. -/
def receive {Q W R σ : Type} (decode : W → Option Q) (refusal : R) (serve : σ → Q → R × σ) (s : σ)
    (w : W) : R × σ :=
  match decode w with
  | some q => serve s q
  | none => (refusal, s)

namespace World

variable {ι Q W R ε α σ : Type} [DecidableEq ι] {serve : σ → Q → R × σ}
  {encode : Q → Except ε W} {decode : W → Option Q} {refusal : R}

/-- A turn of a program that has ended. -/
theorem step_of_ended {w : World ι Q R ε α σ} {i : ι} (h : (w.procs i).next = none) :
    step serve w i = w := by
  unfold step
  cases hp : w.procs i with
  | ret a => rfl
  | halt e => rfl
  | call q k =>
    rw [hp] at h
    exact absurd h (by simp [Proc.next])

/-- Everything a turn can do: nothing, or answer a request. -/
theorem step_cases (serve : σ → Q → R × σ) (w : World ι Q R ε α σ) (i : ι) :
    step serve w i = w ∨ ∃ q k, w.procs i = .call q k ∧
      Turn w i q (serve w.state q).1 (k (serve w.state q).1) (serve w.state q).2
        (step serve w i) := by
  cases hp : w.procs i with
  | ret a => exact .inl (step_of_ended (by rw [hp]; rfl))
  | halt e => exact .inl (step_of_ended (by rw [hp]; rfl))
  | call q k => exact .inr ⟨q, k, rfl, turn_of_call serve hp⟩

/-- A request arrives as it was sent. -/
def Arrives (encode : Q → Except ε W) (decode : W → Option Q) (q : Q) : Prop :=
  ∃ w, encode q = .ok w ∧ decode w = some q

/-- The same world on both sides of the wire. -/
structure Mirrors (encode : Q → Except ε W) (w : World ι Q R ε α σ) (v : World ι W R ε α σ) :
    Prop where
  procs : ∀ i, v.procs i = (w.procs i).send encode
  state : v.state = w.state
  log : v.log.map (fun e => (e.who, Except.ok e.query, e.answer)) =
    w.log.map fun e => (e.who, encode e.query, e.answer)

theorem Mirrors.step {w : World ι Q R ε α σ} {v : World ι W R ε α σ} (h : Mirrors encode w v)
    (hasks : ∀ i, (w.procs i).Asks (Arrives encode decode)) (i : ι) :
    Mirrors encode (step serve w i) (step (receive decode refusal serve) v i) := by
  have hi := h.procs i
  have hasksi := hasks i
  cases hp : w.procs i with
  | ret a =>
    rw [hp] at hi
    rw [step_of_ended (by rw [hp]; rfl), step_of_ended (by rw [hi]; rfl)]
    exact h
  | halt e =>
    rw [hp] at hi
    rw [step_of_ended (by rw [hp]; rfl), step_of_ended (by rw [hi]; rfl)]
    exact h
  | call q k =>
    rw [hp] at hi hasksi
    obtain ⟨text, hencode, hdecode⟩ := hasksi.1
    rw [Proc.send_call hencode] at hi
    have hserve : receive decode refusal serve v.state text = serve w.state q := by
      rw [receive, hdecode, h.state]
    have hw := turn_of_call serve hp
    have hv := turn_of_call (receive decode refusal serve) hi
    rw [hserve] at hv
    refine ⟨fun j => ?_, hv.state.trans hw.state.symm, ?_⟩
    · by_cases hj : j = i
      · rw [hj, hv.procs_self, hw.procs_self]
      · rw [hv.procs_ne j hj, hw.procs_ne j hj, h.procs j]
    · rw [hv.log, hw.log, List.map_append, List.map_append, h.log, List.map_singleton,
        List.map_singleton, hencode]

theorem asks_step {P : ι → Q → Prop} {w : World ι Q R ε α σ} (h : ∀ i, (w.procs i).Asks (P i))
    (i j : ι) : ((step serve w i).procs j).Asks (P j) := by
  rcases step_cases serve w i with hstep | ⟨q, k, hp, hturn⟩
  · rw [hstep]
    exact h j
  · by_cases hj : j = i
    · have hi := h i
      rw [hp] at hi
      rw [hj, hturn.procs_self]
      exact hi.2 _
    · rw [hturn.procs_ne j hj]
      exact h j

/-- **The wire is transparent**, in whatever order the programs take their turns. -/
theorem after_send {w : World ι Q R ε α σ} {v : World ι W R ε α σ} (h : Mirrors encode w v)
    (hasks : ∀ i, (w.procs i).Asks (Arrives encode decode)) (turns : List ι) :
    Mirrors encode (after serve w turns) (after (receive decode refusal serve) v turns) := by
  induction turns generalizing w v with
  | nil => exact h
  | cons i turns ih => exact ih (h.step hasks i) (asks_step hasks i)

end World

end Lib
end TsnController

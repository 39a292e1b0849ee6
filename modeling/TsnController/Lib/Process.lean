import Mathlib.Logic.Function.Basic
import Mathlib.Tactic.Common

/-!
# Programs that talk to a server

A program is the tree of what it does next: it returns, it halts, or it issues a request and goes on
with the answer. The server is a function from its state and a request to an answer and a new state,
so a request is an atomic step on whatever the server keeps.

Alone, a program has one execution (`Proc.run`, with the requests and answers in `Proc.trace`).
Several programs on one server are a `World`; an interleaving is a list that says whose turn it is,
and `World.after` is the world after those turns. The rule for invariants allows for a condition on
the turns that are taken (`World.invariant`), which is how a property that needs some discipline of
the scheduler is stated.
-/

set_option autoImplicit false

namespace TsnController
namespace Lib

/-- `Q` are the requests, `R` the answers, `ε` the ways to halt, `α` the results. -/
inductive Proc (Q R ε α : Type)
  | ret (a : α)
  | halt (e : ε)
  | call (q : Q) (k : R → Proc Q R ε α)

namespace Proc

variable {Q R ε α β σ : Type}

def bind : Proc Q R ε α → (α → Proc Q R ε β) → Proc Q R ε β
  | ret a, f => f a
  | halt e, _ => halt e
  | call q k, f => call q fun r => (k r).bind f

instance : Monad (Proc Q R ε) where
  pure := ret
  bind := bind

@[simp] theorem ret_bind (a : α) (f : α → Proc Q R ε β) : (ret a >>= f) = f a := rfl

@[simp] theorem halt_bind (e : ε) (f : α → Proc Q R ε β) : (halt e >>= f) = halt e := rfl

@[simp] theorem call_bind (q : Q) (k : R → Proc Q R ε α) (f : α → Proc Q R ε β) :
    (call q k >>= f) = call q fun r => k r >>= f := rfl

theorem bind_ret (p : Proc Q R ε α) : p >>= ret = p := by
  induction p with
  | ret a => rfl
  | halt e => rfl
  | call q k ih =>
    rw [call_bind]
    exact congrArg (call q) (funext ih)

theorem bind_bind {γ : Type} (p : Proc Q R ε α) (f : α → Proc Q R ε β) (g : β → Proc Q R ε γ) :
    p >>= f >>= g = p >>= fun a => f a >>= g := by
  induction p with
  | ret a => rfl
  | halt e => rfl
  | call q k ih =>
    rw [call_bind, call_bind, call_bind]
    exact congrArg (call q) (funext ih)

instance : LawfulMonad (Proc Q R ε) :=
  LawfulMonad.mk' _ (fun p => bind_ret p) (fun _ _ => rfl) bind_bind

/-- The request a program is about to issue. -/
def next : Proc Q R ε α → Option Q
  | call q _ => some q
  | _ => none

/-! ## One program alone -/

section Alone

variable (serve : σ → Q → R × σ)

def run : Proc Q R ε α → σ → Except ε α × σ
  | ret a, s => (.ok a, s)
  | halt e, s => (.error e, s)
  | call q k, s => run (k (serve s q).1) (serve s q).2

/-- The requests issued, each with its answer. -/
def trace : Proc Q R ε α → σ → List (Q × R)
  | call q k, s => (q, (serve s q).1) :: trace (k (serve s q).1) (serve s q).2
  | _, _ => []

@[simp] theorem run_call (q : Q) (k : R → Proc Q R ε α) (s : σ) :
    run serve (call q k) s = run serve (k (serve s q).1) (serve s q).2 := rfl

@[simp] theorem trace_ret (a : α) (s : σ) :
    trace serve (ret a : Proc Q R ε α) s = [] := rfl

@[simp] theorem trace_halt (e : ε) (s : σ) :
    trace serve (halt e : Proc Q R ε α) s = [] := rfl

@[simp] theorem trace_call (q : Q) (k : R → Proc Q R ε α) (s : σ) :
    trace serve (call q k) s =
      (q, (serve s q).1) :: trace serve (k (serve s q).1) (serve s q).2 := rfl

/-- A program goes on where the one before it has left the server. -/
theorem run_bind (p : Proc Q R ε α) (f : α → Proc Q R ε β) : ∀ s,
    run serve (p >>= f) s =
      match run serve p s with
      | (.ok a, s') => run serve (f a) s'
      | (.error e, s') => (.error e, s') := by
  induction p with
  | ret a => intro s; rfl
  | halt e => intro s; rfl
  | call q k ih => intro s; exact ih (serve s q).1 (serve s q).2

theorem exists_of_run_bind {p : Proc Q R ε α} {f : α → Proc Q R ε β} {s s'' : σ} {b : β}
    (h : run serve (p >>= f) s = (.ok b, s'')) :
    ∃ a s', run serve p s = (.ok a, s') ∧ run serve (f a) s' = (.ok b, s'') := by
  rw [run_bind] at h
  cases hp : run serve p s with
  | mk result s' =>
    rw [hp] at h
    cases result with
    | ok a => exact ⟨a, s', rfl, h⟩
    | error e => exact absurd (congrArg Prod.fst h) (by simp)

/-- A relation that both parts of a program keep is kept by the program, however it ends. -/
theorem run_bind_rel {r : σ → σ → Prop} (htrans : ∀ {s s' s'' : σ}, r s s' → r s' s'' → r s s'')
    {p : Proc Q R ε α} {f : α → Proc Q R ε β} (hp : ∀ s, r s (run serve p s).2)
    (hf : ∀ a s, r s (run serve (f a) s).2) (s : σ) : r s (run serve (p >>= f) s).2 := by
  have hfirst := hp s
  rw [run_bind]
  cases hrun : run serve p s with
  | mk result s' =>
    rw [hrun] at hfirst
    cases result with
    | ok a => exact htrans hfirst (hf a s')
    | error e => exact hfirst

/-- Every answer is one the server gave. -/
theorem forall_trace {P : Q × R → Prop} (h : ∀ s q, P (q, (serve s q).1)) (p : Proc Q R ε α) :
    ∀ s, ∀ e ∈ trace serve p s, P e := by
  induction p with
  | ret a => intro s e he; exact absurd he (by simp)
  | halt a => intro s e he; exact absurd he (by simp)
  | call q k ih =>
    intro s e he
    rw [trace_call] at he
    rcases List.mem_cons.mp he with rfl | he
    · exact h s q
    · exact ih _ _ e he

end Alone

end Proc

/-! ## Several programs -/

/-- A request that has been answered. -/
structure Event (ι Q R : Type) where
  who : ι
  query : Q
  answer : R
  deriving DecidableEq

/-- What is left of every program, the server, and what has happened. -/
structure World (ι Q R ε α σ : Type) where
  procs : ι → Proc Q R ε α
  state : σ
  log : List (Event ι Q R)

namespace World

variable {ι Q R ε α σ : Type} [DecidableEq ι] (serve : σ → Q → R × σ)

def start (procs : ι → Proc Q R ε α) (s : σ) : World ι Q R ε α σ := ⟨procs, s, []⟩

/-- The last request of a program. -/
def last (w : World ι Q R ε α σ) (i : ι) : Option Q :=
  (w.log.reverse.find? (·.who = i)).map (·.query)

/-- A turn of program `i`. One that has ended lets it pass. -/
def step (w : World ι Q R ε α σ) (i : ι) : World ι Q R ε α σ :=
  match w.procs i with
  | .call q k =>
    ⟨Function.update w.procs i (k (serve w.state q).1), (serve w.state q).2,
      w.log ++ [⟨i, q, (serve w.state q).1⟩]⟩
  | _ => w

def after (w : World ι Q R ε α σ) (turns : List ι) : World ι Q R ε α σ := turns.foldl (step serve) w

/-- Every turn is taken in a world that allows it. -/
def Obeys (ok : World ι Q R ε α σ → ι → Prop) : World ι Q R ε α σ → List ι → Prop
  | _, [] => True
  | w, i :: turns => ok w i ∧ Obeys ok (step serve w i) turns

instance decidableObeys {ok : World ι Q R ε α σ → ι → Prop} [∀ w i, Decidable (ok w i)] :
    ∀ (w : World ι Q R ε α σ) (turns : List ι), Decidable (Obeys serve ok w turns)
  | _, [] => isTrue trivial
  | w, i :: turns => @instDecidableAnd _ _ _ (decidableObeys (step serve w i) turns)

/-- What holds at the start and is kept by every allowed turn holds after any number of them. -/
theorem invariant {ok : World ι Q R ε α σ → ι → Prop} {Inv : World ι Q R ε α σ → Prop}
    (hstep : ∀ w i, Inv w → ok w i → Inv (step serve w i)) : ∀ (turns : List ι)
    (w : World ι Q R ε α σ), Inv w → Obeys serve ok w turns → Inv (after serve w turns)
  | [], _, h, _ => h
  | i :: turns, w, h, hok => invariant hstep turns (step serve w i) (hstep w i h hok.1) hok.2

/-- Without a condition every order of turns is allowed. -/
theorem obeys_true : ∀ (w : World ι Q R ε α σ) (turns : List ι),
    Obeys serve (fun _ _ => True) w turns
  | _, [] => trivial
  | w, i :: turns => ⟨trivial, obeys_true (step serve w i) turns⟩

/-- What a turn has changed: program `i` and its last request, the server, and the log. -/
structure Turn (w : World ι Q R ε α σ) (i : ι) (q : Q) (r : R) (p : Proc Q R ε α) (s : σ)
    (w' : World ι Q R ε α σ) : Prop where
  procs_self : w'.procs i = p
  procs_ne : ∀ j, j ≠ i → w'.procs j = w.procs j
  state : w'.state = s
  log : w'.log = w.log ++ [⟨i, q, r⟩]
  last_self : w'.last i = some q
  last_ne : ∀ j, j ≠ i → w'.last j = w.last j

theorem turn_of_call {w : World ι Q R ε α σ} {i : ι} {q : Q} {k : R → Proc Q R ε α}
    (h : w.procs i = .call q k) :
    Turn w i q (serve w.state q).1 (k (serve w.state q).1) (serve w.state q).2
      (step serve w i) := by
  have hstep : step serve w i =
      ⟨Function.update w.procs i (k (serve w.state q).1), (serve w.state q).2,
        w.log ++ [⟨i, q, (serve w.state q).1⟩]⟩ := by
    unfold step
    rw [h]
  rw [hstep]
  refine ⟨Function.update_self _ _ _, fun j hj => Function.update_of_ne hj _ _, rfl, rfl, ?_, ?_⟩
  · unfold last
    simp
  · intro j hj
    unfold last
    simp [Ne.symm hj]

end World

end Lib
end TsnController

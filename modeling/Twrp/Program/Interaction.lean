/-
# Programs that talk to an environment

A program is a tree: it returns a value, it makes a call and goes on with the
answer, or it faults (an access outside its buffers).  Nothing is known about the
environment, so every answer is possible at every call; an environment with a
state of its own is a *handler*, and running a program against a handler gives
its result together with the trace of calls and answers.

`Prog.wp p Q` says that `p` never faults and that every run of `p`, whatever the
answers, ends with a trace and a result in `Q`.  `Prog.wp_bind` takes a program
apart at a sequence point, `Prog.wp_each` cuts the trace of a loop over a list
into one segment per element, and `Prog.wp_exec` carries the conclusion to the
run against any handler.

`Prog.after` is the same for one handler and the states it goes through:
`Prog.after_each` is the invariant rule for a loop over a list, and `Prog.after_exec`
carries the conclusion to the run.
-/

import Mathlib.Data.Nat.Notation
import Mathlib.Data.List.Forall2

namespace Interaction

variable {ι ο α β γ σ : Type}

/-- A program making calls in `ι`, answered in `ο`, returning in `α`. -/
inductive Prog (ι ο α : Type) where
  | ret (a : α)
  | call (c : ι) (k : ο → Prog ι ο α)
  | fault

namespace Prog

/-- Sequencing: the second program starts where the first one returns. -/
def bind : Prog ι ο α → (α → Prog ι ο β) → Prog ι ο β
  | ret a, f => f a
  | call c k, f => call c fun r => (k r).bind f
  | fault, _ => fault

instance : Monad (Prog ι ο) where
  pure := ret
  bind := bind

/-- One call, returning its answer. -/
def request (c : ι) : Prog ι ο ο := call c ret

@[simp] theorem ret_bind (a : α) (f : α → Prog ι ο β) : (ret a >>= f) = f a := rfl

@[simp] theorem call_bind (c : ι) (k : ο → Prog ι ο α) (f : α → Prog ι ο β) :
    (call c k >>= f) = call c fun r => k r >>= f := rfl

/-- Sequencing is associative. -/
@[simp] theorem bind_assoc (p : Prog ι ο α) (f : α → Prog ι ο β) (g : β → Prog ι ο γ) :
    (p >>= f >>= g) = p >>= fun a => f a >>= g := by
  induction p with
  | ret a => rfl
  | call c k ih =>
    rw [call_bind, call_bind, call_bind]
    exact congrArg (call c) (funext ih)
  | fault => rfl

/-- The program `f x` for each `x` of a list, in order. -/
def each (xs : List β) (f : β → Prog ι ο Unit) : Prog ι ο Unit :=
  match xs with
  | [] => ret ()
  | x :: xs => do
    f x
    each xs f

/-! ### Runs -/

/-- What a run leaves: its result (`none` after a fault), the calls it made with
their answers, and the state of the environment. -/
structure Run (ι ο α σ : Type) where
  result : Option α
  trace : List (ι × ο)
  state : σ
  deriving DecidableEq

/-- A program run against the handler `h` from the state `s`. -/
def exec (h : σ → ι → ο × σ) : Prog ι ο α → σ → Run ι ο α σ
  | ret a, s => ⟨some a, [], s⟩
  | call c k, s =>
    let r := h s c
    let e := exec h (k r.1) r.2
    ⟨e.result, (c, r.1) :: e.trace, e.state⟩
  | fault, s => ⟨none, [], s⟩

/-! ### What holds of every run -/

/-- `p` never faults, and every run of `p` ends with a trace and a result in `Q`. -/
def wp : Prog ι ο α → (List (ι × ο) → α → Prop) → Prop
  | ret a, Q => Q [] a
  | call c k, Q => ∀ r, (k r).wp fun t a => Q ((c, r) :: t) a
  | fault, _ => False

variable {Q R : List (ι × ο) → α → Prop}

/-- A weaker postcondition holds of every run, too. -/
theorem wp.mono {p : Prog ι ο α} (h : p.wp Q) (hQ : ∀ t a, Q t a → R t a) : p.wp R := by
  induction p generalizing Q R with
  | ret a => exact hQ [] a h
  | call c k ih => exact fun r => ih r (h r) fun t a => hQ ((c, r) :: t) a
  | fault => exact h

/-- **Sequencing.**  The runs of `p >>= f` are the runs of `p` followed by the
runs of `f` on what `p` returned. -/
theorem wp_bind {p : Prog ι ο α} {f : α → Prog ι ο β} {Q : List (ι × ο) → β → Prop} :
    (p >>= f).wp Q ↔ p.wp fun t a => (f a).wp fun u b => Q (t ++ u) b := by
  induction p generalizing Q with
  | ret a => rfl
  | call c k ih => exact forall_congr' fun r => ih r
  | fault => rfl

/-- **A loop over a list.**  If every run of `f x` is in `R x`, the trace of
the loop is a segment in `R x` for each `x`, one after the other. -/
theorem wp_each {xs : List β} {f : β → Prog ι ο Unit} {R : β → List (ι × ο) → Prop}
    (hf : ∀ x ∈ xs, (f x).wp fun t _ => R x t) :
    (each xs f).wp fun t _ => ∃ ts, t = ts.flatten ∧ List.Forall₂ R xs ts := by
  induction xs with
  | nil => exact ⟨[], rfl, .nil⟩
  | cons x xs ih =>
    refine wp_bind.2 ((hf x (List.mem_cons_self ..)).mono fun t _ ht => ?_)
    refine (ih fun y hy => hf y (List.mem_cons_of_mem x hy)).mono fun u _ hu => ?_
    obtain ⟨us, rfl, hus⟩ := hu
    exact ⟨t :: us, rfl, .cons ht hus⟩

/-- **Every handler gives such a run.** -/
theorem wp_exec {p : Prog ι ο α} (h : p.wp Q) (run : σ → ι → ο × σ) (s : σ) :
    ∃ a, (p.exec run s).result = some a ∧ Q (p.exec run s).trace a := by
  induction p generalizing Q s with
  | ret a => exact ⟨a, rfl, h⟩
  | call c k ih =>
    obtain ⟨a, ha, hQ⟩ := ih (run s c).1 (h (run s c).1) (run s c).2
    exact ⟨a, ha, hQ⟩
  | fault => exact h.elim

/-- A handler that answers by the call alone leaves its own answers in the trace. -/
theorem exec_answers (answer : ι → ο) (p : Prog ι ο α) (s : σ) :
    ∀ x ∈ (p.exec (fun s c => (answer c, s)) s).trace, x.2 = answer x.1 := by
  induction p generalizing s with
  | ret a => exact fun x hx => absurd hx List.not_mem_nil
  | call c k ih => exact List.forall_mem_cons.2 ⟨rfl, ih (answer c) s⟩
  | fault => exact fun x hx => absurd hx List.not_mem_nil

/-! ### What holds of the run against a handler -/

/-- Run against `h` from `s`, `p` does not fault, and ends with a result and a state in
`Q`. -/
def after (h : σ → ι → ο × σ) : Prog ι ο α → σ → (α → σ → Prop) → Prop
  | ret a, s, Q => Q a s
  | call c k, s, Q => after h (k (h s c).1) (h s c).2 Q
  | fault, _, _ => False

section After

variable {h : σ → ι → ο × σ} {s : σ}

/-- What is left may be said more weakly. -/
theorem after.mono {p : Prog ι ο α} {Q R : α → σ → Prop} (hp : p.after h s Q)
    (hQ : ∀ a s, Q a s → R a s) : p.after h s R := by
  induction p generalizing s with
  | ret a => exact hQ a s hp
  | call c k ih => exact ih _ hp
  | fault => exact hp

/-- One program after the other. -/
theorem after_bind {p : Prog ι ο α} {f : α → Prog ι ο β} {Q : β → σ → Prop} :
    (p >>= f).after h s Q ↔ p.after h s fun a s => (f a).after h s Q := by
  induction p generalizing s with
  | ret a => rfl
  | call c k ih => exact ih _
  | fault => rfl

/-- **A loop over a list keeps an invariant** that may speak of the part it has been
over. -/
theorem after_each {xs : List β} {f : β → Prog ι ο Unit} {I : List β → σ → Prop}
    (hstep : ∀ pre x post, xs = pre ++ x :: post → ∀ s, I pre s →
      (f x).after h s fun _ => I (pre ++ [x])) (hs : I [] s) :
    (each xs f).after h s fun _ => I xs := by
  have hall : ∀ pre post, xs = pre ++ post → ∀ s, I pre s →
      (each post f).after h s fun _ => I xs := by
    intro pre post
    induction post generalizing pre with
    | nil => exact fun hxs s hI => by rwa [hxs, List.append_nil]
    | cons x post ih =>
      intro hxs s hI
      refine after_bind.2 ((hstep pre x post hxs s hI).mono fun _ s' hI' => ?_)
      exact ih (pre ++ [x]) (by rw [hxs, List.append_assoc]; rfl) s' hI'
  exact hall [] xs rfl s hs

/-- What holds of the program holds of its run. -/
theorem after_exec {p : Prog ι ο α} {Q : α → σ → Prop} (hp : p.after h s Q) :
    ∃ a, (p.exec h s).result = some a ∧ Q a (p.exec h s).state := by
  induction p generalizing s with
  | ret a => exact ⟨a, rfl, hp⟩
  | call c k ih => exact ih _ hp
  | fault => exact hp.elim

end After

end Prog

end Interaction

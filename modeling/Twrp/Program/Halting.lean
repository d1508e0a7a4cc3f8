/-
# Calls that do not return

A process that executes another program is gone, and so is a machine that is switched off.
`Prog.upTo stop p` is the program `p` as far as the first call that does not return, which
`stop` tells from the call and its answer; its result is that call, or what `p` has returned.
A part of a program that makes no such call is passed through (`Prog.upTo_of_wp`).

What an environment promises about its answers is a contract: `Prog.wpIf ok p Q` says of the
runs that keep it what `Prog.wp` says of all runs, and `Prog.wpIf_exec` carries it to the run
against a handler that keeps it.

`Prog.via f g p` is `p` for an environment that knows more calls and answers more than `p`
wants to hear.
-/

import Twrp.Program.Interaction

namespace Interaction

variable {ι ι' ο ο' α β σ : Type}

/-- How a program ends: with a call that does not return, or with its result. -/
inductive Outcome (ι α : Type) where
  | stopped (c : ι)
  | returned (a : α)
  deriving DecidableEq, Repr

namespace Prog

/-! ### Up to a call that does not return -/

/-- `p`, up to the first call that `stop` says does not return. -/
def upTo (stop : ι → ο → Bool) : Prog ι ο α → Prog ι ο (Outcome ι α)
  | ret a => ret (.returned a)
  | call c k => call c fun r => if stop c r then ret (.stopped c) else (k r).upTo stop
  | fault => fault

/-- **Sequencing:** the second program starts if the first one returns. -/
theorem upTo_bind (stop : ι → ο → Bool) (p : Prog ι ο α) (f : α → Prog ι ο β) :
    (p >>= f).upTo stop = p.upTo stop >>= fun
      | .stopped c => ret (.stopped c)
      | .returned a => (f a).upTo stop := by
  induction p with
  | ret a => rfl
  | call c k ih =>
    refine congrArg (call c) (funext fun r => ?_)
    show (if stop c r then ret (.stopped c) else (k r >>= f).upTo stop) =
      (if stop c r then ret (.stopped c) else (k r).upTo stop) >>= _
    split_ifs
    · rfl
    · exact ih r
  | fault => rfl

/-- **A run of a sequence** is a run of the first program and, if it comes to its end, one of
the second from where it has led. -/
theorem exec_bind (h : σ → ι → ο × σ) (p : Prog ι ο α) (f : α → Prog ι ο β) (s : σ) :
    (p >>= f).exec h s =
      match (p.exec h s).result with
      | none => ⟨none, (p.exec h s).trace, (p.exec h s).state⟩
      | some a =>
        let e := (f a).exec h (p.exec h s).state
        ⟨e.result, (p.exec h s).trace ++ e.trace, e.state⟩ := by
  induction p generalizing s with
  | ret a => rfl
  | call c k ih =>
    rw [call_bind, exec, ih, exec]
    cases ((k (h s c).1).exec h (h s c).2).result <;> rfl
  | fault => rfl

/-- **A run of a sequence** up to a call that does not return: the second program is run if the
first one has come to its end. -/
theorem exec_upTo_bind (h : σ → ι → ο × σ) (stop : ι → ο → Bool) (p : Prog ι ο α)
    (f : α → Prog ι ο β) (s : σ) :
    ((p >>= f).upTo stop).exec h s =
      match ((p.upTo stop).exec h s).result with
      | none => ⟨none, ((p.upTo stop).exec h s).trace, ((p.upTo stop).exec h s).state⟩
      | some (.stopped c) =>
        ⟨some (.stopped c), ((p.upTo stop).exec h s).trace, ((p.upTo stop).exec h s).state⟩
      | some (.returned a) =>
        let e := ((f a).upTo stop).exec h ((p.upTo stop).exec h s).state
        ⟨e.result, ((p.upTo stop).exec h s).trace ++ e.trace, e.state⟩ := by
  rw [upTo_bind, exec_bind]
  rcases ((p.upTo stop).exec h s).result with - | c | a
  · rfl
  · exact congrArg (Run.mk _ · _) (List.append_nil _)
  · rfl

/-- What holds of every run holds of some run. -/
theorem exists_of_wp [Inhabited ο] {p : Prog ι ο α} {Q : List (ι × ο) → α → Prop} (h : p.wp Q) :
    ∃ t a, Q t a := by
  induction p generalizing Q with
  | ret a => exact ⟨[], a, h⟩
  | call c k ih =>
    obtain ⟨t, a, hQ⟩ := ih default (h default)
    exact ⟨_, a, hQ⟩
  | fault => exact h.elim

/-- **A program whose calls all return** is passed through. -/
theorem upTo_of_wp [Inhabited ο] {stop : ι → ο → Bool} {p : Prog ι ο α}
    (h : p.wp fun t _ => ∀ x ∈ t, stop x.1 x.2 = false) :
    p.upTo stop = p >>= fun a => ret (.returned a) := by
  induction p with
  | ret a => rfl
  | call c k ih =>
    refine congrArg (call c) (funext fun r => ?_)
    obtain ⟨t, a, hall⟩ := exists_of_wp (h r)
    rw [if_neg (by rw [hall _ (List.mem_cons_self ..)]; exact Bool.false_ne_true)]
    exact ih r ((h r).mono fun t _ ht x hx => ht x (List.mem_cons_of_mem _ hx))
  | fault => exact h.elim

/-! ### Runs that keep a contract -/

/-- `p` never faults while the answers are as `ok` says, and every such run of `p` ends with a
trace and a result in `Q`. -/
def wpIf (ok : ι → ο → Prop) : Prog ι ο α → (List (ι × ο) → α → Prop) → Prop
  | ret a, Q => Q [] a
  | call c k, Q => ∀ r, ok c r → (k r).wpIf ok fun t a => Q ((c, r) :: t) a
  | fault, _ => False

section Contract

variable {ok : ι → ο → Prop} {Q R : List (ι × ο) → α → Prop}

theorem wpIf.mono {p : Prog ι ο α} (h : p.wpIf ok Q) (hQ : ∀ t a, Q t a → R t a) :
    p.wpIf ok R := by
  induction p generalizing Q R with
  | ret a => exact hQ [] a h
  | call c k ih => exact fun r hr => ih r (h r hr) fun t a => hQ ((c, r) :: t) a
  | fault => exact h

theorem wp.wpIf {p : Prog ι ο α} (h : p.wp Q) (ok : ι → ο → Prop) : p.wpIf ok Q := by
  induction p generalizing Q with
  | ret a => exact h
  | call c k ih => exact fun r _ => ih r (h r)
  | fault => exact h

theorem wpIf_bind {p : Prog ι ο α} {f : α → Prog ι ο β} {Q : List (ι × ο) → β → Prop} :
    (p >>= f).wpIf ok Q ↔ p.wpIf ok fun t a => (f a).wpIf ok fun u b => Q (t ++ u) b := by
  induction p generalizing Q with
  | ret a => rfl
  | call c k ih => exact forall_congr' fun r => forall_congr' fun _ => ih r
  | fault => rfl

/-- **One call,** and what follows it if it returns. -/
theorem wpIf_upTo_call {stop : ι → ο → Bool} {c : ι} {k : ο → Prog ι ο α}
    {Q : List (ι × ο) → Outcome ι α → Prop} :
    ((call c k).upTo stop).wpIf ok Q ↔ ∀ r, ok c r →
      if stop c r then Q [(c, r)] (.stopped c)
      else ((k r).upTo stop).wpIf ok fun t e => Q ((c, r) :: t) e := by
  refine forall_congr' fun r => forall_congr' fun _ => ?_
  show (if stop c r then ret (.stopped c) else (k r).upTo stop).wpIf ok _ ↔ _
  split_ifs <;> rfl

/-- **A part whose calls all return,** and what follows it. -/
theorem wpIf_upTo_bind_of_wp [Inhabited ο] {stop : ι → ο → Bool} {p : Prog ι ο α}
    {f : α → Prog ι ο β} {R : List (ι × ο) → α → Prop} {Q : List (ι × ο) → Outcome ι β → Prop}
    (hp : p.wp fun t a => R t a ∧ ∀ x ∈ t, stop x.1 x.2 = false)
    (hf : ∀ t a, R t a → ((f a).upTo stop).wpIf ok fun u e => Q (t ++ u) e) :
    ((p >>= f).upTo stop).wpIf ok Q := by
  rw [upTo_bind, upTo_of_wp (hp.mono fun _ _ h => h.2), bind_assoc]
  exact wpIf_bind.2 ((hp.wpIf ok).mono fun t a h => hf t a h.1)

/-- **Every handler that keeps the contract** gives such a run. -/
theorem wpIf_exec {p : Prog ι ο α} (h : p.wpIf ok Q) {run : σ → ι → ο × σ}
    (hrun : ∀ s c, ok c (run s c).1) (s : σ) :
    ∃ a, (p.exec run s).result = some a ∧ Q (p.exec run s).trace a := by
  induction p generalizing Q s with
  | ret a => exact ⟨a, rfl, h⟩
  | call c k ih =>
    obtain ⟨a, ha, hQ⟩ := ih (run s c).1 (h (run s c).1 (hrun s c)) (run s c).2
    exact ⟨a, ha, hQ⟩
  | fault => exact h.elim

/-- All answers of such a handler are as the contract says. -/
theorem exec_contract {run : σ → ι → ο × σ} (hrun : ∀ s c, ok c (run s c).1) (p : Prog ι ο α)
    (s : σ) : ∀ x ∈ (p.exec run s).trace, ok x.1 x.2 := by
  induction p generalizing s with
  | ret a => exact fun x hx => absurd hx List.not_mem_nil
  | call c k ih => exact List.forall_mem_cons.2 ⟨hrun s c, ih _ _⟩
  | fault => exact fun x hx => absurd hx List.not_mem_nil

end Contract

/-! ### Among more calls -/

/-- `p` with its calls among those of `f` and the answers to them read by `g`. -/
def via (f : ι → ι') (g : ο' → ο) : Prog ι ο α → Prog ι' ο' α
  | ret a => ret a
  | call c k => call (f c) fun r => (k (g r)).via f g
  | fault => fault

/-- **Its runs are those of `p`.** -/
theorem wp.via {p : Prog ι ο α} {Q : List (ι × ο) → α → Prop} (h : p.wp Q) (f : ι → ι')
    (g : ο' → ο) :
    (p.via f g).wp fun t a => ∃ u, Q u a ∧ t.map Prod.fst = u.map (fun y => f y.1) ∧
      t.map (fun x => g x.2) = u.map Prod.snd := by
  induction p generalizing Q with
  | ret a => exact ⟨[], h, rfl, rfl⟩
  | call c k ih =>
    refine fun r => (ih (g r) (h (g r))).mono fun t a => ?_
    rintro ⟨u, hQ, hcalls, hanswers⟩
    exact ⟨(c, g r) :: u, hQ, congrArg _ hcalls, congrArg _ hanswers⟩
  | fault => exact h.elim

/-- **Its runs against a handler for more calls** are those of `p` against what that handler is
for the calls of `p`. -/
theorem exec_via {f : ι → ι'} {g : ο' → ο} (k : σ → ι' → ο' × σ) (p : Prog ι ο α) (s : σ) :
    let e := p.exec (fun s c => (g (k s (f c)).1, (k s (f c)).2)) s
    ((p.via f g).exec k s).result = e.result ∧ ((p.via f g).exec k s).state = e.state := by
  induction p generalizing s with
  | ret a => exact ⟨rfl, rfl⟩
  | call c next ih => exact ih _ _
  | fault => exact ⟨rfl, rfl⟩

end Prog

end Interaction

/-
# Handing over: `bootstrap_v3.c` and `bootstrap_v4.c`

Both programs are installed as `/init`, run as PID 1, and end by executing TWRP's init,
which was renamed to `/init_recovery`.  If that fails they execute `/init`, "the original
name".  A machine runs one program image after the other: `execve` fails, or starts the
program installed at its path from the beginning.  How often each attempt fails is up to
the environment (`Outcomes`), for every execution of the bootstrapper anew.

One execution of a program is the finite tree of its calls, so it comes to an end
(`finish`), and the run of the machine passes through it (`run_finish`).  The fallback is the
bootstrapper itself: it is executed again exactly when the first attempt fails and the second
does not (`handsOver_iff`).
-/

import Twrp.Bootstrap.Unpack

namespace Twrp
namespace Handover

open Bytes Interaction Bootstrap

/-! ### The programs -/

/-- The system calls of the two programs. -/
inductive Call where
  | mount (source target fstype : String)
  | openFile (path : String) (flags : List OFlag) (mode : ℕ)
  | write (fd : ℤ) (buf : Buf)
  | fsync (fd : ℤ)
  | close (fd : ℤ)
  | read (fd : ℤ) (count : ℕ)
  | lstat (path : String)
  | execve (path : String) (argv envp : List String)
  | reboot (cmd : ℕ)
  deriving DecidableEq, Repr

/-- What a call returns, with the bytes that `read` has put into the buffer. -/
structure Answer where
  ret : ℤ
  data : Buf
  deriving DecidableEq, Repr

abbrev Sys := Prog Call Answer

/-- A call of which only the result is used. -/
def sys (c : Call) : Sys ℤ := do
  let a ← Prog.request c
  pure a.ret

/-- `LINUX_REBOOT_CMD_POWER_OFF`. -/
def powerOff : ℕ := 0x4321fedc

/-- `mount` the kernel's file systems. -/
def mounts : Sys Unit := do
  let _ ← sys (.mount "proc" "/proc" "proc")
  let _ ← sys (.mount "sysfs" "/sys" "sysfs")
  let _ ← sys (.mount "devtmpfs" "/dev" "devtmpfs")
  pure ()

def envp : List String := ["HOME=/", "PATH=/sbin:/system/bin:/system/xbin", "ANDROID_ROOT=/system"]

/-- `execve` of `path` as the second stage of init. -/
def exec (path : String) : Sys Unit := do
  let _ ← sys (.execve path [path, "second_stage"] envp)
  pure ()

/-- `do_poweroff`.  The loop of `pause` that follows it is the end of the program. -/
def doPoweroff : Sys Unit := do
  let _ ← sys (.reboot powerOff)
  pure ()

namespace V3

/-- `L`: append `s` to the log and flush it, when there is a log. -/
def L (logfd : ℤ) (s : String) : Sys Unit :=
  if 0 ≤ logfd then do
    let _ ← sys (.write logfd (ascii s))
    let _ ← sys (.fsync logfd)
    pure ()
  else pure ()

/-- `main` of `bootstrap_v3.c`. -/
def main : Sys Unit := do
  mounts
  let logfd ← sys (.openFile "/boot-strap.log" [.wronly, .creat, .append] 0o666)
  L logfd "=== minimal bootstrap v3 ===\n"
  exec "/init_recovery"
  L logfd "exec /init_recovery failed\n"
  exec "/init"
  L logfd "exec /init failed\n"
  doPoweroff

end V3

namespace V4

/-- `klog`: write a C string to the kernel log, if it can be opened. -/
def klog (s : Buf) : Sys Unit := do
  let fd ← sys (.openFile "/dev/kmsg" [.wronly] 0)
  if 0 ≤ fd then
    let _ ← sys (.write fd s)
    let _ ← sys (.close fd)

/-- Copy the command line of the kernel to its log: at most 1023 bytes, up to a NUL. -/
def dumpCmdline : Sys Unit := do
  let fd ← sys (.openFile "/proc/cmdline" [.rdonly] 0)
  if 0 ≤ fd then
    let a ← Prog.request (.read fd 1023)
    let _ ← sys (.close fd)
    if 0 < a.ret then
      klog (ascii "BOOTSTRAP: cmdline: ")
      klog (cstr (a.data.take a.ret.toNat))
      klog (ascii "\n")

/-- Say so and execute `path`, if `lstat` has found it. -/
def attempt (found : ℤ) (message path : String) : Sys Unit :=
  if found = 0 then do
    klog (ascii message)
    exec path
  else pure ()

/-- `main` of `bootstrap_v4.c`. -/
def main : Sys Unit := do
  mounts
  klog (ascii "BOOTSTRAP: start\n")
  dumpCmdline
  let hasInit ← sys (.lstat "/init")
  let hasRecovery ← sys (.lstat "/init_recovery")
  klog (ascii (if hasInit = 0 then "BOOTSTRAP: /init exists\n" else "BOOTSTRAP: /init MISSING\n"))
  klog (ascii (if hasRecovery = 0 then "BOOTSTRAP: /init_recovery exists\n"
    else "BOOTSTRAP: /init_recovery MISSING\n"))
  attempt hasRecovery "BOOTSTRAP: exec /init_recovery\n" "/init_recovery"
  attempt hasInit "BOOTSTRAP: exec /init\n" "/init"
  klog (ascii "BOOTSTRAP: exec failed, poweroff\n")
  doPoweroff

end V4

/-! ### The machine -/

/-- The programs that can be executed. -/
inductive Image where
  | bootstrap | twrpInit | other
  deriving DecidableEq, Repr

/-- Where the programs are installed. -/
def installed (path : String) : Image :=
  if path = "/init" then .bootstrap
  else if path = "/init_recovery" then .twrpInit
  else .other

/-- The outcomes of all attempts: the results of `lstat` and `execve` for each execution
of the bootstrapper, counted from zero, and the answers to all other calls at each time. -/
structure Outcomes where
  lstat : ℕ → String → ℤ
  execve : ℕ → String → ℤ
  other : ℕ → Call → Answer

/-- The answer to a call, in the `n`th execution at time `t`; `read` delivers no more than it
was asked for. -/
def Outcomes.answer (o : Outcomes) (n t : ℕ) : Call → Answer
  | .lstat path => ⟨o.lstat n path, []⟩
  | .read fd count =>
    let a := o.other t (.read fd count)
    ⟨min a.ret count, a.data.take count⟩
  | c => o.other t c

/-- What PID 1 is doing: the bootstrapper is running, with calls left to make; another image
has taken over; or the machine was switched off or restarted. -/
inductive State where
  | running (rest : Sys Unit)
  | image (i : Image)
  | off (cmd : ℕ)

/-- The machine: how often the bootstrapper has been executed again, and what runs. -/
structure Machine where
  again : ℕ
  state : State

section Machine

variable (o : Outcomes) (main : Sys Unit)

/-- A program is executed. -/
def start (n : ℕ) : Image → Machine
  | .bootstrap => ⟨n + 1, .running main⟩
  | i => ⟨n, .image i⟩

/-- One step at time `t`.  Where the program has come to its end, nothing happens. -/
def step (t : ℕ) (m : Machine) : Machine :=
  match m.state with
  | .running (.call (.execve path _ _) k) =>
    if o.execve m.again path < 0 then ⟨m.again, .running (k ⟨o.execve m.again path, []⟩)⟩
    else start main m.again (installed path)
  | .running (.call (.reboot cmd) _) => ⟨m.again, .off cmd⟩
  | .running (.call c k) => ⟨m.again, .running (k (o.answer m.again t c))⟩
  | _ => m

/-- The machine after `t` steps. -/
def run : ℕ → Machine
  | 0 => ⟨0, .running main⟩
  | t + 1 => step o main t (run t)

/-- The bootstrapper is not executed again, and it ends with TWRP's init or, when no attempt
is left, by switching the machine off. -/
structure HandsOver : Prop where
  never : ∀ t, (run o main t).again = 0
  ends : ∃ t, (run o main t).state = .image .twrpInit ∨ (run o main t).state = .off powerOff

end Machine

/-! ### One execution -/

/-- How one execution of a program ends. -/
inductive End where
  | parked | execd (path : String) | off (cmd : ℕ) | faulted
  deriving DecidableEq, Repr

/-- The end of the program `p` in the `n`th execution, from time `t` on. -/
def finish (o : Outcomes) (n : ℕ) : Sys Unit → ℕ → End
  | .ret _, _ => .parked
  | .fault, _ => .faulted
  | .call (.execve path _ _) k, t =>
    if o.execve n path < 0 then finish o n (k ⟨o.execve n path, []⟩) (t + 1) else .execd path
  | .call (.reboot cmd) _, _ => .off cmd
  | .call c k, t => finish o n (k (o.answer n t c)) (t + 1)

/-- The machine behind the end of an execution. -/
def after (main : Sys Unit) (n : ℕ) : End → Machine
  | .parked => ⟨n, .running (.ret ())⟩
  | .faulted => ⟨n, .running .fault⟩
  | .execd path => start main n (installed path)
  | .off cmd => ⟨n, .off cmd⟩

/-- **The machine passes through an execution** to its end, and until then nothing else is
executed. -/
theorem run_finish {o : Outcomes} {main p : Sys Unit} {n t : ℕ}
    (h : run o main t = ⟨n, .running p⟩) :
    ∃ j, (∀ i < j, ∃ q, run o main (t + i) = ⟨n, .running q⟩) ∧
      run o main (t + j) = after main n (finish o n p t) := by
  induction p generalizing t with
  | ret a => exact ⟨0, fun i hi => absurd hi (Nat.not_lt_zero i), h⟩
  | fault => exact ⟨0, fun i hi => absurd hi (Nat.not_lt_zero i), h⟩
  | call c k ih =>
    have hstep : run o main (t + 1) = step o main t ⟨n, .running (.call c k)⟩ := by rw [run, h]
    -- a step to the end of the execution
    have hend : ∀ e : End, run o main (t + 1) = after main n e →
        ∃ j, (∀ i < j, ∃ q, run o main (t + i) = ⟨n, .running q⟩) ∧
          run o main (t + j) = after main n e := by
      refine fun e he => ⟨1, fun i hi => ?_, he⟩
      rw [Nat.lt_one_iff.1 hi]
      exact ⟨_, h⟩
    -- a step into the rest of the execution
    have hgo : ∀ a : Answer, run o main (t + 1) = ⟨n, .running (k a)⟩ →
        ∃ j, (∀ i < j, ∃ q, run o main (t + i) = ⟨n, .running q⟩) ∧
          run o main (t + j) = after main n (finish o n (k a) (t + 1)) := by
      intro a ha
      obtain ⟨j, hj, hfin⟩ := ih a ha
      refine ⟨j + 1, fun i hi => ?_, by rw [← hfin, Nat.add_comm j, Nat.add_assoc]⟩
      cases i with
      | zero => exact ⟨_, h⟩
      | succ i =>
        rw [Nat.add_comm i, ← Nat.add_assoc]
        exact hj i (by omega)
    cases c with
    | execve path argv envp =>
      rw [step] at hstep
      dsimp only at hstep
      rw [finish]
      split_ifs at hstep ⊢ with hneg
      · exact hgo _ hstep
      · exact hend (.execd path) hstep
    | reboot cmd => exact hend (.off cmd) hstep
    | _ => exact hgo _ hstep

/-- Unless the bootstrapper is executed again, the machine stays at the end. -/
theorem run_of_end {o : Outcomes} {main : Sys Unit} {n t : ℕ} {e : End}
    (h : run o main t = after main n e) (hagain : (after main n e).again = n) (i : ℕ) :
    run o main (t + i) = after main n e := by
  induction i with
  | zero => exact h
  | succ i ih =>
    rw [← Nat.add_assoc, run, ih]
    cases e with
    | execd path =>
      rw [after] at hagain ⊢
      cases hi : installed path <;> rw [hi] at hagain
      · exact absurd hagain (Nat.succ_ne_self n)
      · rfl
      · rfl
    | _ => rfl

/-- The ends of a hand-over: TWRP's init takes over, or the machine is switched off. -/
def Handed : End → Prop
  | .execd path => installed path = .twrpInit
  | .off cmd => cmd = powerOff
  | _ => False

/-- What the machine is like behind a hand-over. -/
theorem handed_iff {main : Sys Unit} {n : ℕ} {e : End} :
    Handed e ↔ (after main n e).again = n ∧
      ((after main n e).state = .image .twrpInit ∨ (after main n e).state = .off powerOff) := by
  cases e with
  | parked => simp [Handed, after]
  | faulted => simp [Handed, after]
  | off cmd => simp [Handed, after]
  | execd path => cases hi : installed path <;> simp [Handed, after, start, hi]

/-- **A hand-over is decided by the first execution.** -/
theorem handsOver_iff_finish {o : Outcomes} {main : Sys Unit} :
    HandsOver o main ↔ Handed (finish o 0 main 0) := by
  obtain ⟨j, hj, hend⟩ := @run_finish o main main 0 0 rfl
  simp only [Nat.zero_add] at hj hend
  rw [@handed_iff main 0]
  constructor
  · rintro ⟨hnever, t, ht⟩
    have hagain : (after main 0 (finish o 0 main 0)).again = 0 := hend ▸ hnever j
    refine ⟨hagain, ?_⟩
    rcases Nat.lt_or_ge t j with hlt | hge
    · -- before the end the program is running
      obtain ⟨q, hq⟩ := hj t hlt
      rw [hq] at ht
      simp at ht
    · obtain ⟨i, rfl⟩ := Nat.exists_eq_add_of_le hge
      rwa [run_of_end hend hagain i] at ht
  · rintro ⟨hagain, hstate⟩
    refine ⟨fun t => ?_, j, hend ▸ hstate⟩
    rcases Nat.lt_or_ge t j with hlt | hge
    · obtain ⟨q, hq⟩ := hj t hlt
      rw [hq]
    · obtain ⟨i, rfl⟩ := Nat.exists_eq_add_of_le hge
      rw [run_of_end hend hagain i, hagain]

/-! ### The two programs -/

/-- A program that executes nothing and comes to its end: what follows it is reached. -/
def Quiet (o : Outcomes) (n : ℕ) (p : Sys Unit) : Prop :=
  ∀ (f : Unit → Sys Unit) (t : ℕ), ∃ u, finish o n (p >>= f) t = finish o n (f ()) u

section Programs

variable {o : Outcomes} {n : ℕ}

/-- A program that does nothing is quiet. -/
theorem Quiet.ret : Quiet o n (pure ()) := fun _ t => ⟨t, rfl⟩

/-- Quiet programs one after the other are quiet. -/
theorem Quiet.bind {p : Sys Unit} {f : Unit → Sys Unit} (hp : Quiet o n p)
    (hf : Quiet o n (f ())) : Quiet o n (p >>= f) := by
  intro g t
  rw [Prog.bind_assoc]
  obtain ⟨u, hu⟩ := hp (fun a => f a >>= g) t
  obtain ⟨v, hv⟩ := hf g u
  exact ⟨v, hu.trans hv⟩

/-- The calls that are answered in passing. -/
def Call.plain : Call → Bool
  | .execve .. | .reboot _ => false
  | _ => true

/-- A plain call is answered, and the execution goes on. -/
theorem finish_call {c : Call} (hc : c.plain) (k : Answer → Sys Unit) (t : ℕ) :
    finish o n (.call c k) t = finish o n (k (o.answer n t c)) (t + 1) := by
  cases c with
  | execve => exact absurd hc Bool.false_ne_true
  | reboot => exact absurd hc Bool.false_ne_true
  | _ => rfl

/-- A plain call is quiet if all that follows is. -/
theorem Quiet.call {c : Call} (hc : c.plain) {k : Answer → Sys Unit}
    (hk : ∀ a, Quiet o n (k a)) : Quiet o n (.call c k) := by
  intro f t
  obtain ⟨u, hu⟩ := hk (o.answer n t c) f (t + 1)
  exact ⟨u, (finish_call hc _ t).trans hu⟩

/-- Mounting does not end the execution. -/
theorem quiet_mounts : Quiet o n mounts :=
  .call rfl fun _ => .call rfl fun _ => .call rfl fun _ => .ret

/-- Nor does a line of the log. -/
theorem quiet_L (logfd : ℤ) (s : String) : Quiet o n (V3.L logfd s) := by
  unfold V3.L
  split_ifs
  · exact .call rfl fun _ => .call rfl fun _ => .ret
  · exact .ret

/-- Nor does one of the kernel log. -/
theorem quiet_klog (s : Buf) : Quiet o n (V4.klog s) := by
  refine .call rfl fun a => ?_
  show Quiet o n (if 0 ≤ a.ret then _ else _)
  split_ifs
  · exact .call rfl fun _ => .call rfl fun _ => .ret
  · exact .ret

/-- Nor does the copy of the command line. -/
theorem quiet_dumpCmdline : Quiet o n V4.dumpCmdline := by
  refine .call rfl fun a => ?_
  show Quiet o n (if 0 ≤ a.ret then _ else _)
  split_ifs
  · refine .call rfl fun b => .call rfl fun _ => ?_
    show Quiet o n (if 0 < b.ret then _ else _)
    split_ifs
    · exact (quiet_klog _).bind ((quiet_klog _).bind (quiet_klog _))
    · exact .ret
  · exact .ret

/-- The program `p` comes to the end `e`, whenever it begins. -/
def EndsIn (o : Outcomes) (n : ℕ) (p : Sys Unit) (e : End) : Prop := ∀ t, finish o n p t = e

/-- Quiet programs in front do not matter to the end. -/
theorem EndsIn.quiet {p : Sys Unit} {f : Unit → Sys Unit} {e : End} (hp : Quiet o n p)
    (hf : EndsIn o n (f ()) e) : EndsIn o n (p >>= f) e := by
  intro t
  obtain ⟨u, hu⟩ := hp f t
  exact hu.trans (hf u)

/-- A plain call in front does not matter to the end. -/
theorem EndsIn.sys {c : Call} (hc : c.plain) {f : ℤ → Sys Unit} {e : End}
    (hf : ∀ r, EndsIn o n (f r) e) : EndsIn o n (sys c >>= f) e :=
  fun t => (finish_call hc _ t).trans (hf _ (t + 1))

/-- `lstat` is answered as the outcomes say. -/
theorem EndsIn.lstat {path : String} {f : ℤ → Sys Unit} {e : End}
    (hf : EndsIn o n (f (o.lstat n path)) e) : EndsIn o n (Handover.sys (.lstat path) >>= f) e :=
  fun t => hf (t + 1)

/-- An attempt ends the execution unless it fails. -/
theorem EndsIn.exec {path : String} {f : Unit → Sys Unit} {e : End} (hf : EndsIn o n (f ()) e) :
    EndsIn o n (exec path >>= f) (if o.execve n path < 0 then e else .execd path) := by
  intro t
  rw [← hf (t + 1)]
  rfl

/-- The power is switched off. -/
theorem endsIn_doPoweroff : EndsIn o n doPoweroff (.off powerOff) := fun _ => rfl

/-- **One execution of `bootstrap_v3`** makes both attempts, and then switches off. -/
theorem endsIn_v3 :
    EndsIn o n V3.main (if o.execve n "/init_recovery" < 0 then
      if o.execve n "/init" < 0 then .off powerOff else .execd "/init"
    else .execd "/init_recovery") :=
  .quiet quiet_mounts <| .sys rfl fun logfd => .quiet (quiet_L logfd _) <| .exec <|
    .quiet (quiet_L logfd _) <| .exec <| .quiet (quiet_L logfd _) endsIn_doPoweroff

/-- An attempt ends the execution if the path was found and `execve` does not fail. -/
theorem EndsIn.attempt {found : ℤ} {message path : String} {f : Unit → Sys Unit} {e : End}
    (hf : EndsIn o n (f ()) e) :
    EndsIn o n (V4.attempt found message path >>= f)
      (if found = 0 ∧ 0 ≤ o.execve n path then .execd path else e) := by
  unfold V4.attempt
  by_cases hfound : found = 0
  · rw [if_pos hfound, Prog.bind_assoc]
    simp only [hfound, true_and, ← Int.not_lt, ite_not]
    exact .quiet (quiet_klog _) (.exec hf)
  · rw [if_neg hfound, if_neg fun h => hfound h.1]
    exact hf

/-- **One execution of `bootstrap_v4`** makes the attempts for which `lstat` finds a file,
and then switches off. -/
theorem endsIn_v4 :
    EndsIn o n V4.main (if o.lstat n "/init_recovery" = 0 ∧ 0 ≤ o.execve n "/init_recovery" then
        .execd "/init_recovery"
      else if o.lstat n "/init" = 0 ∧ 0 ≤ o.execve n "/init" then .execd "/init"
      else .off powerOff) :=
  .quiet quiet_mounts <| .quiet (quiet_klog _) <| .quiet quiet_dumpCmdline <| .lstat <| .lstat <|
    .quiet (quiet_klog _) <| .quiet (quiet_klog _) <| .attempt <| .attempt <|
    .quiet (quiet_klog _) endsIn_doPoweroff

end Programs

/-- **When the bootstrappers hand over.**  The fallback of each is the program itself, so
it starts all over when the first attempt fails (or, in `bootstrap_v4`, is not made)
and the second is made and does not fail. -/
theorem handsOver_iff (o : Outcomes) :
    (HandsOver o V3.main ↔ (o.execve 0 "/init_recovery" < 0 → o.execve 0 "/init" < 0)) ∧
      (HandsOver o V4.main ↔
        (o.lstat 0 "/init_recovery" ≠ 0 ∨ o.execve 0 "/init_recovery" < 0 →
          o.lstat 0 "/init" ≠ 0 ∨ o.execve 0 "/init" < 0)) := by
  have htwrp : Handed (.execd "/init_recovery") := show installed "/init_recovery" = _ by decide
  have hself : ¬ Handed (.execd "/init") := show ¬ installed "/init" = _ by decide
  have hoff : Handed (.off powerOff) := rfl
  rw [handsOver_iff_finish, handsOver_iff_finish, endsIn_v3, endsIn_v4]
  constructor
  · split_ifs with h1 h2
    · exact iff_of_true hoff fun _ => h2
    · exact iff_of_false hself fun h => h2 (h h1)
    · exact iff_of_true htwrp fun h => absurd h h1
  · split_ifs with h1 h2
    · exact iff_of_true htwrp fun h => by omega
    · exact iff_of_false hself fun h => by omega
    · exact iff_of_true hoff fun _ => by omega

/-! ### The loop -/

/-- A program whose every execution ends by executing `/init` is executed without end. -/
theorem exists_run_eq {o : Outcomes} {main : Sys Unit}
    (h : ∀ n, EndsIn o n main (.execd "/init")) (n : ℕ) :
    ∃ t, run o main t = ⟨n, .running main⟩ := by
  induction n with
  | zero => exact ⟨0, rfl⟩
  | succ n ih =>
    obtain ⟨t, ht⟩ := ih
    obtain ⟨j, -, hend⟩ := run_finish ht
    rw [h n t] at hend
    exact ⟨t + j, hend⟩

/-- Nothing is installed as `/init_recovery`. -/
def missing : Outcomes where
  lstat := fun _ path => if path = "/init" then 0 else -1
  execve := fun _ path => if path = "/init" then 0 else -1
  other := fun _ _ => ⟨0, []⟩

/-- **Without TWRP's init** both programs execute themselves, again and again. -/
theorem not_handsOver_missing :
    ¬ HandsOver missing V3.main ∧ ¬ HandsOver missing V4.main ∧
      ∀ n, (∃ t, run missing V3.main t = ⟨n, .running V3.main⟩) ∧
        ∃ t, run missing V4.main t = ⟨n, .running V4.main⟩ := by
  have h3 : ∀ n, EndsIn missing n V3.main (.execd "/init") := fun n => endsIn_v3
  have h4 : ∀ n, EndsIn missing n V4.main (.execd "/init") := fun n => endsIn_v4
  have hself : ¬ Handed (.execd "/init") := show ¬ installed "/init" = _ by decide
  refine ⟨?_, ?_, fun n => ⟨exists_run_eq h3 n, exists_run_eq h4 n⟩⟩
  · rw [handsOver_iff_finish, h3 0 0]
    exact hself
  · rw [handsOver_iff_finish, h4 0 0]
    exact hself

end Handover
end Twrp

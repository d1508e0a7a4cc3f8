/-
# How the bootstrappers end

On a machine on which `reboot` works, a run of one of the programs ends in one of two ways,
whatever the kernel answers to everything else: with the call that the program is for, or with
the machine switched off.  Which of the two is decided by a few answers (`Decided`): every
step that the program checks has to succeed.

A run is followed with what is known of its trace so far (`Status`): nothing has failed, and
the partition has or has not been read, or something has failed.  A call that is not checked
leaves that as it is (`Ends.call`, `Ends.lift`), a check leads on or to the end (`Ends.check`,
`Ends.failIf`).
-/

import Twrp.Bootstrap.Kernel
import Twrp.Bootstrap.Main

namespace Twrp
namespace Boot

open Bytes Interaction
open Bootstrap (Buf fills segOffset segSize unpackCpio walk)

/-! ### The steps -/

/-- What PID 1 sees of a machine on which `reboot` works: no answer to that, and the number of a
child from `fork`. -/
def Pid1 : Call → Reply → Prop
  | .sys (.reboot _), r => 0 ≤ r.ret
  | .fork, r => r.ret ≠ 0
  | _, _ => True

/-- The calls that read the partition: nothing else is read. -/
def Call.reads : Call → Bool
  | .sys (.read ..) => true
  | _ => false

/-- A run has read the partition, and every call has been answered as it has to be. -/
def Succeeded (ok : Call → Reply → Prop) (t : Trace) : Prop :=
  (∃ x ∈ t, x.1.reads) ∧ ∀ x ∈ t, ok x.1 x.2

/-- A run that makes no calls but those of `only` ends with the call `final` if it has
succeeded, and with the machine switched off if not. -/
structure Decided (only : Call → Prop) (ok : Call → Reply → Prop) (final : Call) (t : Trace)
    (e : Outcome Call Unit) : Prop where
  calls : ∀ x ∈ t, only x.1
  ends : Succeeded ok t ∧ e = .stopped final ∨
    ¬ Succeeded ok t ∧ e = .stopped (.sys (.reboot powerOff))

/-- What is known of a run so far. -/
inductive Status where
  | good (read : Bool)
  | failed
  deriving DecidableEq

section Rules

variable {only : Call → Prop} {ok : Call → Reply → Prop} {final : Call} {s : Status} {α : Type}
  {t u : Trace} {c : Call} {f : ℤ → Sys Unit}

/-- The trace is as the status says. -/
def Knows (only : Call → Prop) (ok : Call → Reply → Prop) (s : Status) (t : Trace) : Prop :=
  (∀ x ∈ t, only x.1) ∧
    match s with
    | .good read => (∀ x ∈ t, ok x.1 x.2) ∧ ((∃ x ∈ t, x.1.reads) ↔ read = true)
    | .failed => ∃ x ∈ t, ¬ ok x.1 x.2

/-- Behind a trace that is as `s` says, every run of `p` is decided. -/
def Ends (only : Call → Prop) (ok : Call → Reply → Prop) (final : Call) (s : Status)
    (p : Sys Unit) : Prop :=
  ∀ pre, Knows only ok s pre →
    (p.upTo stops).wpIf Pid1 fun t e => Decided only ok final (pre ++ t) e

/-- A call that is allowed, returns, reads nothing and is not checked. -/
structure Passing (only : Call → Prop) (ok : Call → Reply → Prop) (c : Call) : Prop where
  allowed : only c
  unchecked : ∀ r, ok c r
  returns : ∀ r, stops c r = false
  reads : c.reads = false

/-! ### What is known -/

theorem exists_read_append (hu : ∀ x ∈ u, x.1.reads = false) :
    (∃ x ∈ t ++ u, x.1.reads) ↔ ∃ x ∈ t, x.1.reads := by
  constructor
  · rintro ⟨x, hx, hread⟩
    rcases List.mem_append.1 hx with hx | hx
    · exact ⟨x, hx, hread⟩
    · rw [hu x hx] at hread
      exact absurd hread Bool.false_ne_true
  · rintro ⟨x, hx, h⟩
    exact ⟨x, List.mem_append_left _ hx, h⟩

/-- Calls that read nothing and are answered as they have to be leave it as it is. -/
theorem Knows.append (h : Knows only ok s t) (honly : ∀ x ∈ u, only x.1)
    (hok : ∀ x ∈ u, ok x.1 x.2) (hread : ∀ x ∈ u, x.1.reads = false) :
    Knows only ok s (t ++ u) := by
  obtain ⟨hall, hs⟩ := h
  refine ⟨List.forall_mem_append.2 ⟨hall, honly⟩, ?_⟩
  cases s with
  | good read =>
    exact ⟨List.forall_mem_append.2 ⟨hs.1, hok⟩, (exists_read_append hread).trans hs.2⟩
  | failed =>
    obtain ⟨x, hx, hbad⟩ := hs
    exact ⟨x, List.mem_append_left _ hx, hbad⟩

/-- A wrong answer is a failure. -/
theorem Knows.fail (h : Knows only ok s t) (honly : only c) {r : Reply} (hbad : ¬ ok c r) :
    Knows only ok .failed (t ++ [(c, r)]) :=
  ⟨List.forall_mem_append.2 ⟨h.1, List.forall_mem_singleton.2 honly⟩, (c, r),
    List.mem_append_right _ (List.mem_singleton_self _), hbad⟩

/-- With nothing read, or after a failure, the run has not succeeded. -/
theorem Knows.not_succeeded (h : Knows only ok s t) (hs : s ≠ .good true)
    (hu : ∀ x ∈ u, x.1.reads = false) : ¬ Succeeded ok (t ++ u) := by
  rintro ⟨hread, hok⟩
  cases s with
  | good read => exact hs (congrArg Status.good (h.2.2.1 ((exists_read_append hu).1 hread)))
  | failed =>
    obtain ⟨x, hx, hbad⟩ := h.2
    exact hbad (hok x (List.mem_append_left _ hx))

/-- One right answer more, and the run has succeeded. -/
theorem Knows.succeeded (h : Knows only ok (.good true) t) {r : Reply} (hr : ok c r) :
    Succeeded ok (t ++ [(c, r)]) := by
  obtain ⟨x, hx, hread⟩ := h.2.2.2 rfl
  exact ⟨⟨x, List.mem_append_left _ hx, hread⟩,
    List.forall_mem_append.2 ⟨h.2.1, List.forall_mem_singleton.2 hr⟩⟩

/-! ### One call -/

/-- A call that returns, and what is known behind it. -/
theorem Ends.step {k : Reply → Sys Unit} (hstop : ∀ r, stops c r = false)
    (h : ∀ r, Pid1 c r → ∃ s', (∀ pre, Knows only ok s pre → Knows only ok s' (pre ++ [(c, r)])) ∧
      Ends only ok final s' (k r)) : Ends only ok final s (.call c k) := by
  intro pre hpre
  refine Prog.wpIf_upTo_call.2 fun r hr => ?_
  obtain ⟨s', hknows, hends⟩ := h r hr
  rw [if_neg (by rw [hstop]; exact Bool.false_ne_true)]
  refine (hends _ (hknows pre hpre)).mono fun t e hd => ?_
  rwa [List.append_assoc] at hd

/-- **A call that is not checked** leaves what is known as it is. -/
theorem Ends.call {k : Reply → Sys Unit} (hc : Passing only ok c)
    (h : ∀ r, Pid1 c r → Ends only ok final s (k r)) : Ends only ok final s (.call c k) :=
  .step hc.returns fun r hr => ⟨s, fun _ hpre => hpre.append
    (List.forall_mem_singleton.2 hc.allowed) (List.forall_mem_singleton.2 (hc.unchecked r))
    (List.forall_mem_singleton.2 hc.reads), h r hr⟩

theorem Ends.sys {c : Bootstrap.Call} (hc : Passing only ok (.sys c))
    (h : ∀ r, Ends only ok final s (f r)) : Ends only ok final s (sys c >>= f) :=
  .call hc fun r _ => h r.ret

/-- **A check:** with the right answer the run goes on, and else it has failed. -/
theorem Ends.check {k : Reply → Sys Unit} (honly : only c) (hstop : ∀ r, stops c r = false)
    (hread : c.reads = false)
    (h : ∀ r s', ok c r ∧ s' = s ∨ ¬ ok c r ∧ s' = .failed → Ends only ok final s' (k r)) :
    Ends only ok final s (.call c k) := by
  refine .step hstop fun r _ => ?_
  by_cases hr : ok c r
  · exact ⟨s, fun _ hpre => hpre.append (List.forall_mem_singleton.2 honly)
      (List.forall_mem_singleton.2 hr) (List.forall_mem_singleton.2 hread),
      h r s (Or.inl ⟨hr, rfl⟩)⟩
  · exact ⟨.failed, fun _ hpre => hpre.fail honly hr, h r .failed (Or.inr ⟨hr, rfl⟩)⟩

/-- **Reading** is checked, too. -/
theorem Ends.read {k : Reply → Sys Unit} (honly : only c) (hstop : ∀ r, stops c r = false)
    (hread : c.reads)
    (h : ∀ r s', ok c r ∧ s' = .good true ∨ ¬ ok c r ∧ s' = .failed →
      Ends only ok final s' (k r)) :
    Ends only ok final (.good false) (.call c k) := by
  refine .step hstop fun r _ => ?_
  by_cases hr : ok c r
  · refine ⟨.good true, fun pre hpre => ⟨?_, ?_, ?_⟩, h r _ (Or.inl ⟨hr, rfl⟩)⟩
    · exact List.forall_mem_append.2 ⟨hpre.1, List.forall_mem_singleton.2 honly⟩
    · exact List.forall_mem_append.2 ⟨hpre.2.1, List.forall_mem_singleton.2 hr⟩
    · exact iff_of_true ⟨_, List.mem_append_right _ (List.mem_singleton_self _), hread⟩ rfl
  · exact ⟨.failed, fun _ hpre => hpre.fail honly hr, h r .failed (Or.inr ⟨hr, rfl⟩)⟩

/-- **The last call:** if it is answered as it has to be, it does not return. -/
theorem Ends.last {k : Reply → Sys Unit} (honly : only final)
    (hstop : ∀ r, Pid1 final r → (stops final r ↔ ok final r))
    (hbad : ∀ r, ¬ ok final r → Ends only ok final .failed (k r)) :
    Ends only ok final (.good true) (.call final k) := by
  intro pre hpre
  refine Prog.wpIf_upTo_call.2 fun r hr => ?_
  split_ifs with hstops
  · exact ⟨List.forall_mem_append.2 ⟨hpre.1, List.forall_mem_singleton.2 honly⟩,
      Or.inl ⟨hpre.succeeded ((hstop r hr).1 hstops), rfl⟩⟩
  · have hr' : ¬ ok final r := fun h => hstops ((hstop r hr).2 h)
    refine (hbad r hr' _ (hpre.fail honly hr')).mono fun t e hd => ?_
    rwa [List.append_assoc] at hd

/-! ### Programs of `bootstrap.c` -/

/-- **A part whose calls are not checked,** with what is known of its result. -/
theorem Ends.lift {p : Bootstrap.Sys α} {g : α → Sys Unit} {R : α → Prop}
    (hp : p.wp fun t a => R a ∧ ∀ x ∈ t, Passing only ok (.sys x.1))
    (h : ∀ a, R a → Ends only ok final s (g a)) : Ends only ok final s (lift p >>= g) := by
  intro pre hpre
  have hvia : (Boot.lift p).wp fun t a => (R a ∧ ∀ x ∈ t, Passing only ok x.1) ∧
      ∀ x ∈ t, stops x.1 x.2 = false := by
    refine (hp.via Call.sys Reply.ret).mono fun t a ⟨u, ⟨hR, hu⟩, hcalls, _⟩ => ?_
    have hpass : ∀ x ∈ t, Passing only ok x.1 := fun x hx => by
      obtain ⟨y, hy, hxy⟩ := List.mem_map.1 (hcalls ▸ List.mem_map_of_mem hx)
      exact hxy ▸ hu y hy
    exact ⟨⟨hR, hpass⟩, fun x hx => (hpass x hx).returns _⟩
  refine Prog.wpIf_upTo_bind_of_wp hvia fun t a ⟨hR, ht⟩ => ?_
  have hknows : Knows only ok s (pre ++ t) := hpre.append (fun x hx => (ht x hx).allowed)
    (fun x hx => (ht x hx).unchecked _) fun x hx => (ht x hx).reads
  refine (h a hR _ hknows).mono fun u e hd => ?_
  rwa [List.append_assoc] at hd

/-- The log may be written, and the machine switched off. -/
structure Quiet (only : Call → Prop) (ok : Call → Reply → Prop) : Prop where
  write : ∀ fd b, Passing only ok (.sys (.write fd b))
  fsync : ∀ fd, Passing only ok (.sys (.fsync fd))
  powerOff : only (.sys (.reboot powerOff))

variable {g : Unit → Sys Unit} {logfd : ℤ} {msg : String}

theorem Ends.log (hq : Quiet only ok) (h : Ends only ok final s (g ())) :
    Ends only ok final s (L logfd msg >>= g) := by
  refine .lift (R := fun _ => True) ?_ fun _ _ => h
  unfold Bootstrap.L
  split_ifs
  · refine fun r₁ r₂ => ⟨trivial, ?_⟩
    exact List.forall_mem_cons.2 ⟨hq.write _ _, List.forall_mem_singleton.2 (hq.fsync _)⟩
  · exact ⟨trivial, fun x hx => absurd hx List.not_mem_nil⟩

/-- **Switching off** ends a run that has not succeeded. -/
theorem Ends.powerOff (hq : Quiet only ok) (hs : s ≠ .good true) :
    Ends only ok final s (doPoweroff >>= g) := by
  refine fun pre hpre => Prog.wpIf_upTo_call.2 fun r hr => ?_
  rw [if_pos (show stops (.sys (.reboot Boot.powerOff)) r = true from decide_eq_true hr)]
  exact ⟨List.forall_mem_append.2 ⟨hpre.1, List.forall_mem_singleton.2 hq.powerOff⟩,
    Or.inr ⟨hpre.not_succeeded hs (List.forall_mem_singleton.2 rfl), rfl⟩⟩

theorem Ends.failIf (hq : Quiet only ok) {failed : Prop} [Decidable failed]
    (hgo : ¬ failed → Ends only ok final s (g ())) (hfail : failed → s ≠ .good true) :
    Ends only ok final s (failIf logfd failed msg >>= g) := by
  unfold Boot.failIf
  by_cases h : failed
  · rw [if_pos h, Prog.bind_assoc]
    exact .log hq (.powerOff hq (hfail h))
  · rw [if_neg h]
    exact hgo h

/-- **A checked step:** the program goes on with the right answer, and with a wrong one it
switches off. -/
theorem Ends.checkIf (hq : Quiet only ok) {c : Bootstrap.Call} {P : ℤ → Prop} [DecidablePred P]
    (honly : only (.sys c)) (hstop : ∀ r, stops (.sys c) r = false)
    (hread : (Call.sys c).reads = false) (hok : ∀ r, ok (.sys c) r ↔ ¬ P r.ret)
    (h : ∀ r, ¬ P r → Ends only ok final s (f r)) :
    Ends only ok final s (Boot.sys c >>= fun r => Boot.failIf logfd (P r) msg >>= fun _ =>
      f r) := by
  refine .check honly hstop hread fun r s' hs' => .failIf hq (fun hr => ?_) fun hr => ?_
  · obtain rfl : s' = s := hs'.elim And.right fun hbad => absurd ((hok r).2 hr) hbad.1
    exact h r.ret hr
  · rcases hs' with ⟨hgood, -⟩ | ⟨-, rfl⟩
    · exact absurd hr ((hok r).1 hgood)
    · nofun

/-- The name that is tried second has to open. -/
theorem Ends.openVendorBoot (hq : Quiet only ok)
    (honly : ∀ path, only (.sys (.openFile path [.rdonly] 0)))
    (hok : ∀ path r, ok (.sys (.openFile path [.rdonly] 0)) r ↔
      (path = ascii "/dev/block/sdc41" → 0 ≤ r.ret))
    (h : ∀ fd, Ends only ok final s (f fd)) :
    Ends only ok final s (openVendorBoot >>= fun fd => Boot.failIf logfd (fd < 0) msg >>= fun _ =>
      f fd) := by
  rw [Boot.openVendorBoot, Prog.bind_assoc]
  refine .sys ⟨honly _, fun r => (hok _ r).2 fun h => absurd h (by decide), fun _ => rfl, rfl⟩
    fun fd => ?_
  by_cases hfd : fd < 0
  · rw [if_pos hfd]
    exact .checkIf hq (honly _) (fun _ => rfl) rfl
      (fun r => ((hok _ r).trans ⟨fun h => h rfl, fun h _ => h⟩).trans Int.not_lt.symm)
      fun fd _ => h fd
  · rw [if_neg hfd]
    exact .failIf hq (fun _ => h fd) fun h => absurd h hfd

end Rules

/-! ### `unpack_cpio` among the calls -/

theorem write_of_writes {fd : ℤ} {b : Buf} {t : Bootstrap.Trace} (h : Bootstrap.Writes fd b t) :
    ∀ x ∈ t, ∃ b', x.1 = .write fd b' := by
  induction h with
  | done => exact fun x hx => absurd hx List.not_mem_nil
  | stop => exact List.forall_mem_singleton.2 ⟨_, rfl⟩
  | more _ _ _ ih => exact List.forall_mem_cons.2 ⟨⟨_, rfl⟩, ih⟩

theorem fills_of_handled {root : Buf} {e : Bootstrap.Stop} {t : Bootstrap.Trace}
    (h : Bootstrap.Handled root e t) : ∀ x ∈ t, fills x.1 := by
  obtain ⟨mk, node, rfl, hmk, hnode⟩ := h
  refine List.forall_mem_append.2 ⟨fun x hx => ?_, ?_⟩
  · obtain ⟨p, -, hp⟩ := List.mem_map.1 (hmk ▸ List.mem_map_of_mem hx)
    rw [← hp]
    rfl
  · unfold Bootstrap.NodeTrace at hnode
    cases hk : Bootstrap.kind e.mode <;> rw [hk] at hnode
    case reg =>
      obtain ⟨fd, ⟨-, rfl⟩ | ⟨-, ws, r₁, r₂, hws, rfl⟩⟩ := hnode
      · exact List.forall_mem_singleton.2 rfl
      · have hwrites : ∀ x ∈ ws, fills x.1 := fun x hx => by
          obtain ⟨b, hb⟩ := write_of_writes hws x hx
          rw [hb]
          rfl
        exact List.forall_mem_cons.2 ⟨rfl, List.forall_mem_append.2 ⟨hwrites,
          List.forall_mem_cons.2 ⟨rfl, List.forall_mem_singleton.2 rfl⟩⟩⟩
    case other =>
      subst hnode
      exact fun x hx => absurd hx List.not_mem_nil
    all_goals
      obtain ⟨r, rfl⟩ := hnode
      exact List.forall_mem_singleton.2 rfl

theorem unpackCpio_fills (logfd : ℤ) (d root : Buf) :
    (unpackCpio logfd d root).wp fun t rc => rc = (walk 0 d).2 ∧ ∀ x ∈ t, fills x.1 := by
  refine (Bootstrap.unpackCpio_runs logfd d root).mono ?_
  rintro t rc ⟨hrc, segs, log, rfl, hsegs, hlog⟩
  refine ⟨hrc, List.forall_mem_append.2 ⟨?_, fun x hx => ?_⟩⟩
  · generalize (walk 0 d).1 = stops at hsegs
    induction hsegs with
    | nil => exact fun x hx => absurd hx List.not_mem_nil
    | cons hseg _ ih => exact List.forall_mem_append.2 ⟨fills_of_handled hseg, ih⟩
  · rcases hlog x hx with ⟨b, hb⟩ | hb <;> rw [hb] <;> rfl

/-! ### `bootstrap.c` and `bootstrap_bisect.c` -/

/-- TWRP's init, as the program `envp` belongs to executes it. -/
def init (envp : List Buf) : Call :=
  .sys (.execve (ascii "/init") [ascii "/init", ascii "second_stage"] envp)

namespace Full

/-- What the steps of `bootstrap.c` have to answer: a node of the partition opens, by the
second name if not by the first, there is memory, what is read has at least a header and is
accepted by `unpack_cpio`, the new root is mounted and entered, the root is changed and init
is executed. -/
def ok : Call → Reply → Prop
  | .sys (.openFile path flags _), r =>
    flags = [.rdonly] → path = ascii "/dev/block/sdc41" → 0 ≤ r.ret
  | .sys (.malloc _), r => r.ret ≠ 0
  | .sys (.read ..), r => 110 ≤ r.ret ∧ (walk 0 (r.data.take r.ret.toNat)).2 = 0
  | .sys (.mount _ target _ _), r => target = ascii "/newroot" → r.ret = 0
  | .sys (.chdir path), r => path = ascii "/newroot" → r.ret = 0
  | .sys (.pivotRoot ..), r => r.ret = 0
  | .sys (.execve ..), r => 0 ≤ r.ret
  | _, _ => True

/-- The calls behind `"unpack ok\n"`. -/
def handsOver : Call → Bool
  | .sys (.mountMove _) | .sys (.pivotRoot ..) | .sys (.umount2 _) => true
  | .sys (.dup2 ..) | .sys (.execve ..) => true
  | _ => false

/-- What is read is `SEG_SIZE` bytes. -/
def calls : Call → Prop
  | .sys (.read _ count) => count = segSize
  | _ => True

section Prepare

variable {only : Call → Prop} {final : Call} {s : Status} {logfd : ℤ}
  (honly : ∀ c, handsOver c = false → calls c → only c)

include honly

theorem quiet : Quiet only ok where
  write := fun _ _ => ⟨honly _ rfl trivial, fun _ => trivial, fun _ => rfl, rfl⟩
  fsync := fun _ => ⟨honly _ rfl trivial, fun _ => trivial, fun _ => rfl, rfl⟩
  powerOff := honly _ rfl trivial

theorem passing_mount {source target fstype data : Buf} (h : target ≠ ascii "/newroot") :
    Passing only ok (.sys (.mount source target fstype data)) :=
  ⟨honly _ rfl trivial, fun _ heq => absurd heq h, fun _ => rfl, rfl⟩

theorem passing_fills {c : Bootstrap.Call} (h : fills c) : Passing only ok (.sys c) := by
  cases c with
  | openFile path flags mode =>
    obtain rfl : flags = Bootstrap.createFlags := of_decide_eq_true h
    exact ⟨honly _ rfl trivial, fun _ h => absurd h (by decide), fun _ => rfl, rfl⟩
  | mkdir | symlink | mknod | write | close | chmod | fsync =>
    exact ⟨honly _ rfl trivial, fun _ => trivial, fun _ => rfl, rfl⟩
  | _ => exact absurd h Bool.false_ne_true

/-- Unpacking is where a bad archive ends the run. -/
theorem unpack_ends {d : Buf} {g : Unit → Sys Unit}
    (hgo : (walk 0 d).2 = 0 → Ends only ok final s (g ()))
    (hfail : (walk 0 d).2 ≠ 0 → s ≠ .good true) :
    Ends only ok final s (unpack logfd d >>= g) := by
  unfold unpack
  rw [Prog.bind_assoc]
  refine .lift ((unpackCpio_fills logfd d (ascii ".")).mono fun t rc h =>
    ⟨h.1, fun x hx => passing_fills honly (h.2 x hx)⟩) fun rc hrc => ?_
  by_cases h : (walk 0 d).2 = 0
  · rw [if_neg (not_not.2 (hrc.trans h))]
    exact hgo h
  · rw [if_pos (hrc ▸ h)]
    exact .powerOff (quiet honly) (hfail h)

theorem mountLog_ends {g : Unit → Sys Unit} (h : Ends only ok final s (g ())) :
    Ends only ok final s (mountLog >>= g) := by
  unfold mountLog
  simp only [Prog.bind_assoc]
  refine .sys ⟨honly _ rfl trivial, fun _ => trivial, fun _ => rfl, rfl⟩ fun _ => ?_
  refine .sys (passing_mount honly (by decide)) fun m => ?_
  split_ifs
  · exact .sys (passing_mount honly (by decide)) fun _ => h
  · exact h

/-- **As far as `"unpack ok\n"`.** -/
theorem prepare_ends {g : ℤ → Sys Unit}
    (h : ∀ logfd, Ends only ok final (.good true) (g logfd)) :
    Ends only ok final (.good false) (prepare >>= g) := by
  have hq := quiet honly
  unfold prepare mounts
  simp only [Prog.bind_assoc]
  refine .sys (passing_mount honly (by decide)) fun _ => ?_
  refine .sys (passing_mount honly (by decide)) fun _ => ?_
  refine .sys (passing_mount honly (by decide)) fun _ => ?_
  refine mountLog_ends honly ?_
  refine .sys ⟨honly _ rfl trivial, fun _ h => absurd h (by decide), fun _ => rfl, rfl⟩
    fun logfd => ?_
  refine .log hq ?_
  refine .openVendorBoot hq (fun _ => honly _ rfl trivial)
    (fun _ _ => ⟨fun h => h rfl, fun h _ => h⟩) fun fd => ?_
  refine .sys ⟨honly _ rfl trivial, fun _ => trivial, fun _ => rfl, rfl⟩ fun _ => ?_
  refine .checkIf hq (honly _ rfl trivial) (fun _ => rfl) rfl (fun _ => Iff.rfl) fun buf hbuf => ?_
  -- what `read` has to give is known, but what is wrong with it shows only when it is unpacked
  refine .read (honly _ rfl rfl) (fun _ => rfl) rfl fun got s hs => ?_
  refine .sys ⟨honly _ rfl trivial, fun _ => trivial, fun _ => rfl, rfl⟩ fun _ => ?_
  refine .log hq ?_
  refine .failIf hq (fun hgot => ?_) fun hgot => ?_
  swap
  · rcases hs with ⟨h, -⟩ | ⟨-, rfl⟩
    · exact absurd h.1 (Int.not_le.2 hgot)
    · nofun
  refine .sys ⟨honly _ rfl trivial, fun _ => trivial, fun _ => rfl, rfl⟩ fun _ => ?_
  refine .checkIf hq (honly _ rfl trivial) (fun _ => rfl) rfl
    (fun _ => ⟨fun h => not_not.2 (h rfl), fun h _ => not_not.1 h⟩) fun m _ => ?_
  refine .checkIf hq (honly _ rfl trivial) (fun _ => rfl) rfl
    (fun _ => ⟨fun h => not_not.2 (h rfl), fun h _ => not_not.1 h⟩) fun c _ => ?_
  rw [buffer, if_pos ⟨by omega, Or.inl hbuf⟩]
  refine unpack_ends honly (fun hwalk => ?_) fun hwalk => ?_
  · obtain rfl : s = .good true :=
      hs.elim And.right fun h => absurd ⟨Int.not_lt.1 hgot, hwalk⟩ h.1
    exact .log hq (h logfd)
  · rcases hs with ⟨h, -⟩ | ⟨-, rfl⟩
    · exact absurd h.2 hwalk
    · nofun

end Prepare

end Full

/-! ### The end of the programs -/

/-- TWRP's init is executed, or that fails. -/
theorem execInit_ends {only : Call → Prop} {ok : Call → Reply → Prop} {logfd : ℤ}
    {envp : List Buf} (hq : Quiet only ok) (hdup : ∀ a b, Passing only ok (.sys (.dup2 a b)))
    (honly : only (init envp)) (hok : ∀ r, ok (init envp) r ↔ 0 ≤ r.ret) :
    Ends only ok (init envp) (.good true) (execInit logfd envp) := by
  have hexec : Ends only ok (init envp) (.good true) (sys (.execve (ascii "/init")
      [ascii "/init", ascii "second_stage"] envp) >>= fun _ => L logfd "exec failed\n" >>=
        fun _ => doPoweroff) :=
    .last honly (fun r _ => (decide_eq_true_iff (p := 0 ≤ r.ret)).trans (hok r).symm) fun r _ =>
      .log hq (.powerOff (g := pure) hq nofun)
  unfold execInit redirect
  refine .log hq ?_
  split_ifs
  · simp only [Prog.bind_assoc]
    exact .sys (hdup _ _) fun _ => .sys (hdup _ _) fun _ => hexec
  · exact hexec

/-- **`bootstrap.c`** executes TWRP's init if every step succeeds, and else switches off. -/
theorem Full.main_ends :
    (Full.main.upTo stops).wpIf Pid1 (Decided Full.calls Full.ok (init Full.envp)) := by
  have hq : Quiet Full.calls Full.ok := Full.quiet fun _ _ h => h
  refine Full.prepare_ends (fun _ _ h => h) (fun logfd => ?_) []
    ⟨fun x hx => absurd hx List.not_mem_nil, fun x hx => absurd hx List.not_mem_nil,
      by simp⟩
  unfold Full.handOver
  refine .sys ⟨trivial, fun _ => trivial, fun _ => rfl, rfl⟩ fun _ => ?_
  refine .sys ⟨trivial, fun _ => trivial, fun _ => rfl, rfl⟩ fun _ => ?_
  refine .sys ⟨trivial, fun _ => trivial, fun _ => rfl, rfl⟩ fun _ => ?_
  refine .sys ⟨trivial, fun _ => trivial, fun _ => rfl, rfl⟩ fun _ => ?_
  refine .checkIf hq trivial (fun _ => rfl) rfl (fun _ => not_not.symm) fun p _ => ?_
  refine .sys ⟨trivial, fun _ h => absurd h (by decide), fun _ => rfl, rfl⟩ fun _ => ?_
  refine .sys ⟨trivial, fun _ => trivial, fun _ => rfl, rfl⟩ fun _ => ?_
  exact execInit_ends hq (fun _ _ => ⟨trivial, fun _ => trivial, fun _ => rfl, rfl⟩) trivial
    fun _ => Iff.rfl

/-- **`bootstrap_bisect.c`** restarts the machine if everything up to unpacking succeeds, and
else switches off; it never comes to changing the root. -/
theorem Bisect.main_ends :
    (Bisect.main.upTo stops).wpIf Pid1
      (Decided (fun c => Full.handsOver c = false) Full.ok (.sys (.reboot restart))) := by
  refine Full.prepare_ends (fun _ h _ => h) (fun logfd => ?_) []
    ⟨fun x hx => absurd hx List.not_mem_nil, fun x hx => absurd hx List.not_mem_nil, by simp⟩
  exact .last rfl (fun r hr => iff_of_true (decide_eq_true hr) trivial) fun _ hr =>
    absurd trivial hr

/-! ### `bootstrap_mb.c` -/

namespace Magisk

/-- What the steps of `bootstrap_mb.c` have to answer.  What `magiskboot` does is not among
them, nor is whether the image was written and the new root mounted. -/
def ok : Call → Reply → Prop
  | .sys (.malloc _), r => r.ret ≠ 0
  | .sys (.read ..), r => 4096 ≤ r.ret
  | .sys (.openFile path flags _), r =>
    (flags = [.rdonly] → path = ascii "/dev/block/sdc41" → 0 ≤ r.ret) ∧
      (flags = Bootstrap.createFlags → 0 ≤ r.ret)
  | .sys (.chdir path), r => path = ascii "/newroot" → r.ret = 0
  | .sys (.pivotRoot ..), r => r.ret = 0
  | .sys (.execve ..), r => 0 ≤ r.ret
  | _, _ => True

theorem quiet : Quiet (fun _ => True) ok where
  write := fun _ _ => ⟨trivial, fun _ => trivial, fun _ => rfl, rfl⟩
  fsync := fun _ => ⟨trivial, fun _ => trivial, fun _ => rfl, rfl⟩
  powerOff := trivial

theorem passing_mount {source target fstype data : Buf} :
    Passing (fun _ => True) ok (.sys (.mount source target fstype data)) :=
  ⟨trivial, fun _ => trivial, fun _ => rfl, rfl⟩

theorem passing_mkdir {path : Buf} {mode : UInt32} :
    Passing (fun _ => True) ok (.sys (.mkdir path mode)) :=
  ⟨trivial, fun _ => trivial, fun _ => rfl, rfl⟩

/-- In the parent `run` returns, whatever has become of the child. -/
theorem run_ends {final : Call} {s : Status} {argv0 cwd : String} {argv : List String}
    {f : ℤ → Sys Unit} (h : ∀ rc, Ends (fun _ => True) ok final s (f rc)) :
    Ends (fun _ => True) ok final s (run argv0 argv cwd >>= f) := by
  refine .call ⟨trivial, fun _ => trivial, fun _ => rfl, rfl⟩ fun pid hpid => ?_
  show Ends _ _ _ _ ((if pid.ret < 0 then _ else if pid.ret = 0 then _ else _) >>= f)
  split_ifs with hneg hzero
  · exact h (-100)
  · exact absurd hzero hpid
  · refine .call ⟨trivial, fun _ => trivial, fun _ => rfl, rfl⟩ fun st _ => ?_
    show Ends _ _ _ _ ((if st.ret < 0 then _ else if st.status &&& 0x7f = 0 then _ else _) >>= f)
    split_ifs
    · exact h (-101)
    · exact h _
    · exact h (-102)

/-- **In the child** `run` never returns: the program is executed, or the child is gone. -/
theorem run_child (argv0 cwd : String) (argv : List String) (f : ℤ → Sys Unit) :
    ((run argv0 argv cwd >>= f).upTo stops).wpIf (fun c r => c = .fork → r.ret = 0) fun _ e =>
      e = .stopped (.sys (.execve (ascii argv0) ((argv0 :: argv).map ascii) envp)) ∨
        e = .stopped (.exit 126) ∨ e = .stopped (.exit 127) := by
  refine Prog.wpIf_upTo_call.2 fun pid hpid => ?_
  have h0 : pid.ret = 0 := hpid rfl
  show (((if pid.ret < 0 then _ else if pid.ret = 0 then _ else _) >>= f).upTo stops).wpIf _ _
  rw [if_neg (by omega), if_pos h0]
  refine Prog.wpIf_upTo_call.2 fun c _ => ?_
  show (((if c.ret ≠ 0 then _ else _) >>= f).upTo stops).wpIf _ _
  split_ifs
  · exact Prog.wpIf_upTo_call.2 fun _ _ => Or.inr (Or.inl rfl)
  · refine Prog.wpIf_upTo_call.2 fun r _ => ?_
    split_ifs
    · exact Or.inl rfl
    · exact Prog.wpIf_upTo_call.2 fun _ _ => Or.inr (Or.inr rfl)

/-- **`bootstrap_mb.c`** executes TWRP's init, whatever has been unpacked. -/
theorem main_ends : (main.upTo stops).wpIf Pid1 (Decided (fun _ => True) ok (init envp)) := by
  have hq := quiet
  have hstart : Ends (fun _ => True) ok (init envp) (.good false) main := by
    unfold main mounts
    simp only [Prog.bind_assoc]
    refine .sys passing_mount fun _ => .sys passing_mount fun _ => .sys passing_mount fun _ => ?_
    refine .sys passing_mkdir fun _ => .sys passing_mount fun _ => ?_
    refine .sys ⟨trivial, fun _ => ⟨fun h => absurd h (by decide), fun h => absurd h (by decide)⟩,
      fun _ => rfl, rfl⟩ fun logfd => ?_
    refine .log hq ?_
    refine .openVendorBoot hq (fun _ => trivial)
      (fun _ _ => ⟨fun h => h.1 rfl, fun h => ⟨fun _ => h, fun h => absurd h (by decide)⟩⟩)
      fun fd => ?_
    refine .checkIf hq trivial (fun _ => rfl) rfl (fun _ => Iff.rfl) fun buf hbuf => ?_
    refine .read trivial (fun _ => rfl) rfl fun got s hs => ?_
    refine .sys ⟨trivial, fun _ => trivial, fun _ => rfl, rfl⟩ fun _ => ?_
    refine .log hq (.failIf hq (fun hgot => ?_) fun hgot => ?_)
    swap
    · rcases hs with ⟨h, -⟩ | ⟨-, rfl⟩
      · exact absurd h (Int.not_le.2 hgot)
      · nofun
    obtain rfl : s = .good true := hs.elim And.right fun h => absurd (Int.not_lt.1 hgot) h.1
    refine .sys passing_mkdir fun _ => .sys passing_mount fun _ => ?_
    refine .sys passing_mkdir fun _ => .sys passing_mount fun _ => .sys passing_mkdir fun _ => ?_
    refine .checkIf hq trivial (fun _ => rfl) rfl
      (fun _ => ⟨fun h => Int.not_lt.2 (h.2 rfl),
        fun h => ⟨fun h => absurd h (by decide), fun _ => Int.not_lt.1 h⟩⟩) fun out _ => ?_
    rw [buffer, if_pos ⟨by omega, Or.inl hbuf⟩]
    refine .lift (R := fun _ => True) ((Bootstrap.writeAll_wp out _).mono fun t _ ht =>
      ⟨trivial, fun x hx => ?_⟩) fun _ _ => ?_
    · obtain ⟨b, hb⟩ := write_of_writes ht x hx
      exact hb ▸ hq.write _ _
    refine .sys ⟨trivial, fun _ => trivial, fun _ => rfl, rfl⟩ fun _ => .log hq ?_
    -- the results of the children are not looked at
    refine run_ends fun _ => .log hq (run_ends fun _ => .log hq ?_)
    refine .sys ⟨trivial, fun _ => trivial, fun _ => rfl, rfl⟩ fun _ => ?_
    refine .sys ⟨trivial, fun _ => trivial, fun _ => rfl, rfl⟩ fun _ => ?_
    refine .checkIf hq trivial (fun _ => rfl) rfl
      (fun _ => ⟨fun h => not_not.2 (h rfl), fun h _ => not_not.1 h⟩) fun c _ => ?_
    refine .sys passing_mkdir fun _ => ?_
    refine .checkIf hq trivial (fun _ => rfl) rfl (fun _ => not_not.symm) fun p _ => ?_
    refine .sys ⟨trivial, fun _ h => absurd h (by decide), fun _ => rfl, rfl⟩ fun _ => ?_
    refine .sys passing_mount fun _ => ?_
    refine .sys ⟨trivial, fun _ => trivial, fun _ => rfl, rfl⟩ fun _ => ?_
    exact execInit_ends hq (fun _ _ => ⟨trivial, fun _ => trivial, fun _ => rfl, rfl⟩) trivial
      fun _ => Iff.rfl
  exact hstart [] ⟨fun x hx => absurd hx List.not_mem_nil, fun x hx => absurd hx List.not_mem_nil,
    by simp⟩

end Magisk

end Boot
end Twrp

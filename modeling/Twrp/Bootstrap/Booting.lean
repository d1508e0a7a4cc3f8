/-
# Booting

The bootstrappers run against a kernel on which `reboot` works.  `bootstrap.c` executes TWRP's
init exactly when every step it depends on has succeeded, and switches off otherwise.
`bootstrap_bisect.c`, which is for finding out how far the other one comes, tells just that:
it restarts the machine if `bootstrap.c` on the same kernel gets past unpacking, and is
the same run if not (`bisect_signal`).  `bootstrap_mb.c` looks at fewer steps, and not at
those that unpack.

With the image that `build_vendor_boot_twrp.py` makes of an archive that `unpack_cpio`
accepts, the contents are no matter any more: it boots exactly when the archive ends within
`SEG_SIZE` and the machine does its part (`built_boots_iff`).
-/

import Twrp.Bootstrap.Ends

namespace Twrp
namespace Boot

open Bytes Interaction
open Bootstrap (Buf segOffset segSize segment extent walk)

variable {σ : Type} {kernel : σ → Call → Reply × σ}

/-- A run of a program against a kernel, up to the call that does not return. -/
def runOf (kernel : σ → Call → Reply × σ) (s : σ) (p : Sys Unit) :
    Prog.Run Call Reply (Outcome Call Unit) σ :=
  (p.upTo stops).exec kernel s

/-- A run that is decided for every answer is decided against a kernel. -/
theorem runOf_decided (hkernel : ∀ s c, Pid1 c (kernel s c).1) (s : σ) {p : Sys Unit}
    {only : Call → Prop} {ok : Call → Reply → Prop} {final : Call}
    (h : (p.upTo stops).wpIf Pid1 (Decided only ok final)) :
    ∃ e, (runOf kernel s p).result = some e ∧ Decided only ok final (runOf kernel s p).trace e :=
  Prog.wpIf_exec h hkernel s

/-- The two ends exclude each other. -/
theorem result_eq_iff {only : Call → Prop} {ok : Call → Reply → Prop} {final : Call} {t : Trace}
    {e : Outcome Call Unit} (h : Decided only ok final t e)
    (hne : final ≠ .sys (.reboot powerOff)) :
    (e = .stopped final ↔ Succeeded ok t) ∧
      (e = .stopped (.sys (.reboot powerOff)) ↔ ¬ Succeeded ok t) := by
  rcases h.ends with ⟨hs, rfl⟩ | ⟨hs, rfl⟩
  · exact ⟨iff_of_true rfl hs, iff_of_false (fun h => hne (Outcome.stopped.inj h)) (not_not.2 hs)⟩
  · exact ⟨iff_of_false (fun h => hne (Outcome.stopped.inj h).symm) hs, iff_of_true rfl hs⟩

/-- **`bootstrap.c` boots or switches off.**  Whatever the kernel answers, the program never
reads outside its buffer, and it ends in TWRP's init exactly when every step has succeeded,
and with the machine switched off when one has not. -/
theorem full_boots_iff (hkernel : ∀ s c, Pid1 c (kernel s c).1) (s : σ) :
    ((runOf kernel s Full.main).result = some (.stopped (init Full.envp)) ↔
        Succeeded Full.ok (runOf kernel s Full.main).trace) ∧
      ((runOf kernel s Full.main).result = some (.stopped (.sys (.reboot powerOff))) ↔
        ¬ Succeeded Full.ok (runOf kernel s Full.main).trace) := by
  obtain ⟨e, he, hd⟩ := runOf_decided hkernel s Full.main_ends
  rw [he, Option.some.injEq, Option.some.injEq]
  exact result_eq_iff hd nofun

/-- What a whole read of the segment of `image` gives. -/
def delivered (image : Buf) : Reply := ⟨(segment image).length, segment image, 0⟩

/-- A kernel that does everything and has `image` in the partition. -/
def obliging (image : Buf) : Unit → Call → Reply × Unit
  | (), .sys (.read ..) => (delivered image, ())
  | (), .sys (.malloc _) => (⟨1, [], 0⟩, ())
  | (), .fork => (⟨1, [], 0⟩, ())
  | (), _ => (⟨0, [], 0⟩, ())

theorem obliging_pid1 (image : Buf) (s : Unit) (c : Call) : Pid1 c (obliging image s c).1 := by
  cases c with
  | sys c => cases c <;> first | trivial | exact le_rfl
  | fork => exact one_ne_zero
  | waitpid | exit => trivial

/-- An image with a file of 16 bytes. -/
def blankImage : Buf :=
  VendorBoot.built (Bootstrap.roomyStock 16) (Bootstrap.blankPayload 16)

/-- The hypotheses are satisfiable: in a kernel that does everything it boots, so every step has
succeeded. -/
theorem full_boots_iff_obliging :
    Succeeded Full.ok (runOf (obliging blankImage) () Full.main).trace :=
  (full_boots_iff (obliging_pid1 _) ()).1.1 (by decide +kernel)

/-- **What the bisecting build tells.**  It restarts the machine exactly when `bootstrap.c`,
against the same kernel, comes to moving its mounts; if not, the two runs are the same. -/
theorem bisect_signal (hkernel : ∀ s c, Pid1 c (kernel s c).1) (s : σ) :
    ((runOf kernel s Bisect.main).result = some (.stopped (.sys (.reboot restart))) ↔
        ∃ x ∈ (runOf kernel s Full.main).trace, x.1 = .sys (.mountMove (ascii "/proc"))) ∧
      ((runOf kernel s Bisect.main).result ≠ some (.stopped (.sys (.reboot restart))) →
        runOf kernel s Bisect.main = runOf kernel s Full.main) := by
  obtain ⟨e, he, hfull⟩ := runOf_decided hkernel s Full.main_ends
  obtain ⟨e', he', hbisect⟩ := runOf_decided hkernel s Bisect.main_ends
  have hrun := fun q : ℤ → Sys Unit => Prog.exec_upTo_bind kernel stops Full.prepare q s
  have hfullRun : runOf kernel s Full.main = _ := hrun Full.handOver
  have hbisectRun : runOf kernel s Bisect.main = _ :=
    hrun fun logfd => doReboot >>= fun _ => Full.handOver logfd
  cases hprepare : ((Full.prepare.upTo stops).exec kernel s).result with
  | none =>
    rw [hprepare] at hfullRun
    rw [hfullRun] at he
    exact absurd he nofun
  | some o =>
    rw [hprepare] at hfullRun hbisectRun
    cases o with
    | stopped c =>
      -- both programs end in front of the line that is new
      have hsame := hbisectRun.trans hfullRun.symm
      rw [hfullRun] at he
      obtain rfl : Outcome.stopped c = e := Option.some.inj he
      have hc : c ≠ .sys (.reboot restart) := by
        rintro rfl
        rcases hfull.ends with ⟨-, h⟩ | ⟨-, h⟩ <;> exact absurd (Outcome.stopped.inj h) (by decide)
      refine ⟨iff_of_false (fun h => ?_) ?_, fun _ => hsame⟩
      · rw [hbisectRun] at h
        exact hc (Outcome.stopped.inj (Option.some.inj h))
      · rw [← hsame]
        rintro ⟨x, hx, hmove⟩
        have := hbisect.calls x hx
        rw [hmove] at this
        exact absurd this (by decide)
    | returned logfd =>
      have hreboot := hkernel ((Full.prepare.upTo stops).exec kernel s).state
        (.sys (.reboot restart))
      have hres : (runOf kernel s Bisect.main).result =
          some (.stopped (.sys (.reboot restart))) := by
        have hstop : stops (.sys (.reboot restart)) (kernel ((Full.prepare.upTo stops).exec kernel
            s).state (.sys (.reboot restart))).1 = true := decide_eq_true hreboot
        rw [hbisectRun]
        show ((if stops (.sys (.reboot restart)) _ then _ else _ : Prog Call Reply _).exec
          kernel _).result = _
        rw [if_pos hstop]
        rfl
      refine ⟨iff_of_true hres ?_, fun h => absurd hres h⟩
      rw [hfullRun]
      exact ⟨_, List.mem_append_right _ (List.mem_cons_self ..), rfl⟩

/-- The hypotheses are satisfiable: the same image, in the same kernel, makes the bisecting build
restart the machine, so `bootstrap.c` comes to moving its mounts. -/
theorem bisect_signal_obliging :
    ∃ x ∈ (runOf (obliging blankImage) () Full.main).trace,
      x.1 = .sys (.mountMove (ascii "/proc")) :=
  (bisect_signal (obliging_pid1 _) ()).1.1 (by decide +kernel)

/-! ### An image that has been built -/

/-- The segment is read as a whole. -/
def Delivers (image : Buf) (c : Call) (r : Reply) : Prop :=
  ∀ fd, c = .sys (.read fd segSize) → r = delivered image

/-- A read of the segment passes the checks if its archive is accepted. -/
theorem ok_delivered_iff {image : Buf} {fd : ℤ} :
    Full.ok (.sys (.read fd segSize)) (delivered image) ↔ (walk 0 (segment image)).2 = 0 := by
  have htake : (segment image).take ((segment image).length : ℤ).toNat = segment image := by
    rw [Int.toNat_natCast, List.take_length]
  show 110 ≤ ((segment image).length : ℤ) ∧
    (walk 0 ((segment image).take ((segment image).length : ℤ).toNat)).2 = 0 ↔ _
  rw [htake]
  refine ⟨And.right, fun h => ⟨?_, h⟩⟩
  by_contra hlen
  rw [Bootstrap.walk_of_length_lt (by omega)] at h
  exact absurd h (by decide)

/-- **A built image boots** exactly when its archive ends within `SEG_SIZE`, the partition is
read and every other step succeeds; what the archive holds is no matter. -/
theorem built_boots_iff {stock payload image : List UInt8}
    (hin : VendorBoot.RegionInside stock)
    (hbuild : VendorBoot.build stock payload = some image) (h0 : (walk 0 payload).2 = 0)
    (hkernel : ∀ s c, Pid1 c (kernel s c).1)
    (hread : ∀ s fd, (kernel s (.sys (.read fd segSize))).1 = delivered image) (s : σ) :
    (runOf kernel s Full.main).result = some (.stopped (init Full.envp)) ↔
      extent payload ≤ segSize ∧ (∃ x ∈ (runOf kernel s Full.main).trace, x.1.reads) ∧
        ∀ x ∈ (runOf kernel s Full.main).trace, x.1.reads = false → Full.ok x.1 x.2 := by
  obtain ⟨e, he, hd⟩ := runOf_decided hkernel s Full.main_ends
  have hcontract : ∀ s c, Delivers image c (kernel s c).1 := fun s c fd hc => hc ▸ hread s fd
  have hanswers := Prog.exec_contract hcontract (Full.main.upTo stops) s
  have hreads : ∀ x ∈ (runOf kernel s Full.main).trace, x.1.reads →
      (Full.ok x.1 x.2 ↔ (walk 0 (segment image)).2 = 0) := by
    rintro ⟨c, r⟩ hx hread
    have hcalls := hd.calls _ hx
    cases c with
    | sys c =>
      cases c with
      | read fd count =>
        obtain rfl : count = segSize := hcalls
        obtain rfl : r = delivered image := hanswers _ hx fd rfl
        exact ok_delivered_iff
      | _ => exact absurd hread Bool.false_ne_true
    | _ => exact absurd hread Bool.false_ne_true
  rw [he, Option.some.injEq, (result_eq_iff hd nofun).1]
  constructor
  · rintro ⟨⟨x, hx, hxread⟩, hok⟩
    refine ⟨?_, ⟨x, hx, hxread⟩, fun y hy _ => hok y hy⟩
    by_contra hlong
    exact Bootstrap.walk_segment_ne_zero hin hbuild h0 (by omega)
      ((hreads x hx hxread).1 (hok x hx))
  · rintro ⟨hshort, hsome, hok⟩
    refine ⟨hsome, fun x hx => ?_⟩
    cases hxread : x.1.reads with
    | false => exact hok x hx hxread
    | true =>
      refine (hreads x hx hxread).2 ?_
      rw [Bootstrap.walk_segment hin hbuild h0 hshort, h0]

/-- The hypotheses are satisfiable: a payload with a file of 16 bytes, in a kernel that does
everything. -/
theorem built_boots_iff_roomyStock :
    (runOf (obliging blankImage) () Full.main).result = some (.stopped (init Full.envp)) ↔
      extent (Bootstrap.blankPayload 16) ≤ segSize ∧
        (∃ x ∈ (runOf (obliging blankImage) () Full.main).trace, x.1.reads) ∧
        ∀ x ∈ (runOf (obliging blankImage) () Full.main).trace, x.1.reads = false →
          Full.ok x.1 x.2 :=
  have hbuild := Bootstrap.build_roomyStock (n := 16) (by decide)
  built_boots_iff hbuild.1 hbuild.2 (by rw [Bootstrap.walk_blankPayload (by decide)])
    (obliging_pid1 _) (fun _ _ => rfl) ()

/-! ### `bootstrap_mb.c` -/

/-- **`bootstrap_mb.c` boots whatever it has unpacked.**  It ends in TWRP's init exactly when
the partition opens and is read, there is memory, `/tmp/vb.img` opens, `/newroot` can be
entered and the root changed: neither the two runs of `magiskboot` nor the bytes that are
written to the image nor the mount of the new root have to succeed.  Else it switches off. -/
theorem magisk_boots_iff (hkernel : ∀ s c, Pid1 c (kernel s c).1) (s : σ) :
    ((runOf kernel s Magisk.main).result = some (.stopped (init Magisk.envp)) ↔
        Succeeded Magisk.ok (runOf kernel s Magisk.main).trace) ∧
      ((runOf kernel s Magisk.main).result = some (.stopped (.sys (.reboot powerOff))) ↔
        ¬ Succeeded Magisk.ok (runOf kernel s Magisk.main).trace) := by
  obtain ⟨e, he, hd⟩ := runOf_decided hkernel s Magisk.main_ends
  rw [he, Option.some.injEq, Option.some.injEq]
  exact result_eq_iff hd nofun

/-- The hypotheses are satisfiable: a partition of zeros is as good as any, in a kernel that does
everything. -/
theorem magisk_boots_iff_obliging :
    Succeeded Magisk.ok (runOf (obliging (zeros (segOffset + 4096))) () Magisk.main).trace :=
  (magisk_boots_iff (obliging_pid1 _) ()).1.1 (by decide +kernel)

end Boot
end Twrp

/-
# PID 1: `main` of `bootstrap.c`, `bootstrap_bisect.c` and `bootstrap_mb.c`

The three programs mount the kernel's file systems, read the vendor boot partition, fill a
new root with what its ramdisk holds, and execute TWRP's init there; "failures power off
(observable signal)".  `bootstrap.c` unpacks with `unpack_cpio`; `bootstrap_bisect.c` is the
same program with a restart between unpacking and pivoting; `bootstrap_mb.c` writes the
partition to a file and has `magiskboot` unpack it, in two child processes.

A call of `reboot` or `execve` that does not fail does not return, and neither does `_exit`
(`stops`).  The answer to `fork` is `0` in the child, so that a run of `bootstrap_mb.c` in
which it is `0` is what the child does.  After its last line each program pauses for ever,
which is the end of the program here.
-/

import Twrp.Program.Halting
import Twrp.Bootstrap.Segment

namespace Twrp
namespace Boot

open Bytes Interaction
open Bootstrap (Buf OFlag segOffset segSize unpackCpio)

/-! ### Calls -/

/-- The calls of the programs: those of `bootstrap.c`, and three for child processes. -/
inductive Call where
  | sys (c : Bootstrap.Call)
  | fork
  | waitpid (pid : ℤ)
  | exit (status : ℕ)
  deriving DecidableEq, Repr

/-- What a call returns, with the bytes that `read` has put into the buffer and the status
that `waitpid` has stored. -/
structure Reply where
  ret : ℤ
  data : Buf
  status : ℕ
  deriving DecidableEq, Repr

instance : Inhabited Reply := ⟨⟨0, [], 0⟩⟩

abbrev Sys := Prog Call Reply

abbrev Trace := List (Call × Reply)

/-- The calls that, answered so, do not return. -/
def stops : Call → Reply → Bool
  | .sys (.execve ..), r => decide (0 ≤ r.ret)
  | .sys (.reboot _), r => decide (0 ≤ r.ret)
  | .exit _, _ => true
  | _, _ => false

/-- A call of which only the result is used. -/
def sys (c : Bootstrap.Call) : Sys ℤ := do
  let r ← Prog.request (.sys c)
  pure r.ret

/-- A program that makes calls of `bootstrap.c` only. -/
def lift {α : Type} (p : Bootstrap.Sys α) : Sys α := p.via Call.sys Reply.ret

/-- `L`. -/
def L (logfd : ℤ) (s : String) : Sys Unit := lift (Bootstrap.L logfd s)

/-- `LINUX_REBOOT_CMD_RESTART`. -/
def restart : ℕ := 0x01234567

/-- `LINUX_REBOOT_CMD_POWER_OFF`. -/
def powerOff : ℕ := 0x4321fedc

/-- `do_reboot`. -/
def doReboot : Sys Unit := do
  let _ ← sys (.reboot restart)
  pure ()

/-- `do_poweroff`. -/
def doPoweroff : Sys Unit := do
  let _ ← sys (.reboot powerOff)
  pure ()

/-- `if (failed) { L(msg); do_poweroff(); }`. -/
def failIf (logfd : ℤ) (failed : Prop) [Decidable failed] (msg : String) : Sys Unit :=
  if failed then do
    L logfd msg
    doPoweroff
  else pure ()

/-- `syscall(SYS_mount, ..)`, with no flags and an empty string for no data. -/
def mount (source target fstype data : String) : Sys ℤ :=
  sys (.mount (ascii source) (ascii target) (ascii fstype) (ascii data))

/-- `mkdir` with mode `0755`. -/
def mkdir (path : String) : Sys ℤ := sys (.mkdir (ascii path) 0o755)

/-- The three mounts at the beginning. -/
def mounts : Sys Unit := do
  let _ ← mount "proc" "/proc" "proc" ""
  let _ ← mount "sysfs" "/sys" "sysfs" ""
  let _ ← mount "devtmpfs" "/dev" "devtmpfs" ""
  pure ()

/-- Open the log. -/
def openLog : Sys ℤ :=
  sys (.openFile (ascii "/plog/twrp-boot.log") [.wronly, .creat, .append] 0o666)

/-- Open a node of the vendor boot partition to read it. -/
def openNode (path : String) : Sys ℤ := sys (.openFile (ascii path) [.rdonly] 0)

/-- Open the vendor boot partition, by one of two names. -/
def openVendorBoot : Sys ℤ := do
  let fd ← openNode "/dev/sdc41"
  if fd < 0 then openNode "/dev/block/sdc41" else pure fd

/-- The first `got` bytes of the buffer that `malloc` has returned and `read` has filled.  As
a `size_t` a negative `got` is more than any buffer holds, and nothing is behind a null
pointer. -/
def buffer (buf : ℤ) (got : Reply) : Sys Buf :=
  if 0 ≤ got.ret ∧ (buf ≠ 0 ∨ got.ret = 0) then pure (got.data.take got.ret.toNat) else .fault

/-- `stdout` and `stderr` go to the log, when there is one. -/
def redirect (logfd : ℤ) : Sys Unit :=
  if 0 ≤ logfd then do
    let _ ← sys (.dup2 logfd 1)
    let _ ← sys (.dup2 logfd 2)
    pure ()
  else pure ()

/-- The end of the programs: TWRP's init is executed. -/
def execInit (logfd : ℤ) (envp : List Buf) : Sys Unit := do
  L logfd "exec twrp init\n"
  redirect logfd
  let _ ← sys (.execve (ascii "/init") [ascii "/init", ascii "second_stage"] envp)
  L logfd "exec failed\n"
  doPoweroff

/-! ### `bootstrap.c` -/

namespace Full

/-- `envp` of `main`. -/
def envp : List Buf :=
  [ascii "HOME=/", ascii "PATH=/sbin:/system/bin:/system/xbin", ascii "ANDROID_ROOT=/system"]

/-- Mount the partition of the log, by one of two names. -/
def mountLog : Sys Unit := do
  let _ ← mkdir "/plog"
  let m ← mount "/dev/sdc5" "/plog" "ext4" "sync,rw"
  if m ≠ 0 then
    let _ ← mount "/dev/block/sdc5" "/plog" "ext4" "sync,rw"

/-- Unpack the buffer into the working directory. -/
def unpack (logfd : ℤ) (d : Buf) : Sys Unit := do
  let rc ← lift (unpackCpio logfd d (ascii "."))
  if rc ≠ 0 then doPoweroff

/-- `main` as far as `"unpack ok\n"`, returning the descriptor of the log. -/
def prepare : Sys ℤ := do
  mounts
  mountLog
  let logfd ← openLog
  L logfd "=== bootstrap start ===\n"
  let fd ← openVendorBoot
  failIf logfd (fd < 0) "no vendor_boot node\n"
  let _ ← sys (.lseek fd segOffset)
  let buf ← sys (.malloc segSize)
  failIf logfd (buf = 0) "malloc fail\n"
  let got ← Prog.request (.sys (.read fd segSize))
  let _ ← sys (.close fd)
  L logfd "read vb ok\n"
  failIf logfd (got.ret < 110) "short read\n"
  let _ ← mkdir "/newroot"
  let m ← mount "tmpfs" "/newroot" "tmpfs" ""
  failIf logfd (m ≠ 0) "tmpfs fail\n"
  let c ← sys (.chdir (ascii "/newroot"))
  failIf logfd (c ≠ 0) "chdir fail\n"
  let d ← buffer buf got
  unpack logfd d
  L logfd "unpack ok\n"
  pure logfd

/-- The rest of `main`. -/
def handOver (logfd : ℤ) : Sys Unit := do
  let _ ← sys (.mountMove (ascii "/proc"))
  let _ ← sys (.mountMove (ascii "/sys"))
  let _ ← sys (.mountMove (ascii "/dev"))
  let _ ← mkdir "/oldroot"
  let p ← sys (.pivotRoot (ascii ".") (ascii "./oldroot"))
  failIf logfd (p ≠ 0) "pivot fail\n"
  let _ ← sys (.chdir (ascii "/"))
  let _ ← sys (.umount2 (ascii "/oldroot"))
  execInit logfd envp

/-- `main` of `bootstrap.c`. -/
def main : Sys Unit := do
  let logfd ← prepare
  handOver logfd

end Full

/-! ### `bootstrap_bisect.c` -/

namespace Bisect

/-- `main` of `bootstrap_bisect.c`. -/
def main : Sys Unit := do
  let logfd ← Full.prepare
  doReboot
  Full.handOver logfd

end Bisect

/-! ### `bootstrap_mb.c` -/

namespace Magisk

/-- `VB_SIZE`. -/
def vbSize : ℕ := 64 * 1024 * 1024

/-- `g_envp`. -/
def envp : List Buf :=
  [ascii "HOME=/", ascii "PATH=/sbin:/bin:/system/bin", ascii "ANDROID_ROOT=/system"]

/-- `_exit`. -/
def exit {α : Type} (status : ℕ) : Sys α := .call (.exit status) fun _ => .fault

/-- What `run` does in the child. -/
def child {α : Type} (argv0 : String) (argv : List String) (cwd : String) : Sys α := do
  let c ← sys (.chdir (ascii cwd))
  if c ≠ 0 then exit 126
  else do
    let _ ← sys (.execve (ascii argv0) ((argv0 :: argv).map ascii) envp)
    exit 127

/-- `run`, with `WIFEXITED` and `WEXITSTATUS`. -/
def run (argv0 : String) (argv : List String) (cwd : String) : Sys ℤ := do
  let pid ← Prog.request Call.fork
  if pid.ret < 0 then pure (-100)
  else if pid.ret = 0 then child argv0 argv cwd
  else do
    let st ← Prog.request (Call.waitpid pid.ret)
    if st.ret < 0 then pure (-101)
    else if st.status &&& 0x7f = 0 then pure (st.status >>> 8 &&& 0xff : ℕ)
    else pure (-102)

/-- `main` of `bootstrap_mb.c`. -/
def main : Sys Unit := do
  mounts
  let _ ← mkdir "/plog"
  let _ ← mount "/dev/sdc5" "/plog" "ext4" "sync,rw"
  let logfd ← openLog
  L logfd "=== bootstrap v2 (magiskboot) ===\n"
  let fd ← openVendorBoot
  failIf logfd (fd < 0) "no vb node\n"
  let buf ← sys (.malloc vbSize)
  failIf logfd (buf = 0) "malloc fail\n"
  let got ← Prog.request (.sys (.read fd vbSize))
  let _ ← sys (.close fd)
  L logfd "vb read\n"
  failIf logfd (got.ret < 4096) "short read\n"
  let _ ← mkdir "/tmp"
  let _ ← mount "tmpfs" "/tmp" "tmpfs" ""
  let _ ← mkdir "/newroot"
  let _ ← mount "tmpfs" "/newroot" "tmpfs" ""
  let _ ← mkdir "/tmp/work"
  let out ← sys (.openFile (ascii "/tmp/vb.img") [.wronly, .creat, .trunc] 0o644)
  failIf logfd (out < 0) "open vb.img fail\n"
  let d ← buffer buf got
  lift (Bootstrap.writeAll out d)
  let _ ← sys (.close out)
  L logfd "vb.img written\n"
  let _ ← run "/bin/magiskboot" ["unpack", "/tmp/vb.img"] "/tmp/work"
  L logfd "magiskboot unpack rc\n"
  let _ ← run "/bin/magiskboot" ["cpio", "/tmp/work/ramdisk.cpio", "extract"] "/newroot"
  L logfd "magiskboot extract rc\n"
  let _ ← sys (.mountMove (ascii "/proc"))
  let _ ← sys (.mountMove (ascii "/sys"))
  let c ← sys (.chdir (ascii "/newroot"))
  failIf logfd (c ≠ 0) "chdir fail\n"
  let _ ← mkdir "/newroot/oldroot"
  let p ← sys (.pivotRoot (ascii ".") (ascii "./oldroot"))
  failIf logfd (p ≠ 0) "pivot fail\n"
  let _ ← sys (.chdir (ascii "/"))
  let _ ← mount "devtmpfs" "/dev" "devtmpfs" ""
  let _ ← sys (.umount2 (ascii "/oldroot"))
  execInit logfd envp

end Magisk

end Boot
end Twrp

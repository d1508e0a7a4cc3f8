/-
# `unpack_cpio` of `tools/bootstrap.c`

The C unpacker as the source has it: the cursor `p` is an offset into the buffer
`d`, `end` is `d.length`, every `unsigned` is a `UInt32`, and every read of the
buffer is checked against its end (`readAt` faults where the C code would read
outside it, `storeStr` where it would overrun a `char` array).  What the program
asks of the kernel is a call of `Call`, answered by an integer that the
environment chooses.

`size_t` is 64 bits wide and the sums of the source stay far below `2 ^ 64`
(`total_lt`), so they are sums of natural numbers here.  Pointers into `d` are
only compared and advanced, so they are offsets.
-/

import Twrp.Cpio.Newc
import Twrp.Program.Interaction

namespace Twrp
namespace Bootstrap

open Bytes Interaction Cpio

abbrev Buf := List UInt8

/-- The flags of `open(2)` the bootstrapper uses. -/
inductive OFlag where
  | rdonly | wronly | creat | trunc | append
  deriving DecidableEq, Repr

/-- A `dev_t`, as `makedev` builds it from its two numbers. -/
structure Dev where
  major : UInt32
  minor : UInt32
  deriving DecidableEq, Repr

def makedev (major minor : UInt32) : Dev := ⟨major, minor⟩

/-- The system calls of `bootstrap.c`. -/
inductive Call where
  | mkdir (path : Buf) (mode : UInt32)
  | symlink (target path : Buf)
  | mknod (path : Buf) (mode : UInt32) (dev : Dev)
  | openFile (path : Buf) (flags : List OFlag) (mode : UInt32)
  | write (fd : ℤ) (buf : Buf)
  | close (fd : ℤ)
  | chmod (path : Buf) (mode : UInt32)
  | fsync (fd : ℤ)
  | lseek (fd : ℤ) (off : ℕ)
  | read (fd : ℤ) (count : ℕ)
  | malloc (size : ℕ)
  | mount (source target fstype data : Buf)
  | mountMove (target : Buf)
  | umount2 (target : Buf)
  | chdir (path : Buf)
  | pivotRoot (newRoot putOld : Buf)
  | dup2 (old new : ℤ)
  | reboot (cmd : ℕ)
  | execve (path : Buf) (argv envp : List Buf)
  | pause
  deriving DecidableEq, Repr

/-- A program over these calls. -/
abbrev Sys := Prog Call ℤ

/-- A finished run's calls with their answers. -/
abbrev Trace := List (Call × ℤ)

def sys (c : Call) : Sys ℤ := Prog.request c

/-- `L`: append `s` to the log and flush it, when there is a log. -/
def L (logfd : ℤ) (s : String) : Sys Unit :=
  if 0 ≤ logfd then do
    let _ ← sys (.write logfd (ascii s))
    let _ ← sys (.fsync logfd)
    pure ()
  else pure ()

/-! ### Memory -/

/-- The `n` bytes at offset `p` of `d`, which must lie inside `d`. -/
def readAt (d : Buf) (p n : ℕ) : Sys Buf :=
  if p + n ≤ d.length then pure (slice d p n) else .fault

/-- Fill a `char` array of size `cap` with `s` and a terminating NUL, which must
fit; what the program reads back is a C string. -/
def storeStr (cap : ℕ) (s : Buf) : Sys Buf :=
  if s.length < cap then pure (cstr s) else .fault

/-- `snprintf(buf, cap, "%s/%s", root, name)`: what does not fit is cut off. -/
def snprintf (cap : ℕ) (root name : Buf) : Buf := (root ++ ascii "/" ++ name).take (cap - 1)

/-! ### Header fields -/

/-- One round of the loop of `hx`. -/
def hxStep (v : UInt32) (c : UInt8) : UInt32 :=
  let v := v <<< 4
  if 48 ≤ c ∧ c ≤ 57 then v ||| (c - 48).toUInt32
  else if 97 ≤ c ∧ c ≤ 102 then v ||| (c - 97 + 10).toUInt32
  else if 65 ≤ c ∧ c ≤ 70 then v ||| (c - 65 + 10).toUInt32
  else v

/-- `hx`: eight hexadecimal digits; a byte that is no digit counts as `0`. -/
def hx (d : Buf) (p : ℕ) : Sys UInt32 := do
  let b ← readAt d p 8
  pure (b.foldl hxStep 0)

/-- `mode & S_IFMT`. -/
def fmt (mode : UInt32) : UInt32 := mode &&& 0o170000

def S_ISDIR (mode : UInt32) : Bool := fmt mode == 0o040000
def S_ISLNK (mode : UInt32) : Bool := fmt mode == 0o120000
def S_ISCHR (mode : UInt32) : Bool := fmt mode == 0o020000
def S_ISBLK (mode : UInt32) : Bool := fmt mode == 0o060000
def S_ISREG (mode : UInt32) : Bool := fmt mode == 0o100000

/-! ### Creating an entry -/

/-- The loop of `make_path`: `done` is the part of the path before `*p`. -/
def makePathLoop (done : Buf) : Buf → Sys Unit
  | [] => pure ()
  | c :: rest => do
    if c = 47 then
      let _ ← sys (.mkdir done 0o755)
    makePathLoop (done ++ [c]) rest

/-- `make_path`: `mkdir` every proper ancestor of `root/name`. -/
def makePath (root name : Buf) : Sys Unit :=
  let buf := snprintf 1024 root name
  makePathLoop (buf.take 1) (buf.drop 1)

/-- The loop that writes a file: `off` bytes have been accepted so far. -/
def writeLoop (f : ℤ) (d : Buf) (data filesize off : ℕ) : Sys Unit :=
  if off < filesize then do
    let buf ← readAt d (data + off) (filesize - off)
    let w ← sys (.write f buf)
    if _h : w ≤ 0 then pure () else writeLoop f d data filesize (off + w.toNat)
  else pure ()
termination_by filesize - off

/-- What `unpack_cpio` does for one entry, from the `snprintf` of its full path to
`files++`: `data` is the offset of the entry's data. -/
def unpackNode (root name d : Buf) (data : ℕ) (mode filesize rdevmaj rdevmin : UInt32) :
    Sys Unit := do
  let full := snprintf 2048 root name
  makePath root name
  if S_ISDIR mode then
    let _ ← sys (.mkdir full (mode &&& 0o7777))
  else if S_ISLNK mode then
    let tl := if filesize < 1023 then filesize.toNat else 1023
    let tgt ← readAt d data tl
    let tgt ← storeStr 1024 tgt
    let _ ← sys (.symlink tgt full)
  else if S_ISCHR mode || S_ISBLK mode then
    let _ ← sys (.mknod full mode (makedev rdevmaj rdevmin))
  else if S_ISREG mode then
    let f ← sys (.openFile full [.wronly, .creat, .trunc] (mode &&& 0o7777))
    if 0 ≤ f then
      writeLoop f d data filesize.toNat 0
      let _ ← sys (.close f)
      let _ ← sys (.chmod full (mode &&& 0o7777))

/-! ### The main loop -/

/-- The resync scan: the first offset from `q` on where the magic matches and a
whole header is left. -/
def resync (d : Buf) (p q : ℕ) (hq : p < q) : Sys (Option {r : ℕ // p < r}) :=
  if q + 110 ≤ d.length then do
    let m ← readAt d q 6
    if m = magic then pure (some ⟨q, hq⟩)
    else resync d p (q + 1) (Nat.lt_succ_of_lt hq)
  else pure none
termination_by d.length - q

/-- The length of an entry before its padding: header, name and data. -/
def total (namesize filesize : UInt32) : ℕ := 110 + namesize.toNat + filesize.toNat

/-- `strncmp(name, "./", 2) == 0`, then `memmove` over it. -/
def dropDotSlash (name : Buf) : Buf := if name.take 2 = ascii "./" then name.drop 2 else name

/-- The `while` loop of `unpack_cpio` with the cursor at `p`. -/
def unpackLoop (logfd : ℤ) (root d : Buf) (p : ℕ) : Sys ℤ :=
  if hp : p + 110 ≤ d.length then do
    let m ← readAt d p 6
    if m ≠ magic then
      match ← resync d p (p + 1) (Nat.lt_succ_self p) with
      | none => do
        L logfd "no resync\n"
        pure (-1)
      | some q => unpackLoop logfd root d q
    else
      let mode ← hx d (p + 14)
      let filesize ← hx d (p + 54)
      let rdevmaj ← hx d (p + 78)
      let rdevmin ← hx d (p + 86)
      let namesize ← hx d (p + 94)
      if namesize = 0 ∨ 1024 ≤ namesize then
        L logfd "bad namesize\n"
        pure (-2)
      else if d.length - p < total namesize filesize then
        L logfd "overflow\n"
        pure (-3)
      else
        let raw ← readAt d (p + 110) (namesize.toNat - 1)
        let name ← storeStr 1024 raw
        if name = ascii "TRAILER!!!" then
          L logfd "unpack done\n"
          pure 0
        else
          unpackNode root (dropDotSlash name) d (p + 110 + namesize.toNat) mode filesize
            rdevmaj rdevmin
          unpackLoop logfd root d (p + (total namesize filesize + pad4 (total namesize filesize)))
  else do
    L logfd "no trailer\n"
    pure (-4)
termination_by d.length - p
decreasing_by
  · have := q.2
    omega
  · unfold total
    omega

/-- `unpack_cpio(d, size, root)`. -/
def unpackCpio (logfd : ℤ) (d root : Buf) : Sys ℤ := unpackLoop logfd root d 0

/-- The length arithmetic of the loop stays below `2 ^ 64`. -/
theorem total_lt {namesize filesize : UInt32} (h : namesize < 1024) :
    total namesize filesize + pad4 (total namesize filesize) < 2 ^ 33 := by
  have h1 := filesize.toNat_lt
  have h2 : namesize.toNat < 1024 := UInt32.lt_iff_toNat_lt.1 h
  have h3 := pad4_lt (total namesize filesize)
  unfold total at *
  omega

end Bootstrap
end Twrp

/-
# Kernels with a file system

What a kernel may do when `unpack_cpio` asks it for something (`Answers`): it refuses, for
whatever reason, and nothing is changed; or it does what the call is for.  A write may take
fewer bytes than it was given, and an open file may come under any descriptor.  A kernel that
keeps to this (`Obeys`) may have more in its state than the file system.

`kernel` is the one that refuses only what the shape of the tree makes impossible.
-/

import Twrp.Bootstrap.Calls
import Twrp.Posix.Process

namespace Twrp
namespace Bootstrap

open Interaction Posix

/-- The calls that fill a directory and write the log. -/
def fills : Call → Bool
  | .mkdir .. | .symlink .. | .mknod .. | .write .. | .close _ | .chmod .. | .fsync _ => true
  | .openFile _ flags _ => flags = createFlags
  | _ => false

/-- Files are opened by a call that fills. -/
theorem fills_openFile (path : Buf) (mode : UInt32) : fills (.openFile path createFlags mode) := by
  simp [fills]

/-! ### What a kernel may answer -/

/-- In the world `w`, the kernel may answer the call with this number and leave that world. -/
inductive Answers (w : World) : Call → ℤ → World → Prop
  | refused {c : Call} {r : ℤ} (hr : r < 0) : Answers w c r w
  | mkdir {path : Path} {mode : UInt32} {w' : World} (h : w.mkdir path mode = some w') :
      Answers w (.mkdir path mode) 0 w'
  | symlink {target path : Path} {w' : World} (h : w.symlink target path = some w') :
      Answers w (.symlink target path) 0 w'
  | mknod {path : Path} {mode : UInt32} {dev : Dev} {w' : World}
      (h : w.mknod path mode dev.major dev.minor = some w') : Answers w (.mknod path mode dev) 0 w'
  | openFile {path : Path} {mode : UInt32} {fd : ℤ} {w' : World} (hfd : 0 ≤ fd)
      (h : w.openTrunc fd path mode = some w') : Answers w (.openFile path createFlags mode) fd w'
  | write {fd : ℤ} {buf : Buf} {n : ℕ} {w' : World} (hn : n ≤ buf.length)
      (h : w.write fd (buf.take n) = some w') : Answers w (.write fd buf) n w'
  | close {fd r : ℤ} : Answers w (.close fd) r (w.close fd)
  | chmod {path : Path} {mode : UInt32} {w' : World} (h : w.chmod path mode = some w') :
      Answers w (.chmod path mode) 0 w'
  | fsync {fd r : ℤ} : Answers w (.fsync fd) r w

namespace Answers

variable {w w' : World} {path target : Path} {mode : UInt32} {fd r : ℤ} {buf : Buf}

/-- A directory is made, or nothing is changed. -/
theorem of_mkdir (h : Answers w (.mkdir path mode) r w') :
    w' = w ∨ w.mkdir path mode = some w' := by
  cases h with
  | refused => exact .inl rfl
  | mkdir h => exact .inr h

/-- A symlink is made, or nothing is changed. -/
theorem of_symlink (h : Answers w (.symlink target path) r w') :
    w' = w ∨ w.symlink target path = some w' := by
  cases h with
  | refused => exact .inl rfl
  | symlink h => exact .inr h

/-- A node is made, or nothing is changed. -/
theorem of_mknod {dev : Dev} (h : Answers w (.mknod path mode dev) r w') :
    w' = w ∨ w.mknod path mode dev.major dev.minor = some w' := by
  cases h with
  | refused => exact .inl rfl
  | mknod h => exact .inr h

/-- A file is open under the descriptor that is answered, or nothing is changed. -/
theorem of_openFile {flags : List OFlag} (h : Answers w (.openFile path flags mode) r w') :
    r < 0 ∧ w' = w ∨ 0 ≤ r ∧ w.openTrunc r path mode = some w' := by
  cases h with
  | refused hr => exact .inl ⟨hr, rfl⟩
  | openFile hfd h => exact .inr ⟨hfd, h⟩

/-- Some of the bytes are written, from the first on, or none. -/
theorem of_write (h : Answers w (.write fd buf) r w') :
    w' = w ∨ ∃ n, w.write fd (buf.take n) = some w' := by
  cases h with
  | refused => exact .inl rfl
  | write _ h => exact .inr ⟨_, h⟩

/-- The descriptor is closed, or nothing is changed. -/
theorem of_close (h : Answers w (.close fd) r w') : w' = w ∨ some (w.close fd) = some w' := by
  cases h with
  | refused => exact .inl rfl
  | close => exact .inr rfl

/-- The mode is changed, or nothing is. -/
theorem of_chmod (h : Answers w (.chmod path mode) r w') :
    w' = w ∨ w.chmod path mode = some w' := by
  cases h with
  | refused => exact .inl rfl
  | chmod h => exact .inr h

/-- Nothing is changed. -/
theorem of_fsync (h : Answers w (.fsync fd) r w') : w' = w := by
  cases h <;> rfl

end Answers

/-- A kernel whose state has a world as a part, and whose answers to the calls that fill a
directory are those of a file system. -/
def Obeys {σ : Type} (kernel : σ → Call → ℤ × σ) (view : σ → World) : Prop :=
  ∀ s c, fills c → Answers (view s) c (kernel s c).1 (view (kernel s c).2)

/-! ### A kernel that does all it can -/

/-- The answer to a call that returns `0` or fails. -/
def answer (w : World) : Option World → ℤ × World
  | some w' => (0, w')
  | none => (-1, w)

/-- The calls of `unpack_cpio`, answered by a file system.  The calls it does not make
change nothing. -/
def kernel (w : World) : Call → ℤ × World
  | .mkdir path mode => answer w (w.mkdir path mode)
  | .symlink target path => answer w (w.symlink target path)
  | .mknod path mode dev => answer w (w.mknod path mode dev.major dev.minor)
  | .openFile path flags mode =>
    if flags = createFlags then
      match w.openTrunc w.nextFd path mode with
      | some w' => (w.nextFd, w')
      | none => (-1, w)
    else (-1, w)
  | .write fd buf =>
    match w.write fd buf with
    | some w' => (buf.length, w')
    | none => (-1, w)
  | .close fd => (0, w.close fd)
  | .chmod path mode => answer w (w.chmod path mode)
  | _ => (0, w)

/-- Doing what a call is for, and refusing where that is impossible. -/
theorem answers_answer {w : World} {c : Call} {o : Option World}
    (h : ∀ w', o = some w' → Answers w c 0 w') : Answers w c (answer w o).1 (answer w o).2 := by
  cases o with
  | none => exact .refused (show (-1 : ℤ) < 0 by decide)
  | some w' => exact h w' rfl

/-- **It is one of them.** -/
theorem kernel_obeys : Obeys kernel id := by
  intro w c hc
  cases c with
  | mkdir path mode => exact answers_answer fun _ => .mkdir
  | symlink target path => exact answers_answer fun _ => .symlink
  | mknod path mode dev => exact answers_answer fun _ => .mknod
  | chmod path mode => exact answers_answer fun _ => .chmod
  | openFile path flags mode =>
    obtain rfl : flags = createFlags := of_decide_eq_true hc
    simp only [id, kernel, if_true]
    split
    next w' h => exact .openFile (Int.natCast_nonneg _) h
    · exact .refused (show (-1 : ℤ) < 0 by decide)
  | write fd buf =>
    simp only [id, kernel]
    split
    next w' h => exact .write le_rfl (by rwa [List.take_length])
    · exact .refused (show (-1 : ℤ) < 0 by decide)
  | close fd => exact .close
  | fsync fd => exact .fsync
  | _ => exact absurd hc Bool.false_ne_true

/-- A kernel that does less: no device nodes and no modes, one byte at a time, and every file
under the same descriptor. -/
def grudging (w : World) : Call → ℤ × World
  | .mknod .. | .chmod .. => (-1, w)
  | .openFile path flags mode =>
    if flags = createFlags then
      match w.openTrunc 3 path mode with
      | some w' => (3, w')
      | none => (-1, w)
    else (-1, w)
  | .write fd buf =>
    match w.write fd (buf.take 1) with
    | some w' => ((buf.take 1).length, w')
    | none => (-1, w)
  | c => kernel w c

/-- **It is one of them,** too. -/
theorem grudging_obeys : Obeys grudging id := by
  intro w c hc
  cases c with
  | mknod | chmod => exact .refused (show (-1 : ℤ) < 0 by decide)
  | openFile path flags mode =>
    obtain rfl : flags = createFlags := of_decide_eq_true hc
    simp only [id, grudging, if_true]
    split
    next w' h => exact .openFile (show (0 : ℤ) ≤ 3 by decide) h
    · exact .refused (show (-1 : ℤ) < 0 by decide)
  | write fd buf =>
    simp only [id, grudging]
    split
    next w' h =>
      refine .write (List.length_take_le' ..) ?_
      rwa [List.length_take, ← List.take_eq_take_min]
    · exact .refused (show (-1 : ℤ) < 0 by decide)
  | _ => exact kernel_obeys w _ hc

/-- A call that is impossible leaves the world as it is. -/
theorem answer_snd (w : World) (o : Option World) : (answer w o).2 = o.getD w := by
  cases o <;> rfl

/-- A write that is possible takes all of the bytes. -/
theorem kernel_write {w w' : World} {fd : ℤ} {b : Buf} (h : w.write fd b = some w') :
    kernel w (.write fd b) = ((b.length : ℤ), w') := by
  simp only [kernel, h]

/-- A directory that cannot be made leaves everything as it is. -/
theorem kernel_mkdir_none {w : World} {p : Path} {mode : UInt32} (h : w.mkdir p mode = none) :
    (kernel w (.mkdir p mode)).2 = w := by
  rw [kernel, h]
  rfl

/-- A file that can be opened comes under the next descriptor. -/
theorem kernel_openFile {w w' : World} {path : Path} {mode : UInt32}
    (h : w.openTrunc w.nextFd path mode = some w') :
    kernel w (.openFile path createFlags mode) = ((w.nextFd : ℤ), w') := by
  simp only [kernel, if_true, h]

end Bootstrap
end Twrp

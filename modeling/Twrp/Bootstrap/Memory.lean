/-
# The arrays of `unpack_cpio`

`unpackCpio` says what `unpack_cpio` asks of the kernel.  This module says how it gets
there: with `char` arrays of fixed sizes whose contents are left over from before, with
`size_t` and `unsigned` sums that wrap, and with a loop that nothing but its own cursor
ends.  A store outside an array faults, and so does reading an array as a string that holds
no NUL.  A pointer into the buffer is its offset, and a read outside the buffer faults.

`pass_header` and `pass_resync` show that one pass of the loop does what the walk does,
whatever the arrays held, so no pass faults; `loop_eq` that the loop ends within as many
passes as the buffer has bytes, and is `unpackCpio`.
-/

import Twrp.Bootstrap.Calls

namespace Twrp
namespace Bootstrap

open Bytes Interaction Cpio

/-! ### Arrays -/

/-- The contents of a `char` array of size `n`. -/
structure CArray (n : ℕ) where
  bytes : Buf
  length_eq : bytes.length = n

/-- A string that a pointer to its first byte stands for. -/
structure CString where
  bytes : Buf
  zero_notMem : (0 : UInt8) ∉ bytes

namespace CArray

variable {n : ℕ}

/-- `memcpy(a + i, src, ..)`; `a[i] = b` is the case of one byte. -/
def memcpy (a : CArray n) (i : ℕ) (src : Buf) : Sys (CArray n) :=
  if h : i + src.length ≤ n then
    pure ⟨splice a.bytes i (i + src.length) src, by
      rw [length_splice (by omega) (by rw [a.length_eq]; exact h) (by omega), a.length_eq]⟩
  else .fault

/-- `a[i] = b`. -/
def store (a : CArray n) (i : ℕ) (b : UInt8) : Sys (CArray n) := a.memcpy i [b]

/-- `memmove(a, a + j, len)`. -/
def memmove (a : CArray n) (j len : ℕ) : Sys (CArray n) :=
  if j + len ≤ n then a.memcpy 0 (slice a.bytes j len) else .fault

/-- The array read as a string, up to its first NUL. -/
def str (a : CArray n) : Sys Buf := if (0 : UInt8) ∈ a.bytes then pure (cstr a.bytes) else .fault

/-- `snprintf(a, sizeof(a), "%s/%s", root, name)`. -/
def snprintf (a : CArray n) (root : CString) (name : Buf) : Sys (CArray n) :=
  a.memcpy 0 (Bootstrap.snprintf n root.bytes name ++ [0])

end CArray

/-- What the arrays hold: `name` and `full` of `unpack_cpio`, which live as long as the
loop, `tgt` of a symlink entry and `buf` of `make_path`, which begin with anything. -/
structure Stack where
  name : CArray 1024
  full : CArray 2048
  tgt : CArray 1024
  buf : CArray 1024

/-! ### The source over arrays -/

/-- The loop of `make_path`: `p` is the offset of the pointer into `buf`. -/
def makePathScan (buf : CArray 1024) (p : ℕ) : Sys Unit :=
  if h : p < 1024 then
    let c := buf.bytes.get ⟨p, by rw [buf.length_eq]; exact h⟩
    if c = 0 then pure ()
    else if c = 47 then do
      let cut ← buf.store p 0
      let path ← cut.str
      let _ ← sys (.mkdir path 0o755)
      let buf ← cut.store p 47
      makePathScan buf (p + 1)
    else makePathScan buf (p + 1)
  else .fault
termination_by 1024 - p

/-- `make_path`. -/
def makePathIn (buf : CArray 1024) (root : CString) (name : Buf) : Sys Unit := do
  let buf ← buf.snprintf root name
  makePathScan buf 1

/-- `110 + (size_t)namesize + filesize`. -/
def size (namesize filesize : UInt32) : UInt64 := 110 + namesize.toUInt64 + filesize.toUInt64

/-- `total + ((4 - total % 4) % 4)`. -/
def padded (total : UInt64) : UInt64 := total + ((4 - total % 4) % 4)

/-- The calls for an entry by its type, with its path in `full`. -/
def createIn (tgt : CArray 1024) (full : CArray 2048) (d : Buf) (data : ℕ)
    (mode filesize rdevmaj rdevmin : UInt32) : Sys Unit := do
  if S_ISDIR mode then
    let path ← full.str
    let _ ← sys (.mkdir path (mode &&& 0o7777))
  else if S_ISLNK mode then
    let tl := if filesize < 1023 then filesize.toNat else 1023
    let src ← readAt d data tl
    let tgt ← tgt.memcpy 0 src
    let tgt ← tgt.store tl 0
    let target ← tgt.str
    let path ← full.str
    let _ ← sys (.symlink target path)
  else if S_ISCHR mode || S_ISBLK mode then
    let path ← full.str
    let _ ← sys (.mknod path mode (makedev rdevmaj rdevmin))
  else if S_ISREG mode then
    let path ← full.str
    let f ← sys (.openFile path [.wronly, .creat, .trunc] (mode &&& 0o7777))
    if 0 ≤ f then
      writeLoop f d data filesize.toNat 0
      let _ ← sys (.close f)
      let path ← full.str
      let _ ← sys (.chmod path (mode &&& 0o7777))

/-- What `unpack_cpio` does for one entry, from the `snprintf` of its full path to `files++`. -/
def unpackNodeIn (m : Stack) (root : CString) (d : Buf) (data : ℕ)
    (mode filesize rdevmaj rdevmin : UInt32) : Sys Stack := do
  let name ← m.name.str
  let full ← m.full.snprintf root name
  makePathIn m.buf root name
  createIn m.tgt full d data mode filesize rdevmaj rdevmin
  pure { m with full := full }

/-- `strncmp(name, "./", 2) == 0`, then `memmove` over it; `s` is the string in `name`. -/
def dropDotSlashIn (name : CArray 1024) (s : Buf) : Sys (CArray 1024) :=
  if s.take 2 = ascii "./" then name.memmove 2 (s.length - 1) else pure name

/-- How a pass of the loop ends: `return rc`, or with the cursor at `p`. -/
inductive Pass where
  | done (rc : ℤ)
  | next (p : ℕ)
  deriving DecidableEq, Repr

/-- One pass of the `while` loop of `unpack_cpio`, its condition included, with the cursor
at `p`. -/
def pass (logfd : ℤ) (root : CString) (d : Buf) (m : Stack) (p : ℕ) : Sys (Pass × Stack) :=
  if p + 110 ≤ d.length then do
    let b ← readAt d p 6
    if b ≠ magic then
      match ← resync d p (p + 1) (Nat.lt_succ_self p) with
      | none => do
        L logfd "no resync\n"
        pure (.done (-1), m)
      | some q => pure (.next q, m)
    else
      let mode ← hx d (p + 14)
      let filesize ← hx d (p + 54)
      let rdevmaj ← hx d (p + 78)
      let rdevmin ← hx d (p + 86)
      let namesize ← hx d (p + 94)
      if namesize = 0 ∨ 1024 ≤ namesize then
        L logfd "bad namesize\n"
        pure (.done (-2), m)
      else if UInt64.ofNat (d.length - p) < size namesize filesize then
        L logfd "overflow\n"
        pure (.done (-3), m)
      else
        let src ← readAt d (p + 110) (namesize.toNat - 1)
        let name ← m.name.memcpy 0 src
        let name ← name.store (namesize - 1).toNat 0
        let s ← name.str
        if s = ascii "TRAILER!!!" then
          L logfd "unpack done\n"
          pure (.done 0, { m with name := name })
        else
          let name ← dropDotSlashIn name s
          let m ← unpackNodeIn { m with name := name } root d (p + 110 + namesize.toNat) mode
            filesize rdevmaj rdevmin
          pure (.next (p + (padded (size namesize filesize)).toNat), m)
  else do
    L logfd "no trailer\n"
    pure (.done (-4), m)

/-- The loop of `unpack_cpio`, for at most so many passes; `none` when they do not suffice. -/
def loop (logfd : ℤ) (root : CString) (d : Buf) : ℕ → Stack → ℕ → Sys (Option ℤ)
  | 0, _, _ => pure none
  | fuel + 1, m, p => do
    match ← pass logfd root d m p with
    | (.done rc, _) => pure (some rc)
    | (.next q, m) => loop logfd root d fuel m q

/-! ### What the arrays hold -/

namespace CArray

variable {n : ℕ}

/-- The array begins with `s` and a NUL. -/
def Holds (a : CArray n) (s : Buf) : Prop := ∃ junk, a.bytes = s ++ 0 :: junk

theorem Holds.length_lt {a : CArray n} {s : Buf} (h : a.Holds s) : s.length < n := by
  obtain ⟨junk, h⟩ := h
  have := a.length_eq
  rw [h, List.length_append, List.length_cons] at this
  omega

theorem Holds.cstr {a : CArray n} {s : Buf} (h : a.Holds s) : a.Holds (Bytes.cstr s) := by
  obtain ⟨junk, h⟩ := h
  obtain ⟨y, hy⟩ := exists_eq_cstr_append s junk
  exact ⟨y, h.trans hy⟩

/-- A terminated array can be read as a string. -/
theorem Holds.str_eq {a : CArray n} {s : Buf} (h : a.Holds s) : a.str = .ret (Bytes.cstr s) := by
  obtain ⟨junk, h⟩ := h
  rw [str, h, if_pos (by simp), cstr_append_zero]
  rfl

/-- A copy inside the array. -/
theorem memcpy_eq (a : CArray n) {i : ℕ} {src : Buf} (h : i + src.length ≤ n) :
    ∃ a' : CArray n, a.memcpy i src = .ret a' ∧
      a'.bytes = a.bytes.take i ++ (src ++ a.bytes.drop (i + src.length)) := by
  refine ⟨_, dif_pos h, ?_⟩
  show splice a.bytes i (i + src.length) src = _
  rw [splice, Nat.max_eq_right (Nat.le_add_right ..), List.append_assoc]

/-- A store inside the array. -/
theorem store_eq (a : CArray n) {x y : Buf} {c : UInt8} (h : a.bytes = x ++ c :: y) (b : UInt8) :
    ∃ a' : CArray n, a.store x.length b = .ret a' ∧ a'.bytes = x ++ b :: y := by
  have hlen := a.length_eq
  rw [h, List.length_append, List.length_cons] at hlen
  obtain ⟨a', ha', hbytes⟩ := @memcpy_eq n a x.length [b]
    (by rw [List.length_singleton]; omega)
  refine ⟨a', ha', hbytes.trans ?_⟩
  rw [h, List.take_left, ← List.drop_drop, List.drop_left]
  rfl

/-- Whatever the array held, after a copy and the NUL behind it it holds the string. -/
theorem memcpy_store_eq (a : CArray n) {src : Buf} (h : src.length < n) :
    ∃ a' : CArray n, (a.memcpy 0 src >>= fun a => a.store src.length 0) = .ret a' ∧
      a'.Holds src := by
  obtain ⟨b, hb, hbytes⟩ := @memcpy_eq n a 0 src (by omega)
  obtain ⟨c, hc, hbytes'⟩ := @memcpy_eq n b src.length [0] h
  rw [List.take_zero, List.nil_append] at hbytes
  rw [hbytes, List.take_left] at hbytes'
  exact ⟨c, by rw [hb]; exact hc, _, hbytes'⟩

/-- A string copied with its NUL. -/
theorem memcpy_string_eq (a : CArray n) {s : Buf} (h : s.length < n) :
    ∃ a' : CArray n, a.memcpy 0 (s ++ [0]) = .ret a' ∧ a'.Holds s := by
  obtain ⟨b, hb, hbytes⟩ := @memcpy_eq n a 0 (s ++ [0])
    (by rw [List.length_append, List.length_singleton]; omega)
  rw [List.take_zero, List.nil_append, List.append_assoc, List.singleton_append] at hbytes
  exact ⟨b, hb, _, hbytes⟩

/-- `memmove` to the front takes the front away. -/
theorem memmove_eq {a : CArray n} {s : Buf} (h : a.Holds s) {j : ℕ} (hj : j ≤ s.length) :
    ∃ a' : CArray n, a.memmove j (s.length - j + 1) = .ret a' ∧ a'.Holds (s.drop j) := by
  have hlt := h.length_lt
  obtain ⟨junk, h⟩ := h
  have hsrc : slice a.bytes j (s.length - j + 1) = s.drop j ++ [0] := by
    rw [h, slice, List.drop_append_of_le_length hj, ← List.length_drop, ← List.singleton_append,
      ← List.append_assoc, List.take_left' (by simp)]
  obtain ⟨b, hb, hholds⟩ := @memcpy_string_eq n a (s.drop j) (by rw [List.length_drop]; omega)
  exact ⟨b, by rw [memmove, if_pos (by omega), hsrc, hb], hholds⟩

/-- `snprintf` terminates what it writes. -/
theorem snprintf_eq (a : CArray n) (hn : 0 < n) (root : CString) (name : Buf) :
    ∃ a' : CArray n, a.snprintf root name = .ret a' ∧
      a'.Holds (Bootstrap.snprintf n root.bytes name) := by
  have hlen : (Bootstrap.snprintf n root.bytes name).length ≤ n - 1 := List.length_take_le ..
  exact a.memcpy_string_eq (by omega)

/-- A string without a NUL is cut off to one. -/
theorem cstr_snprintf {root : CString} {name : Buf} (h : (0 : UInt8) ∉ name) :
    Bytes.cstr (Bootstrap.snprintf n root.bytes name) = Bootstrap.snprintf n root.bytes name := by
  refine cstr_of_notMem fun h0 => ?_
  rcases List.mem_append.1 (List.mem_of_mem_take h0) with h0 | h0
  · rcases List.mem_append.1 h0 with h0 | h0
    · exact root.zero_notMem h0
    · exact absurd h0 (by decide)
  · exact h h0

end CArray

/-! ### `make_path` -/

/-- The loop of `make_path` goes through the string in `buf`, and leaves it as it was at
every step. -/
theorem makePathScan_eq {rest : Buf} {buf : CArray 1024} {front junk : Buf}
    (hbytes : buf.bytes = front ++ (rest ++ 0 :: junk)) (h0 : (0 : UInt8) ∉ front ++ rest) :
    makePathScan buf front.length = makePathLoop front rest := by
  induction rest generalizing front buf with
  | nil =>
    have hlen := buf.length_eq
    rw [hbytes] at hlen
    simp only [List.length_append, List.length_cons, List.nil_append] at hlen
    have hc : buf.bytes.get ⟨front.length, by rw [buf.length_eq]; omega⟩ = 0 := by
      simp [hbytes]
    rw [makePathScan, dif_pos (by omega), makePathLoop]
    exact if_pos hc
  | cons c rest ih =>
    have hlen := buf.length_eq
    rw [hbytes] at hlen
    simp only [List.length_append, List.length_cons] at hlen
    have hc : buf.bytes.get ⟨front.length, by rw [buf.length_eq]; omega⟩ = c := by
      simp [hbytes]
    have hc0 : c ≠ 0 := by
      rintro rfl
      simp at h0
    have hnext : front.length + 1 = (front ++ [c]).length := by simp
    have hsnoc : front ++ (c :: rest ++ 0 :: junk) = front ++ [c] ++ (rest ++ 0 :: junk) := by simp
    have h0' : (0 : UInt8) ∉ front ++ [c] ++ rest := by rwa [List.append_assoc]
    rw [makePathScan, dif_pos (by omega), makePathLoop]
    dsimp only
    rw [hc, if_neg hc0]
    by_cases hslash : c = 47
    · -- the string is cut off at the slash, and put together again
      obtain ⟨cut, hcut, hcutb⟩ := buf.store_eq hbytes 0
      obtain ⟨back, hback, hbackb⟩ := cut.store_eq hcutb 47
      have hpath : cut.str = .ret front := by
        rw [CArray.Holds.str_eq ⟨_, hcutb⟩, cstr_of_notMem fun h => h0 (List.mem_append_left _ h)]
      have hback' : back.bytes = front ++ [c] ++ (rest ++ 0 :: junk) := by
        rw [hbackb, ← hsnoc, hslash]
        rfl
      rw [if_pos hslash, if_pos hslash, hcut, Prog.ret_bind, hpath, Prog.ret_bind]
      simp only [hback, Prog.ret_bind]
      rw [hnext, ih hback' h0']
    · rw [if_neg hslash, if_neg hslash, hnext]
      exact ih (hbytes.trans hsnoc) h0'

theorem makePathIn_eq (buf : CArray 1024) (root : CString) {name : Buf}
    (h0 : (0 : UInt8) ∉ name) : makePathIn buf root name = makePath root.bytes name := by
  obtain ⟨b, hb, junk, hbytes⟩ := buf.snprintf_eq (by omega) root name
  have hlen : 1 ≤ (snprintf 1024 root.bytes name).length := by
    simp only [snprintf, List.length_take, List.length_append, length_ascii]
    have : "/".length = 1 := by decide
    omega
  have hone : ((snprintf 1024 root.bytes name).take 1).length = 1 := by
    rw [List.length_take]
    omega
  have hclean : (0 : UInt8) ∉ snprintf 1024 root.bytes name := by
    rw [← CArray.cstr_snprintf h0]
    exact zero_notMem_cstr _
  have hscan := @makePathScan_eq ((snprintf 1024 root.bytes name).drop 1) b
    ((snprintf 1024 root.bytes name).take 1) junk
    (by rw [hbytes, ← List.append_assoc, List.take_append_drop])
    (by rwa [List.take_append_drop])
  rw [hone] at hscan
  rw [makePathIn, hb, Prog.ret_bind, hscan, makePath]

/-! ### One entry -/

/-- The arrays make no difference to the calls for an entry. -/
theorem createIn_eq (tgt : CArray 1024) {full : CArray 2048} {root name d : Buf} {data : ℕ}
    {filesize : UInt32} (mode rdevmaj rdevmin : UInt32)
    (hfull : full.str = .ret (snprintf 2048 root name)) (hdata : data + filesize.toNat ≤ d.length) :
    (makePath root name >>= fun _ => createIn tgt full d data mode filesize rdevmaj rdevmin) =
      unpackNode root name d data mode filesize rdevmaj rdevmin := by
  rw [unpackNode]
  refine congrArg (makePath root name >>= ·) (funext fun _ => ?_)
  rw [createIn]
  by_cases h1 : S_ISDIR mode
  · rw [if_pos h1, if_pos h1, hfull]
    rfl
  rw [if_neg h1, if_neg h1]
  by_cases h2 : S_ISLNK mode
  · have hlt : filesize < 1023 ↔ filesize.toNat < 1023 := UInt32.lt_iff_toNat_lt
    obtain ⟨tl, htl, hle, hle'⟩ : ∃ tl, (if filesize < 1023 then filesize.toNat else 1023) = tl ∧
        tl ≤ 1023 ∧ tl ≤ filesize.toNat := by
      by_cases h : filesize < 1023
      · exact ⟨_, if_pos h, (hlt.1 h).le, le_rfl⟩
      · exact ⟨_, if_neg h, le_rfl, not_lt.1 (mt hlt.2 h)⟩
    have hsrc : (slice d data tl).length = tl := by
      rw [length_slice]
      omega
    obtain ⟨t, ht, hholds⟩ := @CArray.memcpy_store_eq 1024 tgt (slice d data tl) (by omega)
    rw [hsrc] at ht
    rw [if_pos h2, if_pos h2]
    dsimp only
    rw [htl, readAt_eq (by omega), Prog.ret_bind, Prog.ret_bind, ← Prog.bind_assoc, ht,
      Prog.ret_bind, hholds.str_eq, Prog.ret_bind, hfull, storeStr, if_pos (by omega)]
    rfl
  rw [if_neg h2, if_neg h2]
  by_cases h3 : S_ISCHR mode || S_ISBLK mode
  · rw [if_pos h3, if_pos h3, hfull]
    rfl
  rw [if_neg h3, if_neg h3]
  by_cases h4 : S_ISREG mode
  · rw [if_pos h4, if_pos h4, hfull]
    rfl
  · rw [if_neg h4, if_neg h4]

/-- **One entry over the arrays.**  Whatever they held, with the name in place nothing is
stored or read outside them, and the kernel is asked for the same. -/
theorem unpackNodeIn_eq {m : Stack} (root : CString) {d name : Buf} {data : ℕ}
    {filesize : UInt32} (mode rdevmaj rdevmin : UInt32) (hname : m.name.Holds name)
    (h0 : (0 : UInt8) ∉ name) (hdata : data + filesize.toNat ≤ d.length) :
    ∃ m', unpackNodeIn m root d data mode filesize rdevmaj rdevmin =
      (unpackNode root.bytes name d data mode filesize rdevmaj rdevmin >>= fun _ => .ret m') := by
  obtain ⟨full, hfull, hholds⟩ := m.full.snprintf_eq (by omega) root name
  have hstr : full.str = .ret (snprintf 2048 root.bytes name) := by
    rw [hholds.str_eq, CArray.cstr_snprintf h0]
  refine ⟨{ m with full := full }, ?_⟩
  rw [unpackNodeIn, hname.str_eq, Prog.ret_bind, cstr_of_notMem h0, hfull, Prog.ret_bind,
    makePathIn_eq m.buf root h0, ← createIn_eq m.tgt mode rdevmaj rdevmin hstr hdata,
    Prog.bind_assoc]
  rfl

/-! ### The length arithmetic -/

/-- **No sum wraps.**  The sums of `size_t` are sums of numbers. -/
theorem toNat_size (namesize filesize : UInt32) :
    (size namesize filesize).toNat = total namesize filesize := by
  have h1 := namesize.toNat_lt
  have h2 := filesize.toNat_lt
  rw [size, total, UInt64.toNat_add, UInt64.toNat_add, UInt32.toNat_toUInt64,
    UInt32.toNat_toUInt64, show (110 : UInt64).toNat = 110 from rfl]
  omega

theorem toNat_padded (namesize filesize : UInt32) :
    (padded (size namesize filesize)).toNat =
      total namesize filesize + pad4 (total namesize filesize) := by
  have h1 := namesize.toNat_lt
  have h2 := filesize.toNat_lt
  have hmod : (size namesize filesize % 4).toNat = total namesize filesize % 4 := by
    rw [UInt64.toNat_mod, toNat_size, show (4 : UInt64).toNat = 4 from rfl]
  have hle : size namesize filesize % 4 ≤ 4 := by
    rw [UInt64.le_iff_toNat_le, hmod, show (4 : UInt64).toNat = 4 from rfl]
    omega
  rw [padded, UInt64.toNat_add, UInt64.toNat_mod, UInt64.toNat_sub_of_le _ _ hle, hmod, toNat_size,
    show (4 : UInt64).toNat = 4 from rfl, pad4]
  unfold total
  omega

/-! ### The loop -/

/-- A leading `./` is moved out of the array. -/
theorem dropDotSlashIn_eq {name : CArray 1024} {s : Buf} (h : name.Holds s) :
    ∃ name' : CArray 1024, dropDotSlashIn name s = .ret name' ∧ name'.Holds (dropDotSlash s) := by
  rw [dropDotSlashIn, dropDotSlash]
  by_cases hdot : s.take 2 = ascii "./"
  · have hlen : 2 ≤ s.length := by
      have := congrArg List.length hdot
      rw [List.length_take, length_ascii, show "./".length = 2 from rfl] at this
      omega
    obtain ⟨name', hmove, hholds⟩ := CArray.memmove_eq h hlen
    rw [if_pos hdot, if_pos hdot, show s.length - 1 = s.length - 2 + 1 by omega]
    exact ⟨name', hmove, hholds⟩
  · rw [if_neg hdot, if_neg hdot]
    exact ⟨name, rfl, h⟩

theorem zero_notMem_dropDotSlash {s : Buf} (h : (0 : UInt8) ∉ s) :
    (0 : UInt8) ∉ dropDotSlash s := by
  rw [dropDotSlash]
  split_ifs
  · exact fun h0 => h (List.mem_of_mem_drop h0)
  · exact h

theorem finish_bind {α : Type} (logfd code : ℤ) (f : ℤ → Sys α) :
    (finish logfd code >>= f) = (L logfd (message code) >>= fun _ => f code) := by
  rw [finish, Prog.bind_assoc]
  rfl

/-- The name is copied, terminated and read back. -/
theorem copyName_eq (a : CArray 1024) {d : Buf} {p : ℕ} (h0 : field (d.drop p) 94 ≠ 0)
    (hns : ¬ 1024 ≤ field (d.drop p) 94)
    (hlen : p + 110 + (field (d.drop p) 94).toNat ≤ d.length) :
    ∃ name : CArray 1024, name.str = .ret (rawName (d.drop p)) ∧
      name.Holds (rawName (d.drop p)) ∧
      ∀ {β : Type} (k : CArray 1024 → Sys β),
        (readAt d (p + 110) ((field (d.drop p) 94).toNat - 1) >>= fun src =>
          a.memcpy 0 src >>= fun b =>
            b.store (field (d.drop p) 94 - 1).toNat 0 >>= k) = k name := by
  have hns' : (field (d.drop p) 94).toNat < 1024 := UInt32.lt_iff_toNat_lt.1 (UInt32.not_le.1 hns)
  have hpos : 0 < (field (d.drop p) 94).toNat := Nat.pos_of_ne_zero fun h =>
    h0 (UInt32.toNat_inj.1 h)
  have hone : (1 : UInt32) ≤ field (d.drop p) 94 := UInt32.le_iff_toNat_le.2 hpos
  have hsrc : (slice d (p + 110) ((field (d.drop p) 94).toNat - 1)).length =
      (field (d.drop p) 94 - 1).toNat := by
    rw [length_slice, UInt32.toNat_sub_of_le _ _ hone]
    show _ = (field (d.drop p) 94).toNat - 1
    omega
  have hraw : cstr (slice d (p + 110) ((field (d.drop p) 94).toNat - 1)) = rawName (d.drop p) := by
    rw [rawName, slice_drop]
  obtain ⟨name, hname, hheld⟩ := @CArray.memcpy_store_eq 1024 a
    (slice d (p + 110) ((field (d.drop p) 94).toNat - 1)) (by rw [length_slice]; omega)
  rw [hsrc] at hname
  refine ⟨name, by rw [hheld.str_eq, hraw], hraw ▸ hheld.cstr, fun k => ?_⟩
  rw [readAt_eq (by omega), Prog.ret_bind, ← Prog.bind_assoc, hname, Prog.ret_bind]

/-- The pass over a header. -/
theorem pass_header (logfd : ℤ) (root : CString) {d : Buf} (hd : d.length < 2 ^ 64) (m : Stack)
    {p : ℕ} (hp : p + 110 ≤ d.length) (hm : magic <+: d.drop p) :
    ∃ m', pass logfd root d m p =
      let s := d.drop p
      if field s 94 = 0 ∨ 1024 ≤ field s 94 then
        finish logfd (-2) >>= fun rc => .ret (.done rc, m')
      else if s.length < total (field s 94) (field s 54) then
        finish logfd (-3) >>= fun rc => .ret (.done rc, m')
      else if rawName s = ascii "TRAILER!!!" then
        finish logfd 0 >>= fun rc => .ret (.done rc, m')
      else visit root.bytes d (stopAt p s) >>= fun _ => .ret (.next (p + advance s), m') := by
  unfold pass
  rw [if_pos hp, readAt_eq (by omega), Prog.ret_bind, if_neg (not_not.2 (slice_eq_magic_iff.2 hm))]
  simp only [hx_eq (show p + 14 + 8 ≤ d.length by omega),
    hx_eq (show p + 54 + 8 ≤ d.length by omega),
    hx_eq (show p + 78 + 8 ≤ d.length by omega), hx_eq (show p + 86 + 8 ≤ d.length by omega),
    hx_eq (show p + 94 + 8 ≤ d.length by omega), Prog.ret_bind, List.length_drop, finish_bind]
  by_cases h1 : field (d.drop p) 94 = 0 ∨ 1024 ≤ field (d.drop p) 94
  · refine ⟨m, ?_⟩
    rw [if_pos h1, if_pos h1]
    rfl
  have hover : UInt64.ofNat (d.length - p) < size (field (d.drop p) 94) (field (d.drop p) 54) ↔
      d.length - p < total (field (d.drop p) 94) (field (d.drop p) 54) := by
    rw [UInt64.lt_iff_toNat_lt, toNat_size, UInt64.toNat_ofNat_of_lt' (by rw [UInt64.size]; omega)]
  simp only [if_neg h1, hover]
  by_cases h2 : d.length - p < total (field (d.drop p) 94) (field (d.drop p) 54)
  · refine ⟨m, ?_⟩
    rw [if_pos h2, if_pos h2]
    rfl
  simp only [if_neg h2]
  obtain ⟨h0, hns⟩ := not_or.1 h1
  unfold total at h2
  obtain ⟨name, hstr, hheld, hcopy⟩ := copyName_eq m.name h0 hns (by omega)
  rw [hcopy, hstr, Prog.ret_bind]
  by_cases h3 : rawName (d.drop p) = ascii "TRAILER!!!"
  · refine ⟨{ m with name := name }, ?_⟩
    rw [if_pos h3, if_pos h3]
    rfl
  rw [if_neg h3]
  simp only [if_neg h3]
  obtain ⟨name', hdrop, hheld'⟩ := dropDotSlashIn_eq hheld
  obtain ⟨m', hnode⟩ := @unpackNodeIn_eq { m with name := name' } root d _
    (p + 110 + (field (d.drop p) 94).toNat) (field (d.drop p) 54) (field (d.drop p) 14)
    (field (d.drop p) 78) (field (d.drop p) 86) hheld'
    (zero_notMem_dropDotSlash (zero_notMem_cstr _)) (by omega)
  refine ⟨m', ?_⟩
  rw [hdrop, Prog.ret_bind, hnode, toNat_padded, Prog.bind_assoc]
  rfl

/-- The pass without a header. -/
theorem pass_resync (logfd : ℤ) (root : CString) {d : Buf} (m : Stack) {p : ℕ}
    (hp : p + 110 ≤ d.length) (hm : ¬ magic <+: d.drop p) :
    pass logfd root d m p =
      match seek magic 110 (d.drop (p + 1)) with
      | none => finish logfd (-1) >>= fun rc => .ret (.done rc, m)
      | some s' => .ret (.next (d.length - s'.length), m) := by
  unfold pass
  rw [if_pos hp, readAt_eq (by omega), Prog.ret_bind, if_pos (mt slice_eq_magic_iff.1 hm)]
  obtain ⟨hnone, hsome⟩ := resync_eq d p (p + 1) (Nat.lt_succ_self p)
  cases hs : seek magic 110 (d.drop (p + 1)) with
  | none =>
    rw [hnone hs, finish_bind]
    rfl
  | some s' =>
    obtain ⟨h, hres⟩ := hsome s' hs
    rw [hres]
    rfl

theorem pass_end (logfd : ℤ) (root : CString) {d : Buf} (m : Stack) {p : ℕ}
    (hp : ¬ p + 110 ≤ d.length) :
    pass logfd root d m p = (finish logfd (-4) >>= fun rc => .ret (.done rc, m)) := by
  unfold pass
  rw [if_neg hp, finish_bind]
  rfl

/-- **The loop over arrays is `unpackLoop`,** when it may make as many passes as bytes are
left of the buffer, and one. -/
theorem loop_eq (logfd : ℤ) (root : CString) {d : Buf} (hd : d.length < 2 ^ 64) {fuel : ℕ}
    (m : Stack) {p : ℕ} (hfuel : d.length - p < fuel) :
    loop logfd root d fuel m p =
      (unpackLoop logfd root.bytes d p >>= fun rc => .ret (some rc)) := by
  induction fuel generalizing m p with
  | zero => exact absurd hfuel (Nat.not_lt_zero _)
  | succ fuel ih =>
    rw [loop]
    by_cases hp : p + 110 ≤ d.length
    swap
    · have hend : unpackLoop logfd root.bytes d p = finish logfd (-4) := by
        rw [unpackLoop, dif_neg hp]
        rfl
      rw [pass_end logfd root m hp, Prog.bind_assoc, hend]
      rfl
    by_cases hm : magic <+: d.drop p
    · obtain ⟨m', hpass⟩ := pass_header logfd root hd m hp hm
      rw [hpass, unpackLoop_header hp hm]
      dsimp only
      split_ifs
      · rw [Prog.bind_assoc]
        rfl
      · rw [Prog.bind_assoc]
        rfl
      · rw [Prog.bind_assoc]
        rfl
      · have hadv := advance_pos (d.drop p)
        rw [Prog.bind_assoc, Prog.bind_assoc]
        refine congrArg (visit root.bytes d (stopAt p (d.drop p)) >>= ·) (funext fun _ => ?_)
        exact ih m' (by omega)
    · rw [pass_resync logfd root m hp hm, unpackLoop_resync hp hm]
      cases hs : seek magic 110 (d.drop (p + 1)) with
      | none =>
        dsimp only
        rw [Prog.bind_assoc]
        rfl
      | some s' =>
        have hle := (seek_spec hs).1.length_le
        rw [List.length_drop] at hle
        exact ih m (by omega)

end Bootstrap
end Twrp

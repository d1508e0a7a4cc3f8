/-
# `lz4.c`: the buffers of the decoder

`LZ4_decompress_generic` reads `src`, writes `dst` and reads back what it wrote, what
stands in front of `dst` when there is a prefix, and an external dictionary.  Here `src`
and the dictionary are lists of bytes, and the output is one list: the prefix, `start`
bytes of it, and behind it the `outputSize` bytes of `dst`.  A pointer is a region and
an offset, `Ptr`; a read outside its region faults, a write outside `dst` faults, and so
does a `memcpy` whose two regions overlap without being the same.  A fault is `none`.

The copies of constant width that run past the end of what is wanted (`LZ4_wildCopy8`,
`LZ4_wildCopy32`, on aarch64 `LZ4_wildCopy64`) are one loop with two parameters, as is the
copy for small offsets.  The machine is little-endian and 64 bits wide.
-/

import Twrp.Bytes.Slice

namespace Twrp
namespace Lz4

open Bytes

/-- `earlyEnd_directive`. -/
inductive EarlyEnd
  | decodeFullBlock
  | partialDecode
  deriving DecidableEq

/-- `dict_directive`, as far as the decoder uses it. -/
inductive DictDirective
  | noDict
  | withPrefix64k
  | usingExtDict
  deriving DecidableEq

/-- What `LZ4_decompress_generic` does not change: its arguments, and where the two
buffers are. -/
structure Params where
  /-- The compressed block, `srcSize` bytes. -/
  src : List UInt8
  /-- The external dictionary, empty when there is none. -/
  dictionary : List UInt8
  /-- How many bytes in front of `dst` belong to the prefix. -/
  start : ℕ
  /-- The capacity of `dst`. -/
  outputSize : ℕ
  partialDecoding : EarlyEnd
  dict : DictDirective
  /-- Whether the code is the one for `__aarch64__`. -/
  aarch64 : Bool
  srcAddr : ℕ
  dstAddr : ℕ

namespace Params

/-- The end of the output, counted from the start of the prefix. -/
def oend (F : Params) : ℕ := F.start + F.outputSize

/-- The end of the input. -/
def iend (F : Params) : ℕ := F.src.length

def dictSize (F : Params) : ℕ := F.dictionary.length

/-- Where the prefix begins; for `withPrefix64k` the callers say 64 KB in front of `dst`. -/
def lowPrefix (F : Params) : ℤ := if F.dict = .withPrefix64k then F.start - 65536 else 0

/-- `(uptrval)p + length < (uptrval)p`, for a pointer into `src`. -/
def srcWraps (F : Params) (ip length : ℕ) : Bool :=
  (F.srcAddr + ip + length) % 2 ^ 64 < F.srcAddr + ip

/-- The same for a pointer into the output. -/
def dstWraps (F : Params) (op length : ℕ) : Bool :=
  (F.dstAddr + op + length) % 2 ^ 64 < F.dstAddr + op

end Params

/-- The output: the prefix and `dst`. -/
abbrev Mem := List UInt8

/-- A pointer: into the input, into the dictionary, or into the output. -/
inductive Ptr
  | src (i : ℤ)
  | dict (i : ℤ)
  | out (i : ℤ)

/-- `p + k`. -/
def Ptr.add : Ptr → ℤ → Ptr
  | .src i, k => .src (i + k)
  | .dict i, k => .dict (i + k)
  | .out i, k => .out (i + k)

/-- `n` bytes of a buffer. -/
def loadFrom (buf : List UInt8) (i : ℤ) (n : ℕ) : Option (List UInt8) :=
  if 0 ≤ i ∧ i + n ≤ buf.length then some (slice buf i.toNat n) else none

/-- `n` bytes at `p`. -/
def load (F : Params) (m : Mem) : Ptr → ℕ → Option (List UInt8)
  | .src i, n => loadFrom F.src i n
  | .dict i, n => loadFrom F.dictionary i n
  | .out i, n => loadFrom m i n

/-- `bs` into the output at `d`, which has to be inside `dst`. -/
def store (F : Params) (m : Mem) (d : ℕ) (bs : List UInt8) : Option Mem :=
  if F.start ≤ d ∧ d + bs.length ≤ F.oend ∧ F.oend ≤ m.length then
    some (splice m d (d + bs.length) bs)
  else none

/-- Whether `n` bytes at `d` and at `p` overlap without being the same. -/
def overlaps (d : ℕ) (p : Ptr) (n : ℕ) : Bool :=
  match p with
  | .out i => (i < d ∧ d < i + n) ∨ (d < i ∧ i < d + n)
  | _ => false

/-- `LZ4_memmove(op, p, n)`. -/
def memmove (F : Params) (m : Mem) (d : ℕ) (p : Ptr) (n : ℕ) : Option Mem :=
  (load F m p n).bind (store F m d)

/-- `LZ4_memcpy(op, p, n)`. -/
def memcpy (F : Params) (m : Mem) (d : ℕ) (p : Ptr) (n : ℕ) : Option Mem :=
  if overlaps d p n then none else memmove F m d p n

/-- `n` times `*op++ = *p++`. -/
def copyBytes (F : Params) : ℕ → Mem → ℕ → Ptr → Option Mem
  | 0, m, _, _ => some m
  | n + 1, m, d, p => (memcpy F m d p 1).bind fun m => copyBytes F n m (d + 1) (p.add 1)

/-- `k` copies of `c` bytes each. -/
def copyChunks (F : Params) (c : ℕ) : ℕ → Mem → ℕ → Ptr → Option Mem
  | 0, m, _, _ => some m
  | k + 1, m, d, p => (memcpy F m d p c).bind fun m => copyChunks F c k m (d + c) (p.add c)

/-- `do { k copies of c bytes; } while (d < e);`, as long as there is fuel. -/
def wildCopyLoop (F : Params) (c k : ℕ) : ℕ → Mem → ℕ → Ptr → ℕ → Option Mem
  | 0, _, _, _, _ => none
  | fuel + 1, m, d, p, e =>
    (copyChunks F c k m d p).bind fun m =>
      if d + k * c < e then wildCopyLoop F c k fuel m (d + k * c) (p.add (k * c)) e else some m

/-- `LZ4_wildCopy8`. -/
def wildCopy8 (F : Params) (m : Mem) (d : ℕ) (p : Ptr) (e : ℕ) : Option Mem :=
  wildCopyLoop F 8 1 (e - d + 1) m d p e

/-- `LZ4_wildCopy32`: twice 16 bytes. -/
def wildCopy32 (F : Params) (m : Mem) (d : ℕ) (p : Ptr) (e : ℕ) : Option Mem :=
  wildCopyLoop F 16 2 (e - d + 1) m d p e

/-- `LZ4_wildCopy64`. -/
def wildCopy64 (F : Params) (m : Mem) (d : ℕ) (p : Ptr) (e : ℕ) : Option Mem :=
  wildCopyLoop F 64 1 (e - d + 1) m d p e

/-- `inc32table`. -/
def inc32table : List ℤ := [0, 1, 2, 1, 0, 4, 4, 4]

/-- `dec64table`. -/
def dec64table : List ℤ := [0, 0, 0, -1, -4, 1, 2, 3]

/-- `LZ4_memcpy_using_offset_base`. -/
def memcpyUsingOffsetBase (F : Params) (m : Mem) (d : ℕ) (p : Ptr) (e offset : ℕ) :
    Option Mem :=
  if offset < 8 then do
    let m ← store F m d (zeros 4)
    let m ← memcpy F m d p 2
    let m ← memcpy F m (d + 2) (p.add 2) 2
    let p := p.add (inc32table.getD offset 0)
    let m ← memcpy F m (d + 4) p 4
    let p := p.add (-dec64table.getD offset 0)
    wildCopy8 F m (d + 8) p e
  else do
    let m ← memcpy F m d p 8
    wildCopy8 F m (d + 8) (p.add 8) e

/-- `while (dstPtr < dstEnd) { LZ4_memcpy(dstPtr, v, 8); dstPtr += 8; }`. -/
def fillLoop (F : Params) (v : List UInt8) : ℕ → Mem → ℕ → ℕ → Option Mem
  | 0, _, _, _ => none
  | fuel + 1, m, d, e =>
    if d < e then (store F m d v).bind fun m => fillLoop F v fuel m (d + 8) e else some m

/-- The end of `LZ4_memcpy_using_offset`: the eight bytes `v` over and over. -/
def fillUsing (F : Params) (m : Mem) (d e : ℕ) (v : List UInt8) : Option Mem :=
  (store F m d v).bind fun m => fillLoop F v (e - (d + 8) + 1) m (d + 8) e

/-- `LZ4_memcpy_using_offset`. -/
def memcpyUsingOffset (F : Params) (m : Mem) (d : ℕ) (p : Ptr) (e offset : ℕ) : Option Mem :=
  match offset with
  | 1 => do
    let b ← load F m p 1
    fillUsing F m d e (b ++ b ++ b ++ b ++ b ++ b ++ b ++ b)
  | 2 => do
    let b ← load F m p 2
    fillUsing F m d e (b ++ b ++ (b ++ b))
  | 4 => do
    let b ← load F m p 4
    fillUsing F m d e (b ++ b)
  | offset => memcpyUsingOffsetBase F m d p e offset

end Lz4
end Twrp

/-
# `lz4.c`: `LZ4_decompress_generic`

The decoder has two loops.  The fast one runs while 64 bytes of room are left and copies
literals and matches in pieces of 16 or 32 bytes, past their ends; whatever it cannot do
that way it hands over to the safe loop, by a jump into the middle of it.  The safe loop
has a shortcut of its own for short sequences, tests both ends before every copy, and is
where a block ends.

A label of the source is a definition here: `safeLiteralCopyEarly`, `safeLiteralCopy`,
`copyMatchLabel` (`_copy_match`) and `safeMatchCopy` return where the control goes next, a
`Jump`.  `safeStep` and `fastStep` are one pass of the two loops.  Positions are offsets,
`ip` into the input and `op` into the output, prefix included; a comparison such as
`cpy > oend - MFLIMIT` is written with the constant on the other side.  `match` is an
integer, since a bad offset makes it point in front of the buffer.

A read or write outside its buffer, and a loop that runs longer than the input has bytes,
is `none`.
-/

import Twrp.Lz4.Memory

namespace Twrp
namespace Lz4

open Bytes

/-- The two cursors and the output. -/
structure State where
  ip : ℕ
  op : ℕ
  mem : Mem

/-- Where a pass of the safe loop ends. -/
inductive Jump
  /-- `continue`. -/
  | again (s : State)
  /-- `break`. -/
  | done (op : ℕ) (mem : Mem)
  /-- `goto _output_error`. -/
  | outputError (ip : ℕ) (mem : Mem)

/-- Where a pass of the fast loop ends: at its head, or with what the safe loop does next. -/
inductive FastJump
  | again (s : State)
  | leave (j : Jump)

/-- `LZ4_readLE16`. -/
def readLE16 (src : List UInt8) (ip : ℕ) : Option ℕ := do
  let lo ← src[ip]?
  let hi ← src[ip + 1]?
  some (lo.toNat + 256 * hi.toNat)

/-- The loop of `read_variable_length`, with the bytes summed so far. -/
def readRun (src : List UInt8) (ilimit : ℤ) : ℕ → ℕ → ℕ → Option (ℕ × Option ℕ)
  | 0, _, _ => none
  | fuel + 1, ip, length =>
    if ilimit ≤ ip then some (ip, none)
    else
      (src[ip]?).bind fun s =>
        if s = 255 then readRun src ilimit fuel (ip + 1) (length + s.toNat)
        else some (ip + 1, some (length + s.toNat))

/-- `read_variable_length`: the cursor behind what was read, and the length or `rvl_error`. -/
def readVariableLength (src : List UInt8) (ip : ℕ) (ilimit : ℤ) : Option (ℕ × Option ℕ) :=
  readRun src ilimit (src.length + 1) ip 0

/-- A match that starts in the external dictionary. -/
def extDictMatch (F : Params) (matchPos : ℤ) (length : ℕ) (s : State) : Option Jump :=
  let close := F.oend < s.op + length + 5
  if close ∧ F.partialDecoding = .decodeFullBlock then some (.outputError s.ip s.mem)
  else
    let length := if close then min length (F.oend - s.op) else length
    let copySize := (F.lowPrefix - matchPos).toNat
    if length ≤ copySize then do
      let mem ← memmove F s.mem s.op (.dict (F.dictSize - (F.lowPrefix - matchPos))) length
      some (.again { s with op := s.op + length, mem })
    else do
      let restSize := length - copySize
      let mem ← memcpy F s.mem s.op (.dict (F.dictSize - copySize)) copySize
      let op := s.op + copySize
      let mem ← (if (restSize : ℤ) > op - F.lowPrefix
        then copyBytes F restSize mem op (.out F.lowPrefix)
        else memcpy F mem op (.out F.lowPrefix) restSize)
      some (.again { s with op := op + restSize, mem })

/-- The first eight bytes of a match, and the pointer to what comes behind them. -/
def copyFirst (F : Params) (m : Mem) (op : ℕ) (matchPos : ℤ) (offset : ℕ) :
    Option (Mem × Ptr) :=
  if offset < 8 then do
    let m ← store F m op (zeros 4)
    let m ← copyBytes F 4 m op (.out matchPos)
    let p := Ptr.out (matchPos + inc32table.getD offset 0)
    let m ← memcpy F m (op + 4) p 4
    some (m, p.add (-dec64table.getD offset 0))
  else do
    let m ← memcpy F m op (.out matchPos) 8
    some (m, .out (matchPos + 8))

/-- A match inside the output, in the safe loop. -/
def blockMatch (F : Params) (matchPos : ℤ) (offset length : ℕ) (s : State) : Option Jump :=
  let cpy := s.op + length
  if F.partialDecoding = .partialDecode ∧ F.oend < cpy + 12 then do
    let mlen := min length (F.oend - s.op)
    let mem ← (if matchPos + mlen > s.op then copyBytes F mlen s.mem s.op (.out matchPos)
      else memcpy F s.mem s.op (.out matchPos) mlen)
    let op := s.op + mlen
    if op = F.oend then some (.done op mem) else some (.again { s with op, mem })
  else do
    let (mem, p) ← copyFirst F s.mem s.op matchPos offset
    let op := s.op + 8
    if F.oend < cpy + 12 then
      let oCopyLimit := F.oend - 7
      if F.oend < cpy + 5 then some (.outputError s.ip mem)
      else if op < oCopyLimit then do
        let mem ← wildCopy8 F mem op p oCopyLimit
        let mem ← copyBytes F (cpy - oCopyLimit) mem oCopyLimit (p.add ((oCopyLimit : ℤ) - op))
        some (.again { s with op := cpy, mem })
      else do
        let mem ← copyBytes F (cpy - op) mem op p
        some (.again { s with op := cpy, mem })
    else do
      let mem ← memcpy F mem op p 8
      let mem ← (if length > 16 then wildCopy8 F mem (op + 8) (p.add 8) cpy else some mem)
      some (.again { s with op := cpy, mem })

/-- `checkOffset`, and the match in front of everything there is. -/
def outsideBuffers (F : Params) (matchPos : ℤ) : Bool :=
  F.dictSize < 65536 ∧ matchPos + F.dictSize < F.lowPrefix

/-- `safe_match_copy`. -/
def safeMatchCopy (F : Params) (offset length : ℕ) (s : State) : Option Jump :=
  let matchPos : ℤ := s.op - offset
  if outsideBuffers F matchPos then some (.outputError s.ip s.mem)
  else if F.dict = .usingExtDict ∧ matchPos < F.lowPrefix then extDictMatch F matchPos length s
  else blockMatch F matchPos offset length s

/-- `_copy_match`. -/
def copyMatchLabel (F : Params) (offset length : ℕ) (s : State) : Option Jump :=
  if length = 15 then do
    let (ip, addl) ← readVariableLength F.src s.ip (F.iend - 6)
    match addl with
    | none => some (.outputError ip s.mem)
    | some addl =>
      let length := length + addl
      if F.dstWraps s.op length then some (.outputError ip s.mem)
      else safeMatchCopy F offset (length + 4) { s with ip }
  else safeMatchCopy F offset (length + 4) s

/-- The offset and the match length of the token, behind the literals. -/
def getOffset (F : Params) (token : ℕ) (s : State) : Option Jump := do
  let offset ← readLE16 F.src s.ip
  copyMatchLabel F offset (token % 16) { s with ip := s.ip + 2 }

/-- `safe_literal_copy`, with `cpy = op + length`. -/
def safeLiteralCopy (F : Params) (token length : ℕ) (s : State) : Option Jump :=
  let cpy := s.op + length
  if F.oend < cpy + 12 ∨ F.iend < s.ip + length + 8 then
    if F.partialDecoding = .partialDecode then do
      let length := if s.ip + length > F.iend then F.iend - s.ip else length
      let cpy := s.op + length
      let length := if cpy > F.oend then F.oend - s.op else length
      let cpy := s.op + length
      let mem ← memmove F s.mem s.op (.src s.ip) length
      let ip := s.ip + length
      if cpy = F.oend ∨ F.iend ≤ ip + 2 then some (.done cpy mem)
      else getOffset F token { ip, op := cpy, mem }
    else if s.ip + length ≠ F.iend ∨ cpy > F.oend then some (.outputError s.ip s.mem)
    else do
      let mem ← memmove F s.mem s.op (.src s.ip) length
      some (.done cpy mem)
  else do
    let mem ← wildCopy8 F s.mem s.op (.src s.ip) cpy
    getOffset F token { ip := s.ip + length, op := cpy, mem }

/-- `safe_literal_copy_early`. -/
def safeLiteralCopyEarly (F : Params) (token length : ℕ) (s : State) : Option Jump :=
  if length = 15 then do
    let (ip, addl) ← readVariableLength F.src s.ip (F.iend - 15)
    match addl with
    | none => some (.outputError ip s.mem)
    | some addl =>
      let length := length + addl
      if F.dstWraps s.op length then some (.outputError ip s.mem)
      else if F.srcWraps ip length then some (.outputError ip s.mem)
      else safeLiteralCopy F token length { s with ip }
  else safeLiteralCopy F token length s

/-- The shortcut of the safe loop: literals and match in pieces of fixed size. -/
def shortcut (F : Params) (token length : ℕ) (s : State) : Option Jump := do
  let mem ← memcpy F s.mem s.op (.src s.ip) 16
  let op := s.op + length
  let ip := s.ip + length
  let length := token % 16
  let offset ← readLE16 F.src ip
  let ip := ip + 2
  let matchPos : ℤ := op - offset
  if length ≠ 15 ∧ offset ≥ 8 ∧ (F.dict = .withPrefix64k ∨ matchPos ≥ F.lowPrefix) then do
    let mem ← memcpy F mem op (.out matchPos) 8
    let mem ← memcpy F mem (op + 8) (.out (matchPos + 8)) 8
    let mem ← memcpy F mem (op + 16) (.out (matchPos + 16)) 2
    some (.again { ip, op := op + (length + 4), mem })
  else copyMatchLabel F offset length { ip, op, mem }

/-- One pass of the safe loop. -/
def safeStep (F : Params) (s : State) : Option Jump := do
  let token ← (F.src[s.ip]?).map UInt8.toNat
  let s := { s with ip := s.ip + 1 }
  let length := token / 16
  if length ≠ 15 ∧ s.ip + 16 < F.iend ∧ s.op + 32 ≤ F.oend then shortcut F token length s
  else safeLiteralCopyEarly F token length s

/-- The safe loop, and the value the decoder returns. -/
def safeLoop (F : Params) : ℕ → State → Option (ℤ × Mem)
  | 0, _ => none
  | fuel + 1, s =>
    (safeStep F s).bind fun j =>
      match j with
      | .again s => safeLoop F fuel s
      | .done op mem => some ((op : ℤ) - F.start, mem)
      | .outputError ip mem => some (-(ip : ℤ) - 1, mem)

/-- What follows a jump. -/
def goOn (F : Params) (fuel : ℕ) : Jump → Option (ℤ × Mem)
  | .again s => safeLoop F fuel s
  | .done op mem => some ((op : ℤ) - F.start, mem)
  | .outputError ip mem => some (-(ip : ℤ) - 1, mem)

/-- The end of a pass of the fast loop: a match of `length` bytes, 64 bytes or more in front
of the end. -/
def fastMatchCopy (F : Params) (offset length : ℕ) (s : State) : Option FastJump :=
  let matchPos : ℤ := s.op - offset
  if outsideBuffers F matchPos then some (.leave (.outputError s.ip s.mem))
  else if F.dict = .usingExtDict ∧ matchPos < F.lowPrefix then do
    let j ← extDictMatch F matchPos length s
    match j with
    | .again s => some (.again s)
    | j => some (.leave j)
  else do
    let cpy := s.op + length
    let mem ← (if offset < 16 then memcpyUsingOffset F s.mem s.op (.out matchPos) cpy offset
      else if F.aarch64 ∧ offset ≥ 64 then wildCopy64 F s.mem s.op (.out matchPos) cpy
      else wildCopy32 F s.mem s.op (.out matchPos) cpy)
    some (.again { s with op := cpy, mem })

/-- The offset and the match of a pass of the fast loop. -/
def fastMatch (F : Params) (token : ℕ) (s : State) : Option FastJump := do
  let offset ← readLE16 F.src s.ip
  let s := { s with ip := s.ip + 2 }
  let matchPos : ℤ := s.op - offset
  let length := token % 16
  if length = 15 then do
    let (ip, addl) ← readVariableLength F.src s.ip (F.iend - 6)
    match addl with
    | none => some (.leave (.outputError ip s.mem))
    | some addl =>
      let length := length + addl + 4
      let s := { s with ip }
      if F.dstWraps s.op length then some (.leave (.outputError ip s.mem))
      else if F.oend ≤ s.op + length + 64 then do
        let j ← safeMatchCopy F offset length s
        some (.leave j)
      else fastMatchCopy F offset length s
  else do
    let length := length + 4
    if F.oend ≤ s.op + length + 64 then do
      let j ← safeMatchCopy F offset length s
      some (.leave j)
    else if (F.dict = .withPrefix64k ∨ matchPos ≥ F.lowPrefix) ∧ offset ≥ 8 then do
      let mem ← memcpy F s.mem s.op (.out matchPos) 8
      let mem ← memcpy F mem (s.op + 8) (.out (matchPos + 8)) 8
      let mem ← memcpy F mem (s.op + 16) (.out (matchPos + 16)) 2
      some (.again { s with op := s.op + length, mem })
    else fastMatchCopy F offset length s

/-- The width of the copy of long literals in the fast loop. -/
def wildLiterals (F : Params) : ℕ := if F.aarch64 then 64 else 32

/-- One pass of the fast loop. -/
def fastStep (F : Params) (s : State) : Option FastJump := do
  let token ← (F.src[s.ip]?).map UInt8.toNat
  let s := { s with ip := s.ip + 1 }
  let length := token / 16
  if F.iend < s.ip + 17 then do
    let j ← safeLiteralCopyEarly F token length s
    some (.leave j)
  else if length = 15 then do
    let (ip, addl) ← readVariableLength F.src s.ip (F.iend - 15)
    match addl with
    | none => some (.leave (.outputError ip s.mem))
    | some addl =>
      let length := length + addl
      let cpy := s.op + length
      if F.dstWraps s.op length then some (.leave (.outputError ip s.mem))
      else if F.srcWraps ip length then some (.leave (.outputError ip s.mem))
      else if F.oend < cpy + wildLiterals F ∨ F.iend < ip + length + wildLiterals F then do
        let j ← safeLiteralCopy F token length { s with ip }
        some (.leave j)
      else do
        let mem ← (if F.aarch64 then wildCopy64 F s.mem s.op (.src ip) cpy
          else wildCopy32 F s.mem s.op (.src ip) cpy)
        fastMatch F token { ip := ip + length, op := cpy, mem }
  else do
    let mem ← memcpy F s.mem s.op (.src s.ip) 16
    fastMatch F token { ip := s.ip + length, op := s.op + length, mem }

/-- The fast loop, and what the safe loop does behind it. -/
def fastLoop (F : Params) : ℕ → State → Option (ℤ × Mem)
  | 0, _ => none
  | fuel + 1, s =>
    (fastStep F s).bind fun j =>
      match j with
      | .again s => fastLoop F fuel s
      | .leave j => goOn F fuel j

/-- `LZ4_decompress_generic` behind its first test: `mem` is the prefix and `dst`. -/
def decode (F : Params) (mem : Mem) : Option (ℤ × Mem) :=
  let s : State := { ip := 0, op := F.start, mem }
  if F.outputSize = 0 then
    if F.partialDecoding = .partialDecode then some (0, mem)
    else some (if F.src.length = 1 ∧ F.src[0]? = some 0 then 0 else -1, mem)
  else if F.src.length = 0 then some (-1, mem)
  else if F.oend - s.op < 64 then safeLoop F (F.src.length + 1) s
  else fastLoop F (F.src.length + 1) s

/-- `LZ4_decompress_generic`: no `src` or a negative `outputSize` is an error, else the
arguments are `F`. -/
def decompressGeneric (src : Option (List UInt8)) (outputSize : ℤ) (F : Params) (mem : Mem) :
    Option (ℤ × Mem) :=
  match src with
  | none => some (-1, mem)
  | some src =>
    if outputSize < 0 then some (-1, mem)
    else decode { F with src, outputSize := outputSize.toNat } mem

end Lz4
end Twrp

/-
# `lz4.c`: the compressor

`LZ4_compress_generic_validated` without a dictionary, on a little-endian machine of 64 bits,
and the functions that call it so: `LZ4_compress_fast_extState` and its `_fastReset`,
`LZ4_compress_fast`, `LZ4_compress_default` and `LZ4_compress_destSize`, with all three
directives for the output.  A hash of four or five bytes leads to the last position that had
it; a candidate whose four bytes are the same is extended to both sides, and what stands in
front of it is emitted as literals.

Pointers are positions: in the input, in `dst`, or, in the hash table, indices that count from
`startIndex` on, so that a table can be used again.  Reads outside the input, writes outside
`dst`, indices outside the table and assertions that do not hold are faults, `none`.  The
sequences of gotos are a state `Next` and a step: `search` is the head of the main loop,
`nextMatch` is `_next_match`, `lastLiterals` is `_last_literals`.
-/

import Twrp.Lz.Words
import Twrp.Lz4.Memory
import Mathlib.Logic.Function.Basic

namespace Twrp
namespace Lz4

open Bytes Lz

/-! ### Directives, tables and calls -/

/-- `limitedOutput_directive`. -/
inductive LimitedOutput
  | notLimited
  | limitedOutput
  | fillOutput
  deriving DecidableEq

/-- `tableType_t`, without `byPtr`, which is for machines of 32 bits. -/
inductive TableType
  | clearedTable
  | byU32
  | byU16
  deriving DecidableEq

/-- `dictIssue_directive`. -/
inductive DictIssue
  | noDictIssue
  | dictSmall
  deriving DecidableEq

/-- `hashTable`, with the index that each hash leads to. -/
abbrev HashTable := ℕ → ℕ

/-- What `LZ4_compress_generic_validated` does not change. -/
structure Job where
  /-- The input, `inputSize` bytes. -/
  src : List UInt8
  /-- How large the buffer `dest` is. -/
  dstSize : ℕ
  /-- The size the caller tells, `0` when the output is not limited. -/
  maxOutputSize : ℕ
  outputDirective : LimitedOutput
  tableType : TableType
  dictIssue : DictIssue
  /-- `cctx->currentOffset` at the call. -/
  startIndex : ℕ
  prefixIdxLimit : ℕ
  acceleration : ℕ

namespace Job

/-- `iend`, counted from `source`. -/
def iend (J : Job) : ℕ := J.src.length

/-- `iend - MFLIMIT + 1`. -/
def mflimitPlusOne (J : Job) : ℕ := J.iend - 12 + 1

/-- `iend - LASTLITERALS`. -/
def matchlimit (J : Job) : ℕ := J.iend - 5

/-- `olimit`, counted from `dest`. -/
def olimit (J : Job) : ℕ := J.maxOutputSize

/-- The buffers of the call. -/
def buffers (J : Job) : Params where
  src := J.src
  dictionary := []
  start := 0
  outputSize := J.dstSize
  partialDecoding := .decodeFullBlock
  dict := .noDict
  aarch64 := false
  srcAddr := 0
  dstAddr := 0

end Job

/-! ### Words and hashes -/

/-- `n` bytes of the input at `p` as a word: `LZ4_read16`, `LZ4_read32`, `LZ4_read_ARCH`. -/
def readWord (src : List UInt8) (n : ℕ) (p : ℤ) : Option ℕ := (loadFrom src p n).map leNat

/-- `LZ4_hash4`. -/
def hash4 (sequence : ℕ) (t : TableType) : ℕ :=
  if t = .byU16 then (sequence * 2654435761 % 2 ^ 32) >>> (32 - 13)
  else (sequence * 2654435761 % 2 ^ 32) >>> (32 - 12)

/-- `LZ4_hash5`. -/
def hash5 (sequence : ℕ) (t : TableType) : ℕ :=
  let hashLog := if t = .byU16 then 13 else 12
  (sequence <<< 24 % 2 ^ 64 * 889523592379 % 2 ^ 64) >>> (64 - hashLog)

/-- `LZ4_hashPosition`. -/
def hashPosition (src : List UInt8) (p : ℕ) (t : TableType) : Option ℕ :=
  if t ≠ .byU16 then (readWord src 8 p).map fun v => hash5 v t
  else (readWord src 4 p).map fun v => hash4 v t

/-- How many entries the table has. -/
def tableSize : TableType → ℕ
  | .clearedTable => 0
  | .byU32 => 4096
  | .byU16 => 8192

/-- `LZ4_getIndexOnHash`. -/
def getIndexOnHash (h : ℕ) (table : HashTable) (t : TableType) : Option ℕ :=
  if h < tableSize t then some (table h) else none

/-- `LZ4_putIndexOnHash`, with its assertion. -/
def putIndexOnHash (idx h : ℕ) (table : HashTable) (t : TableType) : Option HashTable :=
  if h < tableSize t ∧ (t = .byU16 → idx < 65536) then some (Function.update table h idx) else none

/-- `LZ4_clearHash`. -/
def clearHash (h : ℕ) (table : HashTable) (t : TableType) : Option HashTable :=
  if h < tableSize t then some (Function.update table h 0) else none

/-! ### Comparing -/

/-- `LZ4_NbCommonBytes`. -/
def nbCommonBytes (val : ℕ) : ℕ := ctz 64 val / 8

/-- `LZ4_NbCommonBytes` of a build with `LZ4_FORCE_SW_BITCOUNT`. -/
def nbCommonBytesSoft (val : ℕ) : ℕ :=
  let m := 0x0101010101010101
  ((val ^^^ (val - 1)) &&& (m - 1)) * m % 2 ^ 64 / 2 ^ 56

/-- One comparison of the end of `LZ4_count`, of `n` bytes. -/
def countRound (src : List UInt8) (n pInLimit pIn pMatch : ℕ) : Option (ℕ × ℕ) :=
  if pIn + (n - 1) < pInLimit then do
    let a ← readWord src n pMatch
    let b ← readWord src n pIn
    some (if a = b then (pIn + n, pMatch + n) else (pIn, pMatch))
  else some (pIn, pMatch)

/-- The end of `LZ4_count`: four bytes, two, and one. -/
def countTail (src : List UInt8) (pInLimit pIn pMatch : ℕ) : Option ℕ := do
  let (pIn, pMatch) ← countRound src 4 pInLimit pIn pMatch
  let (pIn, pMatch) ← countRound src 2 pInLimit pIn pMatch
  if pIn < pInLimit then do
    let a ← src[pMatch]?
    let b ← src[pIn]?
    some (if a = b then pIn + 1 else pIn)
  else some pIn

/-- `LZ4_count`, from its loop on, of which the source writes the first round twice: where
the bytes stop to agree. -/
def countLoop (src : List UInt8) (pInLimit : ℕ) : ℕ → ℕ → ℕ → Option ℕ
  | 0, _, _ => none
  | fuel + 1, pIn, pMatch =>
    if pIn + 7 < pInLimit then do
      let a ← readWord src 8 pMatch
      let b ← readWord src 8 pIn
      let diff := a ^^^ b
      if diff = 0 then countLoop src pInLimit fuel (pIn + 8) (pMatch + 8)
      else some (pIn + nbCommonBytes diff)
    else countTail src pInLimit pIn pMatch

/-- `LZ4_count`. -/
def count (src : List UInt8) (pIn pMatch pInLimit : ℕ) : Option ℕ :=
  (countLoop src pInLimit (pInLimit + 1) pIn pMatch).map fun p => p - pIn

/-! ### The search -/

/-- Whether what the table leads to can be used at `ip`: nothing, if it is too old, too far
or different, and else its position. -/
def candidate (J : Job) (matchIndex ip : ℕ) : Option (Option ℕ) :=
  let current := J.startIndex + ip
  if J.dictIssue = .dictSmall ∧ matchIndex < J.prefixIdxLimit then some none
  else do
    guard (matchIndex < current)
    if J.tableType ≠ .byU16 ∧ matchIndex + 65535 < current then some none
    else do
      guard (current - matchIndex ≤ 65535)
      let a ← readWord J.src 4 ((matchIndex : ℤ) - J.startIndex)
      let b ← readWord J.src 4 ip
      some (if a = b then some (matchIndex - J.startIndex) else none)

/-- How the search ends: at the end of the input, or with a match for `ip`. -/
inductive Found
  | nothing (table : HashTable)
  | found (ip pos : ℕ) (table : HashTable)

/-- The loop that looks for a match: `forwardIp`, the step to take from there, the number of
the attempt, the hash at `forwardIp`, and the table. -/
def findMatch (J : Job) : ℕ → ℕ → ℕ → ℕ → ℕ → HashTable → Option Found
  | 0, _, _, _, _, _ => none
  | fuel + 1, ip, step, searchMatchNb, h, table => do
    let current := J.startIndex + ip
    let matchIndex ← getIndexOnHash h table J.tableType
    guard (matchIndex ≤ current)
    guard (current < 2 ^ 31 - 1)
    let forwardIp := ip + step
    let step := searchMatchNb >>> 6
    if forwardIp > J.mflimitPlusOne then some (.nothing table)
    else do
      guard (ip < J.mflimitPlusOne)
      let forwardH ← hashPosition J.src forwardIp J.tableType
      let table ← putIndexOnHash current h table J.tableType
      match ← candidate J matchIndex ip with
      | some pos => some (.found ip pos table)
      | none => findMatch J fuel forwardIp step (searchMatchNb + 1) forwardH table

/-- The rounds of "Catch up", as long as the match and `ip` can go back together. -/
def catchUp (src : List UInt8) (anchor : ℕ) : ℕ → ℕ → Option (ℕ × ℕ)
  | ip, 0 => some (ip, 0)
  | ip, pos + 1 =>
    if ip > anchor then do
      let a ← src[ip - 1]?
      let b ← src[pos]?
      if a = b then catchUp src anchor (ip - 1) pos else some (ip, pos + 1)
    else some (ip, pos + 1)

/-! ### The output -/

/-- What changes from one part of the main loop to the next. -/
structure Enc where
  ip : ℕ
  anchor : ℕ
  op : ℕ
  mem : Mem
  hashTable : HashTable

/-- `for(; len >= 255 ; len-=255) *op++ = 255; *op++ = (BYTE)len;`. -/
def putRun (J : Job) : ℕ → Mem → ℕ → ℕ → Option (ℕ × Mem)
  | 0, _, _, _ => none
  | fuel + 1, mem, op, len =>
    if 255 ≤ len then
      (store J.buffers mem op [255]).bind fun mem => putRun J fuel mem (op + 1) (len - 255)
    else (store J.buffers mem op [UInt8.ofNat len]).map fun mem => (op + 1, mem)

/-- The token of `n` literals at `token`, and what continues their number. -/
def putLiteralLength (J : Job) (mem : Mem) (token n : ℕ) : Option (ℕ × Mem) :=
  if 15 ≤ n then
    (store J.buffers mem token [UInt8.ofNat (15 <<< 4)]).bind fun mem =>
      putRun J (n - 15 + 1) mem (token + 1) (n - 15)
  else (store J.buffers mem token [UInt8.ofNat (n <<< 4)]).map fun mem => (token + 1, mem)

/-- `*token += (BYTE)n;`. -/
def addToToken (J : Job) (mem : Mem) (token n : ℕ) : Option Mem :=
  (mem[token]?).bind fun b => store J.buffers mem token [b + UInt8.ofNat n]

/-- The loop behind a match length of `15` or more: four bytes of `255` at a time. -/
def putWords (J : Job) : ℕ → Mem → ℕ → ℕ → Option (ℕ × ℕ × Mem)
  | 0, _, _, _ => none
  | fuel + 1, mem, op, matchCode =>
    if 4 * 255 ≤ matchCode then
      (store J.buffers mem (op + 4) [255, 255, 255, 255]).bind fun mem =>
        putWords J fuel mem (op + 4) (matchCode - 4 * 255)
    else some (op, matchCode, mem)

/-- The match length, into the token and behind the offset. -/
def putMatchLength (J : Job) (mem : Mem) (token op matchCode : ℕ) : Option (ℕ × Mem) :=
  if 15 ≤ matchCode then do
    let mem ← addToToken J mem token 15
    let matchCode := matchCode - 15
    let mem ← store J.buffers mem op [255, 255, 255, 255]
    let (op, matchCode, mem) ← putWords J (matchCode + 1) mem op matchCode
    let op := op + matchCode / 255
    let mem ← store J.buffers mem op [UInt8.ofNat (matchCode % 255)]
    some (op + 1, mem)
  else (addToToken J mem token matchCode).map fun mem => (op, mem)

/-! ### The main loop -/

/-- Where the code goes on. -/
inductive Next
  /-- The head of the main loop, with `forwardH`. -/
  | search (s : Enc) (forwardH : ℕ)
  /-- `_next_match`, with `filledIp`, `match` and `token`. -/
  | nextMatch (s : Enc) (filledIp pos token : ℕ)
  /-- `_last_literals`. -/
  | lastLiterals (s : Enc)
  /-- `return 0`. -/
  | fail (s : Enc)

/-- "Encode Literals", from `anchor` up to `ip`. -/
def encodeLiterals (J : Job) (s : Enc) (filledIp pos : ℕ) : Option Next :=
  let litLength := s.ip - s.anchor
  let op := s.op + 1
  if J.outputDirective = .limitedOutput ∧
      op + litLength + (2 + 1 + 5) + litLength / 255 > J.olimit then
    some (.fail s)
  else if J.outputDirective = .fillOutput ∧
      op + (litLength + 240) / 255 + litLength + 2 + 1 + 12 - 4 > J.olimit then
    some (.lastLiterals s)
  else do
    let (op, mem) ← putLiteralLength J s.mem s.op litLength
    let mem ← wildCopy8 J.buffers mem op (.src s.anchor) (op + litLength)
    some (.nextMatch { s with op := op + litLength, mem } filledIp pos s.op)

/-- From the head of the main loop to `_next_match`. -/
def searchStep (J : Job) (s : Enc) (forwardH : ℕ) : Option Next := do
  let found ← findMatch J (J.iend + 1) s.ip 1 (J.acceleration <<< 6) forwardH s.hashTable
  match found with
  | .nothing hashTable => some (.lastLiterals { s with hashTable })
  | .found ip pos hashTable => do
    guard (ip > s.anchor)
    let (ip', pos) ← catchUp J.src s.anchor ip pos
    encodeLiterals J { s with ip := ip', hashTable } ip pos

/-- `for (ptr = ip; ptr <= filledIp; ++ptr)`, clearing `n` positions from `ip` on. -/
def clearPositions (J : Job) : ℕ → ℕ → HashTable → Option HashTable
  | 0, _, table => some table
  | n + 1, ptr, table => do
    let h ← hashPosition J.src ptr J.tableType
    let table ← clearHash h table J.tableType
    clearPositions J n (ptr + 1) table

/-- "Encode MatchLength" behind the offset, where it does not fit: the match code that does,
and the table without the positions that have been passed; nothing when the output is
limited. -/
def reduceMatch (J : Job) (s : Enc) (filledIp matchCode : ℕ) :
    Option (Option (ℕ × HashTable)) :=
  if J.outputDirective ≠ .notLimited ∧ s.op + (1 + 5) + (matchCode + 240) / 255 > J.olimit then
    if J.outputDirective = .fillOutput then do
      -- with less room the difference would wrap
      guard (s.op + 1 + 5 ≤ J.olimit)
      let newMatchCode := (15 - 1 + (J.olimit - s.op - 1 - 5) * 255) % 2 ^ 32
      guard (newMatchCode < matchCode)
      let ip := s.ip + newMatchCode + 4
      if ip ≤ filledIp then
        (clearPositions J (filledIp + 1 - ip) ip s.hashTable).map fun table =>
          some (newMatchCode, table)
      else some (some (newMatchCode, s.hashTable))
    else some none
  else some (some (matchCode, s.hashTable))

/-- "Fill table" and "Test next position", at the end of a match. -/
def nextPosition (J : Job) (s : Enc) (filledIp : ℕ) : Option Next := do
  let h ← hashPosition J.src (s.ip - 2) J.tableType
  let table ← putIndexOnHash (J.startIndex + (s.ip - 2)) h s.hashTable J.tableType
  let h ← hashPosition J.src s.ip J.tableType
  let current := J.startIndex + s.ip
  let matchIndex ← getIndexOnHash h table J.tableType
  guard (matchIndex < current)
  let table ← putIndexOnHash current h table J.tableType
  match ← candidate J matchIndex s.ip with
  | some pos => do
    let mem ← store J.buffers s.mem s.op [0]
    some (.nextMatch { s with op := s.op + 1, mem, hashTable := table } filledIp pos s.op)
  | none => do
    let forwardH ← hashPosition J.src (s.ip + 1) J.tableType
    some (.search { s with ip := s.ip + 1, hashTable := table } forwardH)

/-- `_next_match`, up to the next match or the head of the main loop. -/
def matchStep (J : Job) (s : Enc) (filledIp pos token : ℕ) : Option Next :=
  if J.outputDirective = .fillOutput ∧ s.op + 2 + 1 + 12 - 4 > J.olimit then
    some (.lastLiterals { s with op := token })
  else do
    guard (s.ip - pos ≤ 65535)
    let offset := s.ip - pos
    let mem ← store J.buffers s.mem s.op [UInt8.ofNat (offset % 256), UInt8.ofNat (offset / 256)]
    let s := { s with op := s.op + 2, mem }
    let matchCode ← count J.src (s.ip + 4) (pos + 4) J.matchlimit
    match ← reduceMatch J s filledIp matchCode with
    | none => some (.fail s)
    | some (matchCode, hashTable) => do
      let (op, mem) ← putMatchLength J s.mem token s.op matchCode
      guard ¬(J.outputDirective = .fillOutput ∧ op + 1 + 5 > J.olimit)
      let ip := s.ip + matchCode + 4
      let s := { ip, anchor := ip, op, mem, hashTable }
      if ip ≥ J.mflimitPlusOne then some (.lastLiterals s) else nextPosition J s filledIp

/-- What a call leaves behind: the value it returns, the size of the block or `0`, what it
writes to `*inputConsumed`, if anything, `dst` and the table. -/
structure Result where
  value : ℕ
  inputConsumed : Option ℕ
  mem : Mem
  hashTable : HashTable

/-- `_last_literals`. -/
def lastLiterals (J : Job) (s : Enc) : Option Result := do
  let n := J.iend - s.anchor
  let lastRun ←
    (if J.outputDirective ≠ .notLimited ∧ s.op + n + 1 + (n + 255 - 15) / 255 > J.olimit then
      if J.outputDirective = .fillOutput then do
        -- with no room for the token the difference would wrap
        guard (s.op < J.olimit)
        let lastRun := J.olimit - s.op - 1
        some (some (lastRun - (lastRun + 256 - 15) / 256))
      else some none
    else some (some n))
  match lastRun with
  | none => some ⟨0, none, s.mem, s.hashTable⟩
  | some lastRun => do
    let (op, mem) ← putLiteralLength J s.mem s.op lastRun
    let mem ← memcpy J.buffers mem op (.src s.anchor) lastRun
    guard (0 < op + lastRun)
    some ⟨op + lastRun, if J.outputDirective = .fillOutput then some (s.anchor + lastRun) else none,
      mem, s.hashTable⟩

/-- The code from one label on. -/
def run (J : Job) : ℕ → Next → Option Result
  | 0, _ => none
  | _ + 1, .fail s => some ⟨0, none, s.mem, s.hashTable⟩
  | _ + 1, .lastLiterals s => lastLiterals J s
  | fuel + 1, .search s forwardH => (searchStep J s forwardH).bind (run J fuel)
  | fuel + 1, .nextMatch s filledIp pos token =>
    (matchStep J s filledIp pos token).bind (run J fuel)

/-- `LZ4_compress_generic_validated` behind the update of the context, into `mem`, with the
table as the context has it. -/
def compressInput (J : Job) (mem : Mem) (table : HashTable) : Option Result :=
  if J.src.length < 13 then lastLiterals J ⟨0, 0, 0, mem, table⟩
  else do
    let h ← hashPosition J.src 0 J.tableType
    let table ← putIndexOnHash J.startIndex h table J.tableType
    let forwardH ← hashPosition J.src 1 J.tableType
    run J (2 * J.src.length + 3) (.search ⟨1, 0, 0, mem, table⟩ forwardH)

/-! ### The context and the functions that use it -/

/-- `LZ4_stream_t_internal`, without what belongs to a dictionary. -/
structure Stream where
  hashTable : HashTable
  currentOffset : ℕ
  tableType : TableType
  dictSize : ℕ

/-- What a call of the compressor returns and leaves behind. -/
structure Compressed where
  value : ℕ
  inputConsumed : Option ℕ
  mem : Mem
  stream : Stream

/-- `LZ4_initStream`. -/
def initStream : Stream := ⟨fun _ => 0, 0, .clearedTable, 0⟩

/-- `LZ4_prepareTable`. -/
def prepareTable (st : Stream) (inputSize : ℕ) (t : TableType) : Stream :=
  let st :=
    if st.tableType ≠ .clearedTable ∧
        (st.tableType ≠ t ∨ t = .byU16 ∧ st.currentOffset + inputSize ≥ 0xFFFF ∨
          t = .byU32 ∧ st.currentOffset > 2 ^ 30 ∨ inputSize ≥ 4096) then
      { st with hashTable := fun _ => 0, currentOffset := 0, tableType := .clearedTable }
    else st
  let st :=
    if st.currentOffset ≠ 0 ∧ t = .byU32 then
      { st with currentOffset := (st.currentOffset + 65536) % 2 ^ 32 }
    else st
  { st with dictSize := 0 }

/-- `LZ4_resetStream_fast`. -/
def resetStreamFast (st : Stream) : Stream := prepareTable st 0 .byU32

/-- `LZ4_compress_generic_validated`. -/
def compressGenericValidated (st : Stream) (src : List UInt8) (dst : Mem) (maxOutputSize : ℕ)
    (outputDirective : LimitedOutput) (t : TableType) (dictIssue : DictIssue)
    (acceleration : ℕ) : Option Compressed :=
  if outputDirective = .fillOutput ∧ maxOutputSize < 1 then some ⟨0, none, dst, st⟩
  else do
    guard (1 ≤ acceleration)
    let r ← compressInput
      { src, dstSize := dst.length, maxOutputSize, outputDirective, tableType := t, dictIssue
        startIndex := st.currentOffset
        prefixIdxLimit := (st.currentOffset + 2 ^ 32 - st.dictSize) % 2 ^ 32
        acceleration } dst st.hashTable
    some ⟨r.value, r.inputConsumed, r.mem,
      { hashTable := r.hashTable
        currentOffset := (st.currentOffset + src.length) % 2 ^ 32
        tableType := t
        dictSize := (st.dictSize + src.length) % 2 ^ 32 }⟩

/-- `LZ4_compress_generic`. -/
def compressGeneric (st : Stream) (src : List UInt8) (dst : Mem) (dstCapacity : ℕ)
    (outputDirective : LimitedOutput) (t : TableType) (dictIssue : DictIssue)
    (acceleration : ℕ) : Option Compressed :=
  if src.length > 0x7E000000 then some ⟨0, none, dst, st⟩
  else if src.length = 0 then
    if outputDirective ≠ .notLimited ∧ dstCapacity = 0 then some ⟨0, none, dst, st⟩
    else if dst.length = 0 then none
    else some ⟨1, if outputDirective = .fillOutput then some 0 else none, dst.set 0 0, st⟩
  else compressGenericValidated st src dst dstCapacity outputDirective t dictIssue acceleration

/-- `LZ4_compressBound`. -/
def compressBound (isize : ℕ) : ℕ :=
  if isize > 0x7E000000 then 0 else isize + isize / 255 + 16

/-- The table for an input without a dictionary: indices of 16 bits below `LZ4_64Klimit`. -/
def tableTypeFor (inputSize : ℕ) : TableType := if inputSize < 65536 + 11 then .byU16 else .byU32

/-- What the functions with an argument `acceleration` make of it. -/
def accelerationFor (acceleration : ℤ) : ℕ :=
  if acceleration < 1 then 1 else if acceleration > 65537 then 65537 else acceleration.toNat

/-- `LZ4_compress_fast_extState`, into the whole of `dst`. -/
def compressFastExtState (src : List UInt8) (dst : Mem) (acceleration : ℤ) : Option Compressed :=
  if dst.length ≥ compressBound src.length then
    compressGeneric initStream src dst 0 .notLimited (tableTypeFor src.length) .noDictIssue
      (accelerationFor acceleration)
  else
    compressGeneric initStream src dst dst.length .limitedOutput (tableTypeFor src.length)
      .noDictIssue (accelerationFor acceleration)

/-- `LZ4_compress_default`. -/
def compressDefault (src : List UInt8) (dst : Mem) : Option Compressed :=
  compressFastExtState src dst 1

/-- `LZ4_compress_fast_extState_fastReset`. -/
def compressFastExtStateFastReset (st : Stream) (src : List UInt8) (dst : Mem)
    (acceleration : ℤ) : Option Compressed :=
  let t := tableTypeFor src.length
  let st := prepareTable st src.length t
  let dictIssue := if t = .byU16 ∧ st.currentOffset ≠ 0 then DictIssue.dictSmall else .noDictIssue
  if dst.length ≥ compressBound src.length then
    compressGeneric st src dst 0 .notLimited t dictIssue (accelerationFor acceleration)
  else
    compressGeneric st src dst dst.length .limitedOutput t dictIssue (accelerationFor acceleration)

/-- `LZ4_compress_destSize_extState_internal`. -/
def compressDestSizeExtState (src : List UInt8) (dst : Mem) (acceleration : ℤ) :
    Option Compressed :=
  if dst.length ≥ compressBound src.length then compressFastExtState src dst acceleration
  else
    compressGeneric initStream src dst dst.length .fillOutput (tableTypeFor src.length)
      .noDictIssue acceleration.toNat

end Lz4
end Twrp

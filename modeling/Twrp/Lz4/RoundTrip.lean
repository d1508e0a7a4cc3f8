/-
# `lz4.c`: compressing, and decompressing again

The functions around the compressor choose the directive, the table and where its indices
start.  What they are called with is arbitrary: any input, any buffer, any acceleration.

* `compressFast_sound`: the compressor never faults and never writes behind `dst`; it returns
  the size of a block for the whole input, or `0`, which it does not do with
  `LZ4_compressBound` bytes of room.
* `compressFast_roundTrip`: the decoder gives back the input.
* `compressDestSize_roundTrip`: `LZ4_compress_destSize` makes a block for the beginning of the
  input that it says it has consumed, and decoding gives back just that.
* `fastReset_roundTrip`: a context that is used again and again, whatever it has been used
  for, never lets a call see what an earlier one has left in the table.
-/

import Twrp.Lz4.Encoded
import Twrp.Lz4.Decoded

namespace Twrp
namespace Lz4

open Bytes Lz

/-- `LZ4_decompress_safe`, into the whole of `dst`, for buffers at two addresses. -/
def decompressSafe (aarch64 : Bool) (srcAddr dstAddr : ℕ) (src : List UInt8) (dst : Mem) :
    Option (ℤ × Mem) :=
  decode
    { src
      dictionary := []
      start := 0
      outputSize := dst.length
      partialDecoding := .decodeFullBlock
      dict := .noDict
      aarch64
      srcAddr
      dstAddr } dst

/-- Two buffers do not reach the top of memory, nor do the lengths a block can spell. -/
def FitsMemory (srcAddr dstAddr srcSize dstSize : ℕ) : Prop :=
  srcAddr + srcSize < 2 ^ 64 ∧ dstAddr + dstSize + 255 * srcSize + 20 < 2 ^ 64

/-- **What an encoder makes is decoded.** -/
theorem decompressSafe_of_blockFor {out x : List UInt8} (aarch64 : Bool) (h : BlockFor out x)
    {srcAddr dstAddr : ℕ} {dst : Mem} (hfit : x.length ≤ dst.length)
    (hmem : FitsMemory srcAddr dstAddr out.length dst.length) :
    ∃ mem', decompressSafe aarch64 srcAddr dstAddr out dst = some ((x.length : ℤ), mem') ∧
      mem'.take x.length = x := by
  obtain ⟨B, rfl, hpos, hrange, hrest, hlow, rfl⟩ := h
  rw [Block.length_expand, List.length_nil, Nat.zero_add] at hfit ⊢
  have hm : dst.length = 0 + dst.length := (Nat.zero_add _).symm
  obtain ⟨mem', hdec, -, hhist⟩ := decode_valid (F :=
    { src := B.bytes, dictionary := [], start := 0, outputSize := dst.length,
      partialDecoding := .decodeFullBlock, dict := .noDict, aarch64, srcAddr, dstAddr })
    ⟨nofun, fun _ => rfl⟩ hm
    ⟨rfl, hpos, hrange, hrest, fun _ => hlow, hmem.1, by
      have := hmem.2
      show dstAddr + (0 + dst.length) + 255 * B.bytes.length + 20 < 2 ^ 64
      omega⟩ fun _ => hfit
  rw [show min B.size dst.length = B.size from Nat.min_eq_left hfit] at hdec hhist
  refine ⟨mem', hdec, ?_⟩
  have hfull : (B.expand []).length ≤ 0 + (0 + dst.length) := by
    rw [Block.length_expand, List.length_nil]
    omega
  rw [Params.hist, Params.hist, List.take_zero, List.append_nil, List.nil_append, Nat.zero_add]
    at hhist
  exact hhist.trans (List.take_of_length_le hfull)

/-! ### Contexts -/

/-- A context whose table can be told from what the next call puts there. -/
structure Stream.Ok (st : Stream) : Prop where
  cleared : st.tableType = .clearedTable → st.currentOffset = 0
  below : ∀ h, st.hashTable h = 0 ∨ st.hashTable h < st.currentOffset
  offset_le : st.currentOffset ≤ 0x7E000000

theorem initStream_ok : initStream.Ok := ⟨fun _ => rfl, fun _ => Or.inl rfl, Nat.zero_le _⟩

/-- **`LZ4_prepareTable`** keeps a context usable, and what it keeps of the table leaves room
for the indices of an input of the size announced. -/
theorem prepareTable_spec {st : Stream} (hst : st.Ok) (n : ℕ) (t : TableType) :
    (prepareTable st n t).Ok ∧ (prepareTable st n t).dictSize = 0 ∧
      (t = .byU16 → (prepareTable st n t).currentOffset = 0 ∨
        (prepareTable st n t).currentOffset + n < 0xFFFF) ∧
      (4096 ≤ n → t = .byU32 → (prepareTable st n t).currentOffset = 0) := by
  obtain ⟨hclear, hbelow, hle⟩ := hst
  simp only [prepareTable]
  by_cases hreset : st.tableType ≠ .clearedTable ∧
      (st.tableType ≠ t ∨ t = .byU16 ∧ st.currentOffset + n ≥ 0xFFFF ∨
        t = .byU32 ∧ st.currentOffset > 2 ^ 30 ∨ n ≥ 4096)
  · simp only [if_pos hreset, ne_eq, not_true_eq_false, false_and, if_false]
    exact ⟨⟨fun _ => rfl, fun _ => Or.inl rfl, Nat.zero_le _⟩, trivial, fun _ => Or.inl trivial,
      fun _ _ => trivial⟩
  · rw [if_neg hreset]
    by_cases hgap : st.currentOffset ≠ 0 ∧ t = .byU32
    · have hused : st.tableType ≠ .clearedTable := fun h => hgap.1 (hclear h)
      have hsmall : st.currentOffset ≤ 2 ^ 30 := by
        by_contra h
        exact hreset ⟨hused, Or.inr (Or.inr (Or.inl ⟨hgap.2, by omega⟩))⟩
      have hn : ¬4096 ≤ n := fun h => hreset ⟨hused, Or.inr (Or.inr (Or.inr h))⟩
      have hmod : (st.currentOffset + 65536) % 2 ^ 32 = st.currentOffset + 65536 :=
        Nat.mod_eq_of_lt (by omega)
      rw [if_pos hgap, hmod]
      refine ⟨⟨fun h => absurd h hused, fun h => ?_, ?_⟩, trivial, fun h => ?_,
        fun h => absurd h hn⟩
      · rcases hbelow h with h0 | h0
        · exact Or.inl h0
        · exact Or.inr (Nat.lt_add_right _ h0)
      · show st.currentOffset + 65536 ≤ 0x7E000000
        omega
      · rw [hgap.2] at h
        exact absurd h (by decide)
    · rw [if_neg hgap]
      refine ⟨⟨hclear, hbelow, hle⟩, trivial, fun h => ?_, fun _ h => ?_⟩
      · by_cases hc : st.tableType = .clearedTable
        · exact Or.inl (hclear hc)
        · refine Or.inr (Nat.lt_of_not_le fun hge => ?_)
          exact hreset ⟨hc, Or.inr (Or.inl ⟨h, hge⟩)⟩
      · by_contra h0
        exact hgap ⟨h0, h⟩

/-! ### One call -/

/-- What a call returns and leaves behind, for an input, a buffer and a directive. -/
structure Compressed.Ok (src : List UInt8) (dst : Mem) (d : LimitedOutput) (r : Compressed) :
    Prop where
  stream : r.stream.Ok
  size : r.mem.length = dst.length
  block : r.value = 0 ∧ r.inputConsumed = none ∧
      (0x7E000000 < src.length ∨ d = .limitedOutput ∨ d = .fillOutput ∧ dst.length = 0) ∨
    ∃ c ≤ src.length, BlockFor (r.mem.take r.value) (src.take c) ∧ 0 < r.value ∧
      r.value ≤ dst.length ∧
      (d = .fillOutput ∧ r.inputConsumed = some c ∧ (c < src.length → dst.length ≤ r.value + 1) ∨
        d ≠ .fillOutput ∧ r.inputConsumed = none ∧ c = src.length)

theorem blockFor_nil : BlockFor [0] [] :=
  ⟨⟨[], [], 0, by omega⟩, rfl, nofun, trivial, nofun, rfl, rfl⟩

section Generic

variable {st : Stream} {src : List UInt8} {dst : Mem} {acceleration : ℕ} {d : LimitedOutput}
  {t : TableType} {issue : DictIssue} (cap : ℕ) (hst : st.Ok) (hdict : st.dictSize = 0)
  (ht : t = .byU16 ∧ st.currentOffset + src.length < 65536 + 11 ∨
    t = .byU32 ∧ st.currentOffset = 0)
  (hissue : issue = .noDictIssue → st.currentOffset = 0) (hacc : 1 ≤ acceleration)
  (hcap : d = .notLimited → compressBound src.length ≤ dst.length)
  (hcap' : d ≠ .notLimited → cap = dst.length)

include hst hcap hcap'

/-- An empty input is a block of one byte, if there is room for that. -/
theorem compressGeneric_nil (hempty : src.length = 0) :
    ∃ r, compressGeneric st src dst cap d t issue acceleration = some r ∧ r.Ok src dst d := by
  have hbound : compressBound src.length = 16 := by rw [hempty]; rfl
  rw [compressGeneric, if_neg (by omega), if_pos hempty]
  by_cases hnone : d ≠ .notLimited ∧ cap = 0
  · refine ⟨_, if_pos hnone, hst, rfl, Or.inl ⟨rfl, rfl, Or.inr ?_⟩⟩
    have h0 : dst.length = 0 := (hcap' hnone.1).symm.trans hnone.2
    cases d with
    | notLimited => exact absurd rfl hnone.1
    | limitedOutput => exact Or.inl rfl
    | fillOutput => exact Or.inr ⟨rfl, h0⟩
  · have hpos : 0 < dst.length := by
      by_cases hd : d = .notLimited
      · have := hcap hd
        omega
      · have := hcap' hd
        exact Nat.pos_of_ne_zero fun h0 => hnone ⟨hd, this.trans h0⟩
    rw [if_neg hnone, if_neg hpos.ne']
    have htake : (dst.set 0 0).take 1 = [0] := by
      cases dst with
      | nil => exact absurd rfl hpos.ne'
      | cons b dst => rfl
    refine ⟨_, rfl, hst, List.length_set ..,
      Or.inr ⟨0, Nat.zero_le _, ?_, Nat.one_pos, hpos, ?_⟩⟩
    · rw [List.take_zero, htake]
      exact blockFor_nil
    · by_cases hd : d = .fillOutput
      · exact Or.inl ⟨hd, if_pos hd, fun h => absurd h (by omega)⟩
      · exact Or.inr ⟨hd, if_neg hd, hempty.symm⟩

include hdict ht hissue hacc

/-- **`LZ4_compress_generic_validated`,** on an input that is neither empty nor too large. -/
theorem compressGenericValidated_spec (hempty : src.length ≠ 0) (hsmall : src.length ≤ 0x7E000000) :
    ∃ r, compressGenericValidated st src dst cap d t issue acceleration = some r ∧
      r.Ok src dst d := by
  have hbound : compressBound src.length = src.length + src.length / 255 + 16 :=
    if_neg (Nat.not_lt.2 hsmall)
  have hlim : d = .fillOutput → cap = dst.length := fun h => hcap' (by rw [h]; decide)
  rw [compressGenericValidated]
  by_cases hzero : d = .fillOutput ∧ cap < 1
  · refine ⟨_, if_pos hzero, hst, rfl, Or.inl ⟨rfl, rfl, Or.inr (Or.inr ⟨hzero.1, ?_⟩)⟩⟩
    have := hlim hzero.1
    omega
  have hoff := hst.offset_le
  have hprefix : (st.currentOffset + 2 ^ 32 - st.dictSize) % 2 ^ 32 = st.currentOffset := by
    rw [hdict]
    omega
  have hmod : (st.currentOffset + src.length) % 2 ^ 32 = st.currentOffset + src.length := by
    omega
  rw [if_neg hzero, hprefix, hmod]
  have hJ : Job.Ok
      { src, dstSize := dst.length, maxOutputSize := cap, outputDirective := d
        tableType := t, dictIssue := issue, startIndex := st.currentOffset
        prefixIdxLimit := st.currentOffset, acceleration } := by
    refine ⟨fun h => ?_, ?_, fun h => ?_, hacc, fun _ => rfl, hissue, fun h => ?_, fun h => ?_⟩
    · rcases ht with ⟨ht, -⟩ | ⟨ht, -⟩ <;> exact absurd (ht.symm.trans h) (by decide)
    · show st.currentOffset + src.length < 2 ^ 31 - 1
      omega
    · rcases ht with ⟨-, hlt⟩ | ⟨ht, -⟩
      · exact hlt
      · exact absurd (ht.symm.trans h) (by decide)
    · exact hbound ▸ hcap h
    · exact hcap' h
  obtain ⟨r, hr, hok⟩ := compressInput_spec hJ rfl
    (show ∀ h, st.hashTable h = 0 ∨ _ from fun h => (hst.below h).imp_right Or.inl)
    fun hd => Nat.pos_of_ne_zero fun h0 => hzero ⟨hd, by have : cap = 0 := h0; omega⟩
  simp only [guard, if_pos hacc, Option.pure_def, Option.bind_eq_bind, Option.bind_some, hr]
  refine ⟨_, rfl, ⟨fun h => ?_, fun h => ?_, ?_⟩, hok.size, ?_⟩
  · rcases ht with ⟨ht, -⟩ | ⟨ht, -⟩ <;> exact absurd (ht.symm.trans h) (by decide)
  · have hpos : 0 < src.length := Nat.pos_of_ne_zero hempty
    rcases hok.filed h with h0 | h0 | h0
    · exact Or.inl h0
    · exact Or.inr (Nat.lt_add_right _ h0)
    · exact Or.inr h0.1
  · show st.currentOffset + src.length ≤ 0x7E000000
    omega
  · rcases hok.block with ⟨h0, hc, hd⟩ | ⟨c, hc, hblock, hpos, hle, hcons⟩
    · exact Or.inl ⟨h0, hc, Or.inr (Or.inl hd)⟩
    · exact Or.inr ⟨c, hc, hblock, hpos, hle, hcons⟩

/-- **`LZ4_compress_generic`,** with a context that is fit for the input. -/
theorem compressGeneric_spec :
    ∃ r, compressGeneric st src dst cap d t issue acceleration = some r ∧ r.Ok src dst d := by
  by_cases hempty : src.length = 0
  · exact compressGeneric_nil cap hst hcap hcap' hempty
  rw [compressGeneric]
  by_cases hbig : src.length > 0x7E000000
  · exact ⟨_, if_pos hbig, hst, rfl, Or.inl ⟨rfl, rfl, Or.inl hbig⟩⟩
  rw [if_neg hbig, if_neg hempty]
  exact compressGenericValidated_spec cap hst hdict ht hissue hacc hcap hcap' hempty
    (Nat.not_lt.1 hbig)

end Generic

/-! ### The functions of the interface -/

/-- The table fits the input, when the indices start at `0`. -/
theorem tableTypeFor_spec (n : ℕ) :
    tableTypeFor n = .byU16 ∧ 0 + n < 65536 + 11 ∨ tableTypeFor n = .byU32 ∧ 4096 ≤ n := by
  rw [tableTypeFor]
  split_ifs with h
  · exact Or.inl ⟨rfl, by omega⟩
  · exact Or.inr ⟨rfl, by omega⟩

theorem one_le_accelerationFor (a : ℤ) : 1 ≤ accelerationFor a := by
  rw [accelerationFor]
  split_ifs <;> omega

/-- What a call that is to compress the whole input has to return. -/
structure Compressed.Sound (src : List UInt8) (dst : Mem) (r : Compressed) : Prop where
  stream : r.stream.Ok
  size : r.mem.length = dst.length
  value_le : r.value ≤ dst.length
  bound : r.value ≤ src.length + src.length / 255 + 16
  succeeds : src.length ≤ 0x7E000000 → compressBound src.length ≤ dst.length → 0 < r.value
  block : 0 < r.value → BlockFor (r.mem.take r.value) src
  consumed : r.inputConsumed = none

theorem Compressed.Ok.sound {src : List UInt8} {dst : Mem} {d : LimitedOutput} {r : Compressed}
    (h : r.Ok src dst d) (hd : d ≠ .fillOutput)
    (hlim : d = .limitedOutput → dst.length < compressBound src.length) : r.Sound src dst := by
  obtain ⟨hstream, hsize, hblock⟩ := h
  rcases hblock with ⟨h0, hnone, hwhy⟩ | ⟨c, -, hblock, hpos, hle, hcons⟩
  · refine ⟨hstream, hsize, by omega, by omega, fun hsmall hroom => ?_, fun hpos => by omega, hnone⟩
    rcases hwhy with hbig | hl | ⟨hf, -⟩
    · omega
    · have := hlim hl
      omega
    · exact absurd hf hd
  · obtain ⟨-, hnone, rfl⟩ := hcons.resolve_left fun h => hd h.1
    rw [List.take_length] at hblock
    have hlen := hblock.length_le
    rw [List.length_take, hsize] at hlen
    exact ⟨hstream, hsize, hle, by omega, fun _ _ => hpos, fun _ => hblock, hnone⟩

/-- **Decoding what has been compressed.** -/
theorem Compressed.Sound.decompress {src : List UInt8} {dst : Mem} {r : Compressed}
    (h : r.Sound src dst) (hpos : 0 < r.value) {aarch64 : Bool} {srcAddr dstAddr : ℕ} {dst' : Mem}
    (hfit : src.length ≤ dst'.length) (hmem : FitsMemory srcAddr dstAddr dst.length dst'.length) :
    ∃ mem', decompressSafe aarch64 srcAddr dstAddr (r.mem.take r.value) dst' =
      some ((src.length : ℤ), mem') ∧ mem'.take src.length = src := by
  obtain ⟨h1, h2⟩ := hmem
  have hlen : (r.mem.take r.value).length ≤ dst.length := by
    have := h.size
    rw [List.length_take]
    omega
  exact decompressSafe_of_blockFor aarch64 (h.block hpos) hfit ⟨by omega, by omega⟩

theorem fits_initStream (src : List UInt8) :
    tableTypeFor src.length = .byU16 ∧ initStream.currentOffset + src.length < 65536 + 11 ∨
      tableTypeFor src.length = .byU32 ∧ initStream.currentOffset = 0 :=
  (tableTypeFor_spec src.length).imp_right fun h => ⟨h.1, rfl⟩

/-- `LZ4_compress_fast_extState`, whatever it is called with. -/
theorem compressFastExtState_spec (src : List UInt8) (dst : Mem) (acceleration : ℤ) :
    ∃ r, compressFastExtState src dst acceleration = some r ∧ r.Sound src dst := by
  have ht := fits_initStream src
  have hacc := one_le_accelerationFor acceleration
  rw [compressFastExtState]
  split_ifs with hroom
  · obtain ⟨r, hr, hok⟩ := compressGeneric_spec 0 initStream_ok rfl ht (fun _ => rfl) hacc
      (fun _ => hroom) fun h => absurd rfl h
    exact ⟨r, hr, hok.sound (by decide) nofun⟩
  · obtain ⟨r, hr, hok⟩ := compressGeneric_spec (d := .limitedOutput) dst.length initStream_ok rfl
      ht (fun _ => rfl) hacc nofun fun _ => rfl
    exact ⟨r, hr, hok.sound (by decide) fun _ => by omega⟩

/-- **The compressor is safe and complete.**  For every input, buffer and acceleration it
returns without a fault, with the size of a block for the whole input that is at most
`LZ4_compressBound`, or with `0`, which is not so when there is that much room. -/
theorem compressFast_sound (src : List UInt8) (dst : Mem) (acceleration : ℤ) :
    ∃ r, compressFastExtState src dst acceleration = some r ∧ r.mem.length = dst.length ∧
      r.value ≤ dst.length ∧ r.value ≤ src.length + src.length / 255 + 16 ∧
      (src.length ≤ 0x7E000000 → compressBound src.length ≤ dst.length → 0 < r.value) ∧
      (0 < r.value → BlockFor (r.mem.take r.value) src) := by
  obtain ⟨r, hr, h⟩ := compressFastExtState_spec src dst acceleration
  exact ⟨r, hr, h.size, h.value_le, h.bound, h.succeeds, h.block⟩

/-- **Compressing and decompressing gives back the input,** unless the compressor returns `0`,
which it does not do with `LZ4_compressBound` bytes of room. -/
theorem compressFast_roundTrip (src : List UInt8) (dst dst' : Mem) (acceleration : ℤ)
    (aarch64 : Bool) {srcAddr dstAddr : ℕ} (hfit : src.length ≤ dst'.length)
    (hmem : FitsMemory srcAddr dstAddr dst.length dst'.length) :
    ∃ r, compressFastExtState src dst acceleration = some r ∧
      (src.length ≤ 0x7E000000 → compressBound src.length ≤ dst.length → 0 < r.value) ∧
      (0 < r.value → ∃ mem', decompressSafe aarch64 srcAddr dstAddr (r.mem.take r.value) dst' =
        some ((src.length : ℤ), mem') ∧ mem'.take src.length = src) := by
  obtain ⟨r, hr, h⟩ := compressFastExtState_spec src dst acceleration
  exact ⟨r, hr, h.succeeds, fun hpos => h.decompress hpos hfit hmem⟩

/-- The hypotheses are satisfiable: forty equal bytes. -/
theorem compressFast_roundTrip_forty :
    ∃ r, compressFastExtState (List.replicate 40 97) (zeros 56) 1 = some r ∧
      ((List.replicate 40 (97 : UInt8)).length ≤ 0x7E000000 →
        compressBound (List.replicate 40 (97 : UInt8)).length ≤ (zeros 56).length → 0 < r.value) ∧
      (0 < r.value → ∃ mem', decompressSafe true 0 0 (r.mem.take r.value) (zeros 40) =
        some (((List.replicate 40 (97 : UInt8)).length : ℤ), mem') ∧
        mem'.take (List.replicate 40 (97 : UInt8)).length = List.replicate 40 97) :=
  compressFast_roundTrip _ _ _ 1 true (by simp) ⟨by simp, by simp⟩

/-- `LZ4_decompress_safe` by the name that the other functions of its kind have for it. -/
theorem decompressGeneric_eq {F : Params} (hdictionary : F.dictionary = []) (hstart : F.start = 0)
    (hfull : F.partialDecoding = .decodeFullBlock) (hdict : F.dict = .noDict) (src : List UInt8)
    (dst : Mem) : decompressGeneric (some src) dst.length F dst =
      decompressSafe F.aarch64 F.srcAddr F.dstAddr src dst := by
  rw [decompressGeneric, if_neg (Int.natCast_nonneg _).not_gt, Int.toNat_natCast, decompressSafe,
    hdictionary, hstart, hfull, hdict]

/-- **`LZ4_compress_default` and `LZ4_decompress_generic`** without a dictionary give back the
input, too. -/
theorem compressDefault_roundTrip (src : List UInt8) (dst dst' : Mem) {F : Params}
    (hdictionary : F.dictionary = []) (hstart : F.start = 0)
    (hfull : F.partialDecoding = .decodeFullBlock) (hdict : F.dict = .noDict)
    (hfit : src.length ≤ dst'.length)
    (hmem : FitsMemory F.srcAddr F.dstAddr dst.length dst'.length) :
    ∃ r, compressDefault src dst = some r ∧ r.mem.length = dst.length ∧ r.value ≤ dst.length ∧
      (src.length ≤ 0x7E000000 → compressBound src.length ≤ dst.length → 0 < r.value) ∧
      (0 < r.value → ∃ mem', decompressGeneric (some (r.mem.take r.value)) dst'.length F dst' =
        some ((src.length : ℤ), mem') ∧ mem'.take src.length = src) := by
  obtain ⟨r, hr, h⟩ := compressFastExtState_spec src dst 1
  refine ⟨r, hr, h.size, h.value_le, h.succeeds, fun hpos => ?_⟩
  rw [decompressGeneric_eq hdictionary hstart hfull hdict]
  exact h.decompress hpos hfit hmem

/-! ### Filling a buffer -/

/-- The contexts a program can have made: `LZ4_compress_fast_extState` starts with a new one,
the `_fastReset` function goes on with what it is given. -/
inductive Stream.Reachable : Stream → Prop
  | init : Reachable initStream
  | reset {st : Stream} : Reachable st → Reachable (resetStreamFast st)
  | fast {src : List UInt8} {dst : Mem} {acceleration : ℤ} {r : Compressed} :
      compressFastExtState src dst acceleration = some r → Reachable r.stream
  | fastReset {st : Stream} {src : List UInt8} {dst : Mem} {acceleration : ℤ} {r : Compressed} :
      Reachable st → compressFastExtStateFastReset st src dst acceleration = some r →
        Reachable r.stream

/-- **One call with a context in use** is one call with a new one. -/
theorem compressFastExtStateFastReset_spec {st : Stream} (hst : st.Ok) (src : List UInt8)
    (dst : Mem) (acceleration : ℤ) :
    ∃ r, compressFastExtStateFastReset st src dst acceleration = some r ∧ r.Sound src dst := by
  obtain ⟨hok, hdict, h16, h32⟩ := prepareTable_spec hst src.length (tableTypeFor src.length)
  have hacc := one_le_accelerationFor acceleration
  have ht : tableTypeFor src.length = .byU16 ∧
        (prepareTable st src.length (tableTypeFor src.length)).currentOffset + src.length <
          65536 + 11 ∨
      tableTypeFor src.length = .byU32 ∧
        (prepareTable st src.length (tableTypeFor src.length)).currentOffset = 0 := by
    refine (tableTypeFor_spec src.length).imp (fun ⟨h, hlt⟩ => ⟨h, ?_⟩) fun ⟨h, hlt⟩ =>
      ⟨h, h32 hlt h⟩
    rcases h16 h with h0 | h0 <;> omega
  simp only [compressFastExtStateFastReset]
  generalize hissue : (if tableTypeFor src.length = .byU16 ∧
    (prepareTable st src.length (tableTypeFor src.length)).currentOffset ≠ 0 then
      DictIssue.dictSmall else .noDictIssue) = issue
  -- Without a reset what the table holds is below the first index, and counts as too small.
  have hnone : issue = .noDictIssue →
      (prepareTable st src.length (tableTypeFor src.length)).currentOffset = 0 := by
    intro h
    by_contra h0
    rcases ht with ⟨h16, -⟩ | ⟨-, h0'⟩
    · rw [if_pos ⟨h16, h0⟩] at hissue
      exact absurd (hissue.trans h) (by decide)
    · exact h0 h0'
  split_ifs with hroom
  · obtain ⟨r, hr, hok⟩ := compressGeneric_spec 0 hok hdict ht hnone hacc (fun _ => hroom)
      fun h => absurd rfl h
    exact ⟨r, hr, hok.sound (by decide) nofun⟩
  · obtain ⟨r, hr, hok⟩ := compressGeneric_spec (d := .limitedOutput) dst.length hok hdict ht hnone
      hacc nofun fun _ => rfl
    exact ⟨r, hr, hok.sound (by decide) fun _ => by omega⟩

theorem Stream.Reachable.ok {st : Stream} (h : st.Reachable) : st.Ok := by
  induction h with
  | init => exact initStream_ok
  | reset _ ih => exact (prepareTable_spec ih 0 .byU32).1
  | @fast src dst acceleration r hr =>
    obtain ⟨r', hr', h⟩ := compressFastExtState_spec src dst acceleration
    rw [hr] at hr'
    exact Option.some.inj hr' ▸ h.stream
  | @fastReset st src dst acceleration r _ hr ih =>
    obtain ⟨r', hr', h⟩ := compressFastExtStateFastReset_spec ih src dst acceleration
    rw [hr] at hr'
    exact Option.some.inj hr' ▸ h.stream

/-- **A context can be used any number of times.**  Whatever has been compressed with it,
successfully or not, the next call returns, fails only when there is too little room, and makes
a block that decodes to its own input. -/
theorem fastReset_roundTrip {st : Stream} (hst : st.Reachable) (src : List UInt8) (dst dst' : Mem)
    (acceleration : ℤ) (aarch64 : Bool) {srcAddr dstAddr : ℕ} (hfit : src.length ≤ dst'.length)
    (hmem : FitsMemory srcAddr dstAddr dst.length dst'.length) :
    ∃ r, compressFastExtStateFastReset st src dst acceleration = some r ∧
      r.mem.length = dst.length ∧ r.value ≤ dst.length ∧
      (src.length ≤ 0x7E000000 → compressBound src.length ≤ dst.length → 0 < r.value) ∧
      (0 < r.value → ∃ mem', decompressSafe aarch64 srcAddr dstAddr (r.mem.take r.value) dst' =
        some ((src.length : ℤ), mem') ∧ mem'.take src.length = src) := by
  obtain ⟨r, hr, h⟩ := compressFastExtStateFastReset_spec hst.ok src dst acceleration
  exact ⟨r, hr, h.size, h.value_le, h.succeeds, fun hpos => h.decompress hpos hfit hmem⟩

/-- The hypotheses are satisfiable: a context behind one call that has succeeded. -/
theorem fastReset_roundTrip_again :
    ∃ st r, compressFastExtState (List.replicate 20 98) (zeros 40) 1 = some st ∧
      compressFastExtStateFastReset st.stream (List.replicate 40 97) (zeros 56) 1 = some r ∧
      r.mem.length = (zeros 56).length ∧ r.value ≤ (zeros 56).length ∧
      ((List.replicate 40 (97 : UInt8)).length ≤ 0x7E000000 →
        compressBound (List.replicate 40 (97 : UInt8)).length ≤ (zeros 56).length → 0 < r.value) ∧
      (0 < r.value → ∃ mem', decompressSafe true 0 0 (r.mem.take r.value) (zeros 40) =
        some (((List.replicate 40 (97 : UInt8)).length : ℤ), mem') ∧
        mem'.take (List.replicate 40 (97 : UInt8)).length = List.replicate 40 97) := by
  obtain ⟨r₁, h₁, -⟩ := compressFastExtState_spec (List.replicate 20 98) (zeros 40) 1
  obtain ⟨r₂, h₂⟩ := fastReset_roundTrip (Stream.Reachable.fast h₁) (List.replicate 40 97)
    (zeros 56) (zeros 40) 1 true (by simp)
    (show FitsMemory 0 0 (zeros 56).length (zeros 40).length from ⟨by simp, by simp⟩)
  exact ⟨r₁, r₂, h₁, h₂⟩

end Lz4
end Twrp

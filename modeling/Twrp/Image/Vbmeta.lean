/-
# `make_vbmeta_nocheck.py` against the vbmeta header

`strip` takes the descriptors of a vbmeta image to be named by the two numbers at
offsets 72 and 80.  In the header of AVB 1.x these are the size of the public key
and the offset of its metadata; the offset and the size of the descriptors stand at
96 and 104, and offsets are relative to the auxiliary block.  So the descriptors
are never removed: where the offset of the metadata is not zero, `strip` clears
that field and a stretch of the image that has nothing to do with descriptors, and
where it is zero nothing happens (`strip_iff`).
-/

import Twrp.Python.Struct
import Twrp.Bytes.Text

namespace Twrp
namespace Vbmeta

open Bytes Python

/-! ### The script -/

/-- `strip` on the contents of `path`; `none` where it raises. -/
def strip (d : List UInt8) : Option (List UInt8) := do
  guard (d.take 4 = ascii "AVB0")
  let descOff ← (unpackFrom 8 d 72).map beNat
  let descSize ← (unpackFrom 8 d 80).map beNat
  if descSize ≠ 0 then
    let fill ← zeroBytes descSize
    packInto (assign d descOff (descOff + descSize : ℕ) fill) 80 (beBytes 8 0)
  else pure d

/-! ### The format -/

/-- The big-endian number of eight bytes at offset `i`. -/
def u64 (d : List UInt8) (i : ℕ) : ℕ := beNat (slice d i 8)

section Header

variable (d : List UInt8)

def authenticationSize : ℕ := u64 d 12
def auxiliarySize : ℕ := u64 d 20
def publicKeyOffset : ℕ := u64 d 64
def publicKeySize : ℕ := u64 d 72
def metadataOffset : ℕ := u64 d 80
def metadataSize : ℕ := u64 d 88
def descriptorsOffset : ℕ := u64 d 96
def descriptorsSize : ℕ := u64 d 104

/-- Where the auxiliary block begins. -/
def auxiliaryStart : ℕ := 256 + authenticationSize d

/-- The byte at `k` belongs to the descriptors. -/
def InDescriptors (k : ℕ) : Prop :=
  auxiliaryStart d + descriptorsOffset d ≤ k ∧
    k < auxiliaryStart d + descriptorsOffset d + descriptorsSize d

/-- A vbmeta image: the blocks lie inside it, and the three regions inside the
auxiliary block.  What is read into memory has fewer than `2 ^ 63` bytes. -/
structure WellFormed : Prop where
  magic : d.take 4 = ascii "AVB0"
  blocks : auxiliaryStart d + auxiliarySize d ≤ d.length
  publicKey : publicKeyOffset d + publicKeySize d ≤ auxiliarySize d
  metadata : metadataOffset d + metadataSize d ≤ auxiliarySize d
  descriptors : descriptorsOffset d + descriptorsSize d ≤ auxiliarySize d
  length_lt : d.length < 2 ^ 63

end Header

/-- What removing the descriptors means: none are left, and nothing else changes. -/
structure Stripped (d out : List UInt8) : Prop where
  length_eq : out.length = d.length
  descriptorsSize_eq : descriptorsSize out = 0
  kept : ∀ k, ¬ (96 ≤ k ∧ k < 112) → ¬ InDescriptors d k → out[k]? = d[k]?

/-! ### What the script does -/

theorem WellFormed.length_ge {d : List UInt8} (h : WellFormed d) : 256 ≤ d.length := by
  have := h.blocks
  unfold auxiliaryStart at this
  omega

/-- What `strip` does to a vbmeta image: the number it takes for the size of the
descriptors is the offset of the metadata. -/
theorem strip_eq {d : List UInt8} (h : WellFormed d) :
    strip d =
      if metadataOffset d ≠ 0 then
        (zeroBytes (metadataOffset d)).bind fun fill =>
          packInto (assign d (publicKeySize d) (publicKeySize d + metadataOffset d : ℕ) fill) 80
            (beBytes 8 0)
      else some d := by
  have hge := h.length_ge
  have hoff : unpackFrom 8 d 72 = some (slice d 72 8) :=
    unpackFrom_eq (i := 72) (by omega)
  have hsize : unpackFrom 8 d 80 = some (slice d 80 8) :=
    unpackFrom_eq (i := 80) (by omega)
  rw [strip, hoff, hsize, guard, if_pos h.magic]
  rfl

/-- The metadata begins inside the image. -/
theorem WellFormed.metadataOffset_le {d : List UInt8} (h : WellFormed d) :
    metadataOffset d ≤ d.length := by
  have hblocks := h.blocks
  have hmetadata := h.metadata
  omega

/-- With the field at 80 not zero, `strip` clears it. -/
theorem strip_of_ne_zero {d : List UInt8} (h : WellFormed d) (h0 : metadataOffset d ≠ 0) :
    ∃ out, strip d = some out ∧ slice out 80 8 = zeros 8 := by
  have hge := h.length_ge
  have hle := h.metadataOffset_le
  have hlt := h.length_lt
  rw [strip_eq h, if_pos h0, zeroBytes, if_pos (by omega), Option.bind_some]
  generalize hcleared : assign d _ _ _ = cleared
  -- a slice assignment of that many bytes can lengthen the image, never shorten it
  have hlen : 88 ≤ cleared.length := by
    have := length_assign_ge d (publicKeySize d) (zeros (metadataOffset d))
    rw [length_zeros, hcleared] at this
    omega
  have hfit : 80 + (beBytes 8 0).length ≤ cleared.length := by
    rw [length_beBytes]
    exact hlen
  refine ⟨_, packInto_eq hfit, ?_⟩
  calc slice (splice cleared 80 (80 + (beBytes 8 0).length) (beBytes 8 0)) 80 8
    _ = beBytes 8 0 := slice_splice_self (by omega)
    _ = zeros 8 := by decide

/-- **When `strip` does what it says.**  It never fails on a vbmeta image, and it
removes the descriptors and nothing else only where there are none and the
metadata of the public key has offset zero. -/
theorem strip_iff (d : List UInt8) (h : WellFormed d) :
    ∃ out, strip d = some out ∧
      (Stripped d out ↔ metadataOffset d = 0 ∧ descriptorsSize d = 0) := by
  by_cases h0 : metadataOffset d = 0
  · refine ⟨d, by rw [strip_eq h, if_neg (not_not.2 h0)], fun hs => ⟨h0, hs.descriptorsSize_eq⟩,
      fun hz => ?_⟩
    exact ⟨rfl, hz.2, fun k _ _ => rfl⟩
  · obtain ⟨out, hout, hzero⟩ := strip_of_ne_zero h h0
    refine ⟨out, hout, fun hs => ?_, fun hz => absurd hz.1 h0⟩
    -- the cleared field lies in the header, outside the fields of the descriptors
    have hkept : slice out 80 8 = slice d 80 8 :=
      slice_eq_iff.2 fun k hk => hs.kept (80 + k) (by omega) fun hin => by
        have := hin.1
        unfold auxiliaryStart at this
        omega
    refine absurd ?_ h0
    rw [metadataOffset, u64, ← hkept, hzero]
    decide

/-- A vbmeta image with an auxiliary block of 64 bytes: the key takes the first
`key` bytes of it, the metadata is empty and stands at `metadata`, and
the descriptors are the `descriptors` bytes at offset `16`. -/
def image (key metadata descriptors : ℕ) : List UInt8 :=
  ascii "AVB0" ++ zeros 16 ++ beBytes 8 64 ++ zeros 44 ++ beBytes 8 key ++ beBytes 8 metadata ++
    zeros 8 ++ beBytes 8 16 ++ beBytes 8 descriptors ++ zeros 144 ++ List.replicate 64 1

theorem image_wellFormed : WellFormed (image 16 0 0) ∧ WellFormed (image 16 16 32) := by
  constructor <;> constructor <;> decide +kernel

/-- The hypotheses are satisfiable: an image without descriptors and without metadata
satisfies `strip_iff` with both sides true. -/
theorem strip_image_stripped :
    ∃ out, strip (image 16 0 0) = some out ∧ Stripped (image 16 0 0) out := by
  obtain ⟨out, hout, hiff⟩ := strip_iff (image 16 0 0) image_wellFormed.1
  exact ⟨out, hout, hiff.2 (by decide +kernel)⟩

/-- **The descriptors stay.**  An image with a key of 16 bytes, metadata at offset `16`
and 32 bytes of descriptors: after `strip` its header still names the descriptors, and
the size of the auxiliary block and the offset of the metadata have become zero. -/
theorem strip_image_not_stripped :
    WellFormed (image 16 16 32) ∧ ∃ out, strip (image 16 16 32) = some out ∧
      descriptorsSize out = 32 ∧ auxiliarySize out = 0 ∧ metadataOffset out = 0 ∧
      ¬ Stripped (image 16 16 32) out := by
  refine ⟨image_wellFormed.2, (strip (image 16 16 32)).getD [], by decide +kernel, ?_⟩
  have hsize : descriptorsSize ((strip (image 16 16 32)).getD []) = 32 := by decide +kernel
  refine ⟨hsize, by decide +kernel, by decide +kernel, fun hs => ?_⟩
  have := hs.descriptorsSize_eq
  omega

end Vbmeta
end Twrp

/-
# `patch_avb_tail.py` against the AVB footer

`patch` moves the end of the stock image to the end of a new one of a given size.
Its two numbers `vbmeta_off` and `vbmeta_size` are read at offsets 12 and 20 of the
footer, so they are the original image size and the offset of the vbmeta struct:
what moves is everything behind the original image.  Of the footer only the original
image size is rewritten, and the offset of the vbmeta struct stays the absolute one of
the stock image.  It names the struct again where the bytes of the new image coincide
with those of the struct (`patch_valid_iff`), which they do in an image of the same size
(`valid_of_sameSize`).  A gap between the original image and the struct moves along, and
takes room from the new image (`patch_tailIsVbmeta_iff`).
-/

import Twrp.Python.Struct
import Twrp.Bytes.Text
import Mathlib.Data.Option.Basic

namespace Twrp
namespace AvbTail

open Bytes Python

/-! ### The script -/

/-- `patch` on the contents of `img_path` and `stock_path`; `none` where it raises. -/
def patch (img stock : List UInt8) (partSize : ℤ) : Option (List UInt8) := do
  guard ((sliceFrom stock (-64)).take 4 = ascii "AVBf")
  -- the second number of the pair, `vbmeta_size`, is not used
  let vbmetaOff ← (unpackFrom 16 stock (-64 + 12)).map fun b => beNat (b.take 8)
  let tail := sliceFrom stock vbmetaOff
  guard ((img.length : ℤ) + tail.length ≤ partSize)
  let blank ← byteArray partSize
  let started := assign blank 0 img.length img
  let new := assignFrom started (partSize - tail.length) tail
  let size ← packBE 8 img.length
  packInto new (partSize - 64 + 12) size

/-! ### The footer -/

section Footer

variable (d : List UInt8)

def originalImageSize : ℕ := beNat (slice d (d.length - 52) 8)
def vbmetaOffset : ℕ := beNat (slice d (d.length - 44) 8)
def vbmetaSize : ℕ := beNat (slice d (d.length - 36) 8)

/-- The vbmeta struct, where the footer says it is. -/
def vbmeta : List UInt8 := slice d (vbmetaOffset d) (vbmetaSize d)

/-- The regions of an image with a footer: the original image, the vbmeta struct and
the footer, in this order. -/
structure Consistent : Prop where
  ordered : originalImageSize d ≤ vbmetaOffset d
  inside : vbmetaOffset d + vbmetaSize d + 64 ≤ d.length

end Footer

/-! ### What the script writes -/

/-- The new image has `p` bytes, with room for `img` and for what is moved, which is at
least the footer. -/
structure Fits (img stock : List UInt8) (p : ℕ) : Prop where
  footer : originalImageSize stock + 64 ≤ stock.length
  room : img.length + (stock.length - originalImageSize stock) ≤ p
  lt : p < 2 ^ 63

/-- An image of `p` bytes: `img`, a fill, and a tail with a footer, whose original size is
overwritten. -/
def assembled (img tail : List UInt8) (p : ℕ) : List UInt8 :=
  splice (img ++ (zeros (p - tail.length - img.length) ++ tail)) (p - 52) (p - 44)
    (beBytes 8 img.length)

/-- The new image: `img`, a fill, and everything from the original size of the stock
image on, with the footer's original size overwritten. -/
def relocated (img stock : List UInt8) (p : ℕ) : List UInt8 :=
  splice (img ++ (zeros (p - (stock.length - originalImageSize stock) - img.length) ++
    stock.drop (originalImageSize stock))) (p - 52) (p - 44) (beBytes 8 img.length)

theorem relocated_eq (img stock : List UInt8) (p : ℕ) :
    relocated img stock p = assembled img (stock.drop (originalImageSize stock)) p := by
  rw [relocated, assembled, List.length_drop]

theorem unpackFrom_footer {stock : List UInt8} (h : 64 ≤ stock.length) :
    (unpackFrom 16 stock (-64 + 12)).map (fun b => beNat (b.take 8)) =
      some (originalImageSize stock) := by
  have hoff : (-64 + 12 : ℤ) = -(52 : ℕ) := by norm_num
  rw [unpackFrom, hoff, window_neg (by omega) (by omega) (by omega), Option.map_some,
    Option.map_some, slice, List.take_take]
  rfl

/-- Filling a blank buffer from both ends. -/
theorem assign_blank {a b : List UInt8} {p : ℕ} (h : a.length + b.length ≤ p) :
    assignFrom (assign (zeros p) 0 a.length a) ((p : ℤ) - b.length) b =
      a ++ (zeros (p - b.length - a.length) ++ b) := by
  have hstart : assign (zeros p) 0 a.length a = a ++ zeros (p - a.length) := by
    have := assign_eq (d := zeros p) (i := 0) (j := a.length) (by omega)
      (by rw [length_zeros]; omega) a
    rw [Nat.cast_zero] at this
    rw [this, splice, List.take_zero, List.nil_append, Nat.zero_max, zeros, List.drop_replicate,
      zeros]
  have hlen : (a ++ zeros (p - a.length)).length = p := by
    rw [List.length_append, length_zeros]
    omega
  have hcast : (p : ℤ) - b.length = (p - b.length : ℕ) := by omega
  rw [hstart, assignFrom, hcast, bound_natCast, hlen, Nat.min_eq_right (Nat.sub_le ..), splice,
    Nat.max_eq_right (Nat.sub_le ..), List.drop_eq_nil_of_le hlen.le, List.append_nil,
    List.take_append, List.take_of_length_le (by omega), zeros, List.take_replicate,
    List.append_assoc, zeros]
  congr 3
  omega

/-- **What `patch` returns.** -/
theorem patch_eq {img stock out : List UInt8} {partSize : ℤ}
    (hfooter : originalImageSize stock + 64 ≤ stock.length)
    (h : patch img stock partSize = some out) :
    slice stock (stock.length - 64) 4 = ascii "AVBf" ∧
      ∃ p : ℕ, partSize = p ∧ Fits img stock p ∧ out = relocated img stock p := by
  simp only [patch, Option.bind_eq_bind, Option.bind_eq_some_iff, Option.guard_eq_some',
    unpackFrom_footer (show 64 ≤ stock.length by omega), Option.some.injEq] at h
  obtain ⟨-, hmagic, off, rfl, -, hfits, blank, hblank, size, hsize, hout⟩ := h
  rw [show (-64 : ℤ) = -(64 : ℕ) from rfl, sliceFrom_neg (by omega) (by omega)] at hmagic
  rw [sliceFrom_eq] at hfits hout
  obtain ⟨p, rfl⟩ := Int.eq_ofNat_of_zero_le (show 0 ≤ partSize by omega)
  have htail : (stock.drop (originalImageSize stock)).length =
      stock.length - originalImageSize stock := List.length_drop
  obtain ⟨hp, rfl⟩ : p < 2 ^ 63 ∧ zeros p = blank := by
    simp only [byteArray, zeroBytes] at hblank
    split_ifs at hblank with hneg hlt
    exact ⟨hlt, Option.some.inj hblank⟩
  refine ⟨hmagic, p, rfl, ⟨hfooter, by omega, hp⟩, ?_⟩
  obtain rfl : beBytes 8 img.length = size := by
    rw [packBE] at hsize
    split_ifs at hsize
    exact Option.some.inj hsize
  have hoff : (p : ℤ) - 64 + 12 = (p - 52 : ℕ) := by omega
  rw [assign_blank (by omega), hoff, packInto_eq] at hout
  · rw [← Option.some.inj hout, relocated, htail, length_beBytes,
      show p - 52 + 8 = p - 44 by omega]
  · simp only [List.length_append, length_zeros, length_beBytes, htail]
    omega

/-! ### Where the bytes of the new image come from -/

section Relocated

variable {img stock : List UInt8} {p : ℕ}

/-- The image before the footer is patched. -/
theorem length_body (h : Fits img stock p) :
    (img ++ (zeros (p - (stock.length - originalImageSize stock) - img.length) ++
      stock.drop (originalImageSize stock))).length = p := by
  have hroom := h.room
  simp only [List.length_append, length_zeros, List.length_drop]
  omega

theorem length_relocated (h : Fits img stock p) : (relocated img stock p).length = p := by
  have hfooter := h.footer
  have hroom := h.room
  have hbody := length_body h
  rw [relocated, length_splice (by omega) (by omega) (by rw [length_beBytes]; omega), hbody]

/-- The image comes first. -/
theorem relocated_image (h : Fits img stock p) {k : ℕ} (hk : k < img.length) :
    (relocated img stock p)[k]? = img[k]? := by
  have hfooter := h.footer
  have hroom := h.room
  have hbody := length_body h
  rw [relocated, getElem?_splice_of_lt (by omega) (by omega), List.getElem?_append_left hk]

/-- Between the image and what was moved stand zeros. -/
theorem relocated_fill (h : Fits img stock p) {k : ℕ} (hk : img.length ≤ k)
    (hkp : k + (stock.length - originalImageSize stock) < p) :
    (relocated img stock p)[k]? = some 0 := by
  have hfooter := h.footer
  have hroom := h.room
  have hbody := length_body h
  have hin : k - img.length < p - (stock.length - originalImageSize stock) - img.length := by omega
  rw [relocated, getElem?_splice_of_lt (by omega) (by omega), List.getElem?_append_right hk,
    List.getElem?_append_left (by rw [length_zeros]; exact hin), zeros,
    List.getElem?_replicate_of_lt hin]

/-- What was moved keeps its distance from the end, the patched field apart. -/
theorem relocated_tail (h : Fits img stock p) {k : ℕ}
    (hk : p ≤ k + (stock.length - originalImageSize stock))
    (hfield : ¬ (p ≤ k + 52 ∧ k + 44 < p)) :
    (relocated img stock p)[k]? = stock[k + stock.length - p]? := by
  have hfooter := h.footer
  have hroom := h.room
  have hbody := length_body h
  have hunpatched : (relocated img stock p)[k]? =
      (img ++ (zeros (p - (stock.length - originalImageSize stock) - img.length) ++
        stock.drop (originalImageSize stock)))[k]? := by
    rw [relocated]
    rcases Nat.lt_or_ge k (p - 52) with h | h
    · exact getElem?_splice_of_lt (by omega) h
    · exact getElem?_splice_of_ge (by omega) (by omega) (by rw [length_beBytes]; omega) (by omega)
  rw [hunpatched, List.getElem?_append_right (by omega),
    List.getElem?_append_right (by rw [length_zeros]; omega), length_zeros, List.getElem?_drop]
  congr 1
  omega

/-- The field that is patched. -/
theorem relocated_size (h : Fits img stock p) {k : ℕ} (hk : p ≤ k + 52)
    (hkp : k + 44 < p) :
    (relocated img stock p)[k]? = (beBytes 8 img.length)[k + 52 - p]? := by
  have hfooter := h.footer
  have hroom := h.room
  have hbody := length_body h
  rw [relocated, getElem?_splice_of_mem (by omega) (by omega) (by rw [length_beBytes]; omega)]
  congr 1
  omega

/-- The fields of the footer are those of the stock image, the patched one apart. -/
theorem slice_relocated_footer (h : Fits img stock p) {i n : ℕ} (hi : i ≤ 64)
    (hfield : n + 52 ≤ i ∨ i ≤ 44) :
    slice (relocated img stock p) ((relocated img stock p).length - i) n =
      slice stock (stock.length - i) n := by
  have hfooter := h.footer
  have hroom := h.room
  rw [length_relocated h]
  refine slice_eq_iff.2 fun j hj => ?_
  rw [relocated_tail h (by omega) (by omega)]
  congr 1
  omega

theorem vbmetaOffset_relocated (h : Fits img stock p) :
    vbmetaOffset (relocated img stock p) = vbmetaOffset stock := by
  rw [vbmetaOffset, slice_relocated_footer h (by omega) (by omega), vbmetaOffset]

theorem vbmetaSize_relocated (h : Fits img stock p) :
    vbmetaSize (relocated img stock p) = vbmetaSize stock := by
  rw [vbmetaSize, slice_relocated_footer h (by omega) (by omega), vbmetaSize]

theorem originalImageSize_relocated (h : Fits img stock p) :
    originalImageSize (relocated img stock p) = img.length := by
  have hfooter := h.footer
  have hroom := h.room
  have hlt := h.lt
  have hfield : slice (relocated img stock p) (p - 52) 8 = beBytes 8 img.length := by
    refine List.ext_getElem? fun j => ?_
    rcases Nat.lt_or_ge j 8 with hj | hj
    · rw [getElem?_slice hj, relocated_size h (by omega) (by omega)]
      congr 1
      omega
    · rw [List.getElem?_eq_none (by rw [length_slice]; omega),
        List.getElem?_eq_none (by rw [length_beBytes]; omega)]
  rw [originalImageSize, length_relocated h, hfield, beNat_beBytes,
    Nat.mod_eq_of_lt (by omega)]

theorem prefix_relocated (h : Fits img stock p) : img <+: relocated img stock p :=
  List.prefix_iff_getElem?.2 fun k hk => by
    rw [relocated_image h hk, List.getElem?_eq_getElem hk]

end Relocated

/-- Whatever the footer says, the new image begins with `img`. -/
theorem prefix_of_patch {img stock out : List UInt8} {partSize : ℤ}
    (hfooter : originalImageSize stock + 64 ≤ stock.length)
    (h : patch img stock partSize = some out) : img <+: out := by
  obtain ⟨-, p, -, hf, rfl⟩ := patch_eq hfooter h
  exact prefix_relocated hf

/-! ### When the footer is right -/

/-- The image is what a verifier expects: of the size of the partition, `img` first,
and a footer at the end that names the size of `img` and the vbmeta struct. -/
structure Valid (img stock out : List UInt8) (partSize : ℤ) : Prop where
  length_eq : (out.length : ℤ) = partSize
  image : img <+: out
  magic : slice out (out.length - 64) 4 = ascii "AVBf"
  size : originalImageSize out = img.length
  vbmeta_eq : vbmeta out = vbmeta stock

/-- The byte at `k` belongs to the vbmeta struct of the stock image. -/
def InVbmeta (stock : List UInt8) (k : ℕ) : Prop :=
  vbmetaOffset stock ≤ k ∧ k < vbmetaOffset stock + vbmetaSize stock

/-- The vbmeta struct lies inside a partition of `p` bytes, and each of its bytes is by
chance the one that the new image has in its place. -/
structure Coincides (img stock : List UInt8) (p : ℕ) : Prop where
  inside : ∀ k, InVbmeta stock k → k < p
  image : ∀ k, InVbmeta stock k → k < img.length → stock[k]? = img[k]?
  fill : ∀ k, InVbmeta stock k → img.length ≤ k →
    k + (stock.length - originalImageSize stock) < p → stock[k]? = some 0
  tail : ∀ k, InVbmeta stock k → p ≤ k + (stock.length - originalImageSize stock) →
    ¬ (p ≤ k + 52 ∧ k + 44 < p) → stock[k]? = stock[k + stock.length - p]?
  size : ∀ k, InVbmeta stock k → p ≤ k + 52 → k + 44 < p →
    stock[k]? = (beBytes 8 img.length)[k + 52 - p]?

theorem Consistent.footer_le {stock : List UInt8} (h : Consistent stock) :
    originalImageSize stock + 64 ≤ stock.length := by
  have hordered := h.ordered
  have hinside := h.inside
  omega

/-- In an image of the same size the struct keeps its place. -/
theorem Consistent.coincides {img stock : List UInt8} (h : Consistent stock)
    (hf : Fits img stock stock.length) : Coincides img stock stock.length := by
  have hfooter := hf.footer
  have hroom := hf.room
  have hordered := h.ordered
  have hinside := h.inside
  refine ⟨?_, ?_, ?_, ?_, ?_⟩ <;> rintro k ⟨hk, hk'⟩
  · omega
  · intro
    omega
  · intro
    omega
  · intro _ _
    rw [Nat.add_sub_cancel]
  · intro
    omega

/-- The struct is where the footer says exactly when its bytes coincide. -/
theorem vbmeta_relocated_iff {img stock : List UInt8} {p : ℕ} (h : Consistent stock)
    (hf : Fits img stock p) :
    vbmeta (relocated img stock p) = vbmeta stock ↔ Coincides img stock p := by
  have hinside := h.inside
  have hlen := length_relocated hf
  rw [vbmeta, vbmetaOffset_relocated hf, vbmetaSize_relocated hf, vbmeta, slice_eq_iff]
  constructor
  · intro heq
    have hkey : ∀ k, InVbmeta stock k → (relocated img stock p)[k]? = stock[k]? := by
      rintro k ⟨hk, hk'⟩
      have := heq (k - vbmetaOffset stock) (by omega)
      rwa [Nat.add_sub_cancel' hk] at this
    refine ⟨fun k hk => ?_, fun k hk hki => ?_, fun k hk hki hkp => ?_, fun k hk hkp hfield => ?_,
      fun k hk hkp hkf => ?_⟩
    · by_contra hkp
      have hnone := hkey k hk
      rw [List.getElem?_eq_none (by omega)] at hnone
      have := List.getElem?_eq_none_iff.1 hnone.symm
      have := hk.2
      omega
    · rw [← hkey k hk, relocated_image hf hki]
    · rw [← hkey k hk, relocated_fill hf hki hkp]
    · rw [← hkey k hk, relocated_tail hf hkp hfield]
    · rw [← hkey k hk, relocated_size hf hkp hkf]
  · intro hc j hj
    have hk : InVbmeta stock (vbmetaOffset stock + j) := ⟨by omega, by omega⟩
    generalize vbmetaOffset stock + j = k at hk
    -- the struct meets the image, the fill, the patched field or the rest of the tail
    rcases Nat.lt_or_ge k img.length with hki | hki
    · rw [relocated_image hf hki, hc.image k hk hki]
    · rcases Nat.lt_or_ge (k + (stock.length - originalImageSize stock)) p with hkp | hkp
      · rw [relocated_fill hf hki hkp, hc.fill k hk hki hkp]
      · by_cases hfield : p ≤ k + 52 ∧ k + 44 < p
        · rw [relocated_size hf hfield.1 hfield.2, hc.size k hk hfield.1 hfield.2]
        · rw [relocated_tail hf hkp hfield, hc.tail k hk hkp hfield]

/-- A new image is valid exactly when the struct is where its footer says. -/
theorem valid_relocated_iff {img stock : List UInt8} {p : ℕ} (h : Consistent stock)
    (hmagic : slice stock (stock.length - 64) 4 = ascii "AVBf") (hf : Fits img stock p) :
    Valid img stock (relocated img stock p) p ↔ Coincides img stock p := by
  refine ⟨fun hv => (vbmeta_relocated_iff h hf).1 hv.vbmeta_eq, fun hc => ?_⟩
  refine ⟨by rw [length_relocated hf], prefix_relocated hf, ?_, originalImageSize_relocated hf,
    (vbmeta_relocated_iff h hf).2 hc⟩
  rw [slice_relocated_footer hf (by omega) (by omega), hmagic]

/-- **When `patch` yields a valid image.**  The struct and the footer keep their
distance from the end, and the footer names the struct by its distance from the start,
so all is right exactly when the bytes that come to stand there are those of the struct. -/
theorem patch_valid_iff {img stock out : List UInt8} {partSize : ℤ} (hstock : Consistent stock)
    (h : patch img stock partSize = some out) :
    Valid img stock out partSize ↔ Coincides img stock partSize.toNat := by
  obtain ⟨hmagic, p, rfl, hf, rfl⟩ := patch_eq hstock.footer_le h
  rw [Int.toNat_natCast]
  exact valid_relocated_iff hstock hmagic hf

/-- **In an image of the size of the stock image** that is no coincidence. -/
theorem valid_of_sameSize {img stock out : List UInt8} (hstock : Consistent stock)
    (h : patch img stock stock.length = some out) : Valid img stock out stock.length := by
  obtain ⟨hmagic, p, hp, hf, rfl⟩ := patch_eq hstock.footer_le h
  obtain rfl : stock.length = p := Int.natCast_inj.1 hp
  exact (valid_relocated_iff hstock hmagic hf).2 (hstock.coincides hf)

/-- A stock image: eight bytes of content, a vbmeta struct of four bytes, and the
footer. -/
def stockImage : List UInt8 :=
  List.replicate 8 7 ++ ascii "AVB0" ++ ascii "AVBf" ++ zeros 8 ++ beBytes 8 8 ++ beBytes 8 8 ++
    beBytes 8 4 ++ zeros 28

theorem stockImage_consistent : Consistent stockImage := by
  constructor <;> decide +kernel

/-- The hypotheses are satisfiable: a shorter image in a partition of the same size. -/
theorem patch_stockImage_valid :
    ∃ out, patch [1, 2, 3] stockImage stockImage.length = some out ∧
      Valid [1, 2, 3] stockImage out stockImage.length := by
  have hrun : patch [1, 2, 3] stockImage stockImage.length =
      some ((patch [1, 2, 3] stockImage stockImage.length).getD []) := by decide +kernel
  exact ⟨_, hrun, (patch_valid_iff stockImage_consistent hrun).2
    (stockImage_consistent.coincides ⟨by decide +kernel, by decide +kernel, by decide +kernel⟩)⟩

/-- **A partition of another size.**  In four bytes more the struct moves by four bytes,
and the footer still names the old place, where there are zeros. -/
theorem patch_stockImage_not_valid :
    Consistent stockImage ∧ ∃ out, patch [1, 2, 3] stockImage (stockImage.length + 4) = some out ∧
      vbmeta stockImage = ascii "AVB0" ∧ vbmeta out = zeros 4 ∧
      ¬ Valid [1, 2, 3] stockImage out (stockImage.length + 4) := by
  have hstruct : vbmeta stockImage = ascii "AVB0" := by decide +kernel
  have hzeros : vbmeta ((patch [1, 2, 3] stockImage (stockImage.length + 4)).getD []) =
      zeros 4 := by decide +kernel
  refine ⟨stockImage_consistent, _, ?_, hstruct, hzeros, fun hv => ?_⟩
  · decide +kernel
  · rw [hv.vbmeta_eq, hstruct] at hzeros
    exact absurd hzeros (by decide)

/-! ### Where the tail begins -/

/-- The tail that `patch` copies: the stock image from the first of its two numbers on. -/
def copiedTail (stock : List UInt8) : Option (List UInt8) :=
  (unpackFrom 16 stock (-64 + 12)).map fun b => sliceFrom stock (beNat (b.take 8))

/-- `patch` uses the first number for the tail and for nothing else. -/
theorem patch_eq_copiedTail (img stock : List UInt8) (partSize : ℤ) :
    patch img stock partSize = (do
      guard ((sliceFrom stock (-64)).take 4 = ascii "AVBf")
      let tail ← copiedTail stock
      guard ((img.length : ℤ) + tail.length ≤ partSize)
      let blank ← byteArray partSize
      let size ← packBE 8 img.length
      packInto (assignFrom (assign blank 0 img.length img) (partSize - tail.length) tail)
        (partSize - 64 + 12) size) := by
  unfold patch copiedTail
  cases unpackFrom 16 stock (-64 + 12) <;> rfl

theorem copiedTail_eq {stock : List UInt8} (h : 64 ≤ stock.length) :
    copiedTail stock = some (stock.drop (originalImageSize stock)) := by
  obtain ⟨b, hb, hoff⟩ := Option.map_eq_some_iff.1 (unpackFrom_footer h)
  rw [copiedTail, hb, Option.map_some, hoff, sliceFrom_eq]

/-- **What fits is written.** -/
theorem patch_of_fits {img stock : List UInt8} {p : ℕ}
    (hmagic : slice stock (stock.length - 64) 4 = ascii "AVBf") (hf : Fits img stock p) :
    patch img stock p = some (relocated img stock p) := by
  have hfooter := hf.footer
  have hroom := hf.room
  have hlt := hf.lt
  have htail : (stock.drop (originalImageSize stock)).length =
      stock.length - originalImageSize stock := List.length_drop
  have hguard : (sliceFrom stock (-64)).take 4 = ascii "AVBf" := by
    rw [show (-64 : ℤ) = -(64 : ℕ) from rfl, sliceFrom_neg (by omega) (by omega)]
    exact hmagic
  have hsize : packBE 8 img.length = some (beBytes 8 img.length) := if_pos (by omega)
  have hoff : (p : ℤ) - 64 + 12 = (p - 52 : ℕ) := by omega
  rw [patch_eq_copiedTail, copiedTail_eq (by omega)]
  simp only [guard, if_pos hguard, Option.bind_eq_bind, Option.bind_some, Option.pure_def]
  rw [if_pos (by omega), Option.bind_some, byteArray_natCast hlt, Option.bind_some, hsize,
    Option.bind_some, assign_blank (by omega), hoff, packInto_eq]
  · rw [relocated, htail, length_beBytes, show p - 52 + 8 = p - 44 by omega]
  · simp only [List.length_append, length_zeros, length_beBytes, htail]
    omega

/-- **When `patch` succeeds** in a partition of the size of the stock image. -/
theorem isSome_patch_iff {img stock : List UInt8} (hstock : Consistent stock)
    (hmagic : slice stock (stock.length - 64) 4 = ascii "AVBf") (hlt : stock.length < 2 ^ 63) :
    (patch img stock stock.length).isSome ↔ img.length ≤ originalImageSize stock := by
  have hfooter := hstock.footer_le
  constructor
  · intro h
    obtain ⟨out, hout⟩ := Option.isSome_iff_exists.1 h
    obtain ⟨-, p, hp, hf, -⟩ := patch_eq hfooter hout
    have hroom := hf.room
    omega
  · intro h
    rw [patch_of_fits hmagic ⟨hfooter, by omega, hlt⟩]
    rfl

/-- The tail is the vbmeta struct with the footer: it is what `patch` copies, what is written is
`img`, a fill and just that, and nothing that leaves room for it is rejected. -/
def TailIsVbmeta (img stock : List UInt8) : Prop :=
  copiedTail stock = some (stock.drop (vbmetaOffset stock)) ∧
    (∀ out, patch img stock stock.length = some out →
      out = assembled img (stock.drop (vbmetaOffset stock)) stock.length) ∧
    ((patch img stock stock.length).isSome ↔ img.length ≤ vbmetaOffset stock)

/-- All that `patch` writes into an image of the size of the stock image is the new image, a fill,
and the vbmeta struct with the footer. -/
def WritesVbmeta (stock : List UInt8) : Prop :=
  ∀ img, patch img stock stock.length =
    if img.length ≤ vbmetaOffset stock then
      some (assembled img (stock.drop (vbmetaOffset stock)) stock.length)
    else none

/-- What is written, for all images at once, tells where the tail begins. -/
theorem writesVbmeta_iff {stock : List UInt8} (hstock : Consistent stock)
    (hmagic : slice stock (stock.length - 64) 4 = ascii "AVBf") (hlt : stock.length < 2 ^ 63) :
    WritesVbmeta stock ↔ originalImageSize stock = vbmetaOffset stock := by
  have hfooter := hstock.footer_le
  have hordered := hstock.ordered
  have hinside := hstock.inside
  constructor
  · intro h
    -- an image as long as the struct allows
    have hfull : (zeros (vbmetaOffset stock)).length = vbmetaOffset stock := length_zeros _
    have hsome : (patch (zeros (vbmetaOffset stock)) stock stock.length).isSome := by
      rw [h, if_pos hfull.le]
      rfl
    have := (isSome_patch_iff hstock hmagic hlt).1 hsome
    omega
  · intro heq img
    split_ifs with hroom
    · rw [patch_of_fits hmagic ⟨hfooter, by omega, hlt⟩, relocated_eq, heq]
    · refine Option.not_isSome_iff_eq_none.1 fun h => hroom ?_
      rw [← heq]
      exact (isSome_patch_iff hstock hmagic hlt).1 h

/-- **When the tail begins with the vbmeta struct.**  It begins where the original image
ended, so only a struct that stands right there is where the tail begins; a gap in
between is copied, and its room is missing for the new image.  What is written for all new
images together tells the same. -/
theorem patch_tailIsVbmeta_iff {stock : List UInt8} (hstock : Consistent stock)
    (hmagic : slice stock (stock.length - 64) 4 = ascii "AVBf") (hlt : stock.length < 2 ^ 63)
    (img : List UInt8) :
    (TailIsVbmeta img stock ↔ originalImageSize stock = vbmetaOffset stock) ∧
      (WritesVbmeta stock ↔ originalImageSize stock = vbmetaOffset stock) := by
  have hfooter := hstock.footer_le
  have hordered := hstock.ordered
  have hinside := hstock.inside
  refine ⟨?_, writesVbmeta_iff hstock hmagic hlt⟩
  rw [TailIsVbmeta, copiedTail_eq (by omega), isSome_patch_iff hstock hmagic hlt,
    Option.some.injEq]
  constructor
  · rintro ⟨htail, -, -⟩
    have hlen := congrArg List.length htail
    rw [List.length_drop, List.length_drop] at hlen
    omega
  · intro heq
    refine ⟨by rw [heq], fun out hout => ?_, by rw [heq]⟩
    obtain ⟨-, p, hp, -, rfl⟩ := patch_eq hfooter hout
    obtain rfl : stock.length = p := Int.natCast_inj.1 hp
    rw [relocated_eq, heq]

/-- The hypotheses are satisfiable: the struct stands right behind the content. -/
theorem patch_stockImage_tailIsVbmeta :
    TailIsVbmeta [1, 2, 3] stockImage ∧ WritesVbmeta stockImage :=
  have h := patch_tailIsVbmeta_iff stockImage_consistent (by decide +kernel) (by decide +kernel)
    [1, 2, 3]
  ⟨h.1.2 (by decide +kernel), h.2.2 (by decide +kernel)⟩

/-- A stock image with four bytes of padding between its content of four bytes and the
vbmeta struct. -/
def paddedImage : List UInt8 :=
  List.replicate 4 7 ++ zeros 4 ++ ascii "AVB0" ++ ascii "AVBf" ++ zeros 8 ++ beBytes 8 4 ++
    beBytes 8 8 ++ beBytes 8 4 ++ zeros 28

/-- **A gap in front of the struct.**  The tail begins with the padding, and an image of
six bytes is rejected, although the struct begins at eight. -/
theorem patch_paddedImage_rejects :
    Consistent paddedImage ∧
      slice paddedImage (paddedImage.length - 64) 4 = ascii "AVBf" ∧
      vbmetaOffset paddedImage = 8 ∧
      copiedTail paddedImage = some (paddedImage.drop 4) ∧
      patch (List.replicate 6 1) paddedImage paddedImage.length = none ∧
      ¬ TailIsVbmeta (List.replicate 6 1) paddedImage := by
  have hoff : vbmetaOffset paddedImage = 8 := by decide +kernel
  have hrun : patch (List.replicate 6 1) paddedImage paddedImage.length = none := by
    decide +kernel
  refine ⟨⟨by decide +kernel, by decide +kernel⟩, by decide +kernel, hoff, by decide +kernel,
    hrun, fun h => ?_⟩
  have := h.2.2.2 (by rw [hoff]; decide)
  rw [hrun] at this
  exact absurd this (by decide)

end AvbTail
end Twrp

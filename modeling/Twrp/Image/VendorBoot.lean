/-
# `build_vendor_boot_twrp.py`: replacing the vendor ramdisk

`build` takes the place of the vendor ramdisk from the stock header: it begins at
offset 4096 and is `vendor_ramdisk_size` bytes long.  The script checks that the new
ramdisk is shorter than that, and never that the region lies inside the file.  Where it
does, the two slice assignments write a ramdisk and a fill and touch nothing else
(`build_eq`); where it does not, they make the file longer (`build_onlyRegion_iff`).
-/

import Twrp.Python.Struct
import Twrp.Bytes.Text
import Mathlib.Data.Option.Basic

namespace Twrp
namespace VendorBoot

open Bytes Python

/-! ### The script -/

/-- `PAGE`. -/
def page : ℕ := 4096

/-- `HDR`, the size of the stock header. -/
def hdr : ℕ := 2128

/-- `ramdisk_off`. -/
def ramdiskOff : ℕ := (hdr + page - 1) / page * page

/-- `build` on the contents of `stock_path` and `twrp_gz_path`; `none` where it raises,
which it does before it opens `out_path`. -/
def build (stock twrp : List UInt8) : Option (List UInt8) := do
  guard (stock.take 8 = ascii "VNDRBOOT")
  let _hv ← unpackFrom 4 stock 8
  let vramdiskSize ← (unpackFrom 4 stock 24).map leNat
  guard (twrp.length < vramdiskSize)
  let cleared := assign stock ramdiskOff (ramdiskOff + vramdiskSize : ℕ) (zeros vramdiskSize)
  pure (assign cleared ramdiskOff (ramdiskOff + twrp.length : ℕ) twrp)

/-! ### The region -/

/-- `vendor_ramdisk_size` of a header. -/
def vramdiskSize (d : List UInt8) : ℕ := leNat (slice d 24 4)

/-- The ramdisk region lies inside the file. -/
def RegionInside (d : List UInt8) : Prop := ramdiskOff + vramdiskSize d ≤ d.length

/-- Only the ramdisk region was rewritten: it holds the payload and a fill of zeros. -/
structure OnlyRegion (stock twrp out : List UInt8) : Prop where
  length_eq : out.length = stock.length
  front : out.take ramdiskOff = stock.take ramdiskOff
  behind : out.drop (ramdiskOff + vramdiskSize stock) = stock.drop (ramdiskOff + vramdiskSize stock)
  payload : slice out ramdiskOff twrp.length = twrp
  fill : slice out (ramdiskOff + twrp.length) (vramdiskSize stock - twrp.length) =
    zeros (vramdiskSize stock - twrp.length)

/-- The stock image with the payload and a fill in its ramdisk region. -/
def built (stock twrp : List UInt8) : List UInt8 :=
  stock.take ramdiskOff ++ (twrp ++ (zeros (vramdiskSize stock - twrp.length) ++
    stock.drop (ramdiskOff + vramdiskSize stock)))

theorem ramdiskOff_eq : ramdiskOff = 4096 := rfl

/-! ### What the script writes -/

section Build

variable {stock twrp : List UInt8}

/-- With a whole header, `build` refuses the payload or assigns twice. -/
theorem build_of_header (hmagic : stock.take 8 = ascii "VNDRBOOT") (hlen : hdr ≤ stock.length) :
    build stock twrp =
      if twrp.length < vramdiskSize stock then
        some (assign (assign stock ramdiskOff (ramdiskOff + vramdiskSize stock : ℕ)
          (zeros (vramdiskSize stock))) ramdiskOff (ramdiskOff + twrp.length : ℕ) twrp)
      else none := by
  have h28 : 28 ≤ stock.length := le_trans (by decide) hlen
  have hversion : unpackFrom 4 stock 8 = some (slice stock 8 4) := unpackFrom_eq (i := 8) (by omega)
  have hsize : (unpackFrom 4 stock 24).map leNat = some (vramdiskSize stock) :=
    congrArg (Option.map leNat) (unpackFrom_eq (i := 24) (by omega))
  rw [build]
  simp only [hversion, hsize, guard, if_pos hmagic, Option.bind_eq_bind, Option.bind_some,
    Option.pure_def]
  by_cases h : twrp.length < vramdiskSize stock
  · rw [if_pos h, if_pos h, Option.bind_some]
  · rw [if_neg h, if_neg h]
    rfl

/-- **Inside the file** the two assignments write the payload and the fill. -/
theorem assign_region (hin : RegionInside stock) (hfit : twrp.length < vramdiskSize stock) :
    assign (assign stock ramdiskOff (ramdiskOff + vramdiskSize stock : ℕ)
      (zeros (vramdiskSize stock))) ramdiskOff (ramdiskOff + twrp.length : ℕ) twrp =
        built stock twrp := by
  have hin' : ramdiskOff + vramdiskSize stock ≤ stock.length := hin
  have hfront : (stock.take ramdiskOff).length = ramdiskOff := by
    rw [List.length_take]
    omega
  have hcleared : splice stock ramdiskOff (ramdiskOff + vramdiskSize stock)
      (zeros (vramdiskSize stock)) = stock.take ramdiskOff ++ (zeros twrp.length ++
        (zeros (vramdiskSize stock - twrp.length) ++
          stock.drop (ramdiskOff + vramdiskSize stock))) := by
    rw [splice, Nat.max_eq_right (Nat.le_add_right ..), ← List.append_assoc (zeros twrp.length),
      ← zeros_add, Nat.add_sub_cancel' hfit.le, List.append_assoc]
  rw [assign_eq (by omega) hin', hcleared, assign_eq, splice_append_middle hfront.symm]
  · rfl
  · rw [hfront, length_zeros]
  · rw [List.length_append, hfront]
    omega
  · simp only [List.length_append, hfront, length_zeros]
    omega

/-- **What `build` returns.** -/
theorem build_eq (hmagic : stock.take 8 = ascii "VNDRBOOT") (hlen : hdr ≤ stock.length)
    (hin : RegionInside stock) (hfit : twrp.length < vramdiskSize stock) :
    build stock twrp = some (built stock twrp) := by
  rw [build_of_header hmagic hlen, if_pos hfit, assign_region hin hfit]

/-- A payload that fits is put into the region and nowhere else. -/
theorem onlyRegion_built (hin : RegionInside stock) (hfit : twrp.length < vramdiskSize stock) :
    OnlyRegion stock twrp (built stock twrp) := by
  have hin' : ramdiskOff + vramdiskSize stock ≤ stock.length := hin
  have hfront : (stock.take ramdiskOff).length = ramdiskOff := by
    rw [List.length_take]
    omega
  have hend : (stock.take ramdiskOff ++ (twrp ++
      zeros (vramdiskSize stock - twrp.length))).length = ramdiskOff + vramdiskSize stock := by
    simp only [List.length_append, hfront, length_zeros]
    omega
  have hsplit : built stock twrp = (stock.take ramdiskOff ++ (twrp ++
      zeros (vramdiskSize stock - twrp.length))) ++
        stock.drop (ramdiskOff + vramdiskSize stock) := by
    simp only [built, List.append_assoc]
  constructor
  · rw [hsplit, List.length_append, hend, List.length_drop, Nat.add_sub_cancel' hin']
  · exact List.take_left' hfront
  · rw [hsplit]
    exact List.drop_left' hend
  · exact slice_append_middle hfront.symm rfl
  · rw [built, ← List.append_assoc]
    refine slice_append_middle ?_ (length_zeros _).symm
    rw [List.length_append, hfront]

end Build

/-- **When only the region is rewritten.**  The slice assignments keep the length of a
file that holds the whole region, and make any other file longer. -/
theorem build_onlyRegion_iff {stock : List UInt8} (hmagic : stock.take 8 = ascii "VNDRBOOT")
    (hlen : hdr ≤ stock.length) (twrp : List UInt8) :
    (∀ out, build stock twrp = some out → OnlyRegion stock twrp out) ↔
      vramdiskSize stock ≤ twrp.length ∨ RegionInside stock := by
  rcases Nat.lt_or_ge twrp.length (vramdiskSize stock) with hfit | hbig
  · rw [or_iff_right (by omega)]
    constructor
    · intro h
      by_contra hout
      rw [RegionInside] at hout
      have hrun := @build_of_header _ twrp hmagic hlen
      rw [if_pos hfit] at hrun
      have hkeeps := (h _ hrun).length_eq
      have hclear := length_assign_gt (d := stock) (i := ramdiskOff)
        (x := zeros (vramdiskSize stock))
        (List.ne_nil_of_length_pos (by rw [length_zeros]; omega)) (by rw [length_zeros]; omega)
      rw [length_zeros] at hclear
      have hwrite := length_assign_ge (assign stock ramdiskOff
        (ramdiskOff + vramdiskSize stock : ℕ) (zeros (vramdiskSize stock))) ramdiskOff twrp
      omega
    · intro hin out hout
      rw [build_eq hmagic hlen hin hfit] at hout
      rw [← Option.some.inj hout]
      exact onlyRegion_built hin hfit
  · refine iff_of_true (fun out hout => ?_) (.inl hbig)
    rw [build_of_header hmagic hlen, if_neg (by omega)] at hout
    exact absurd hout (by simp)

/-- A stock header of version 4 with pages of 4096 bytes and a ramdisk of `size` bytes,
and `n` bytes behind the header. -/
def stockImage (size n : ℕ) : List UInt8 :=
  (ascii "VNDRBOOT" ++ leBytes 4 4 ++ leBytes 4 page ++ zeros 8) ++
    (leBytes 4 size ++ (zeros 2100 ++ List.replicate n 7))

/-- The stock image is its header and `n` bytes. -/
theorem length_stockImage (size n : ℕ) : (stockImage size n).length = hdr + n := by
  simp only [stockImage, List.length_append, length_ascii, length_zeros, length_leBytes,
    List.length_replicate, hdr, show "VNDRBOOT".length = 8 from rfl]
  omega

/-- It has the magic. -/
theorem take_stockImage (size n : ℕ) : (stockImage size n).take 8 = ascii "VNDRBOOT" := by
  simp only [stockImage, List.append_assoc]
  exact List.take_left' (by rw [length_ascii]; rfl)

/-- It says what it is told about its ramdisk. -/
theorem vramdiskSize_stockImage {size : ℕ} (h : size < 2 ^ 32) (n : ℕ) :
    vramdiskSize (stockImage size n) = size := by
  have hsize : slice (stockImage size n) 24 4 = leBytes 4 size := by
    refine slice_append_middle ?_ (length_leBytes 4 size).symm
    simp only [List.length_append, length_ascii, length_leBytes, length_zeros]
    rfl
  rw [vramdiskSize, hsize, leNat_leBytes, Nat.mod_eq_of_lt (by omega)]

/-- The hypotheses are satisfiable: an image that holds its region and four more bytes. -/
theorem build_stockImage_onlyRegion :
    build (stockImage 8 1980) [1, 2, 3] = some (built (stockImage 8 1980) [1, 2, 3]) ∧
      OnlyRegion (stockImage 8 1980) [1, 2, 3] (built (stockImage 8 1980) [1, 2, 3]) := by
  have hin : RegionInside (stockImage 8 1980) := by
    rw [RegionInside, vramdiskSize_stockImage (by decide), length_stockImage]
    decide
  have hlen : hdr ≤ (stockImage 8 1980).length := by rw [length_stockImage]; decide
  have hrun := @build_eq _ [1, 2, 3] (take_stockImage 8 1980) hlen hin
    (by rw [vramdiskSize_stockImage (by decide)]; decide)
  exact ⟨hrun, (build_onlyRegion_iff (take_stockImage 8 1980) hlen [1, 2, 3]).2 (.inr hin) _ hrun⟩

/-- **A header alone.**  The file holds none of the region: it is written eleven bytes
longer than the stock image, with zeros and the payload right behind the header. -/
theorem build_stockImage_grows :
    (stockImage 8 0).take 8 = ascii "VNDRBOOT" ∧ hdr ≤ (stockImage 8 0).length ∧
      build (stockImage 8 0) [1, 2, 3] = some (stockImage 8 0 ++ zeros 8 ++ [1, 2, 3]) ∧
      ¬ OnlyRegion (stockImage 8 0) [1, 2, 3] (stockImage 8 0 ++ zeros 8 ++ [1, 2, 3]) := by
  refine ⟨take_stockImage 8 0, (length_stockImage 8 0).ge, by decide +kernel, fun h => ?_⟩
  have := h.length_eq
  rw [List.length_append, List.length_append, length_zeros] at this
  omega

end VendorBoot
end Twrp

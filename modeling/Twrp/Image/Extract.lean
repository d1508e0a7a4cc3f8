/-
# `parse_boot.extract` on any file

`extract` reads three sizes from the header of a boot image, computes where the kernel
and the ramdisk begin, and writes one of them.  It refuses what is no boot image, but a
slice of Python ends where the file ends: where a section reaches past the end, what
there is of it is written, down to nothing at all, and no error is raised.
`extract_whole_iff` says for which files that cannot happen.
-/

import Twrp.Image.InitBoot

namespace Twrp
namespace InitBoot

open Bytes Python

/-! ### The sections -/

/-- A 32-bit number of the header. -/
def headerField (data : List UInt8) (off : ℕ) : ℕ := leNat (slice data off 4)

/-- Where the kernel begins: behind the header. -/
def kernelOff (data : List UInt8) : ℕ := align (headerField data 20)

/-- Where the ramdisk begins: behind the kernel. -/
def ramdiskOff (data : List UInt8) : ℕ := align (kernelOff data + headerField data 8)

/-- Offset and size of the section `what`. -/
def sectionOf (data : List UInt8) (what : String) : Option (ℕ × ℕ) :=
  if what = "kernel" then some (kernelOff data, headerField data 8)
  else if what = "ramdisk" then some (ramdiskOff data, headerField data 12)
  else none

/-- `align` rounds up to a multiple of the page. -/
theorem align_spec (n : ℕ) : 4096 ∣ align n ∧ n ≤ align n ∧ align n < n + 4096 := by
  rw [align, page]
  omega

/-- Without the magic number, or with a header that is cut off, `extract` fails. -/
theorem extract_eq_none {data : List UInt8} (what : String)
    (h : data.take 8 ≠ ascii "ANDROID!" ∨ data.length < 24) : extract data what = none := by
  by_cases hmagic : data.take 8 = ascii "ANDROID!"
  · have hlen : data.length < 24 := h.resolve_left (not_not.2 hmagic)
    have h20 : unpackFrom 4 data 20 = none := by
      rw [unpackFrom, window, if_neg (by omega)]
      dsimp only
      rw [if_neg (by norm_num; omega), Option.map_none]
    simp only [extract, guard, if_pos hmagic, h20, Option.bind_eq_bind, Option.map_none,
      Option.bind_none]
    simp
  · simp only [extract, guard, if_neg hmagic]
    rfl

/-- **What `extract` writes** is what the file has of the section. -/
theorem extract_eq {data : List UInt8} (what : String) (hmagic : data.take 8 = ascii "ANDROID!")
    (hlen : 24 ≤ data.length) :
    extract data what = (sectionOf data what).map fun s => slice data s.1 s.2 := by
  have h8 : unpackFrom 4 data 8 = some (slice data 8 4) := unpackFrom_eq (i := 8) (by omega)
  have h12 : unpackFrom 4 data 12 = some (slice data 12 4) := unpackFrom_eq (i := 12) (by omega)
  have h20 : unpackFrom 4 data 20 = some (slice data 20 4) := unpackFrom_eq (i := 20) (by omega)
  simp only [extract, guard, if_pos hmagic, h8, h12, h20, Option.map_some, Option.bind_eq_bind,
    Option.bind_some, Option.pure_def, sliceOf_eq, sectionOf]
  split_ifs <;> rfl

/-! ### Whole sections -/

/-- `extract` fails, or writes as many bytes as the header says, from where it says. -/
def Whole (data : List UInt8) (what : String) : Prop :=
  ∀ out, extract data what = some out →
    ∃ off size, sectionOf data what = some (off, size) ∧ out.length = size ∧
      out = slice data off size

/-- **When `extract` never writes a short section:** there is no complete header, or the
section is empty or lies in the file.  Both sections begin at the next page. -/
theorem extract_whole_iff (data : List UInt8) (what : String) :
    (∀ n, 4096 ∣ align n ∧ n ≤ align n ∧ align n < n + 4096) ∧
    (Whole data what ↔ data.take 8 ≠ ascii "ANDROID!" ∨ data.length < 24 ∨
      ∀ off size, sectionOf data what = some (off, size) →
        size = 0 ∨ off + size ≤ data.length) := by
  refine ⟨align_spec, ?_⟩
  by_cases hheader : data.take 8 ≠ ascii "ANDROID!" ∨ data.length < 24
  · refine iff_of_true (fun out hout => ?_) (hheader.imp_right .inl)
    rw [extract_eq_none what hheader] at hout
    cases hout
  · obtain ⟨hmagic, hlen⟩ := not_or.1 hheader
    rw [← or_assoc, or_iff_right hheader, Whole, extract_eq what (not_not.1 hmagic) (by omega)]
    have hfits : ∀ off size, (slice data off size).length = size ↔
        size = 0 ∨ off + size ≤ data.length := by
      intro off size
      rw [length_slice]
      omega
    constructor
    · intro h off size hsection
      obtain ⟨off', size', hsection', hlength, -⟩ := h (slice data off size) (by rw [hsection]; rfl)
      obtain ⟨rfl, rfl⟩ := Prod.mk.inj (Option.some.inj (hsection.symm.trans hsection'))
      exact (hfits off size).1 hlength
    · intro h out hout
      obtain ⟨⟨off, size⟩, hsection, rfl⟩ := Option.map_eq_some_iff.1 hout
      exact ⟨off, size, hsection, (hfits off size).2 (h off size hsection), rfl⟩

/-- **A short section is written.**  An image with a ramdisk of three bytes that has lost
its last byte: two bytes are written. -/
theorem extract_truncated :
    extract ((image [1, 2, 3] 0x1C000194 []).take 4098) "ramdisk" = some [1, 2] ∧
      sectionOf ((image [1, 2, 3] 0x1C000194 []).take 4098) "ramdisk" = some (4096, 3) ∧
      ¬ Whole ((image [1, 2, 3] 0x1C000194 []).take 4098) "ramdisk" := by
  have hextract : extract ((image [1, 2, 3] 0x1C000194 []).take 4098) "ramdisk" = some [1, 2] := by
    decide +kernel
  have hsection : sectionOf ((image [1, 2, 3] 0x1C000194 []).take 4098) "ramdisk" =
      some (4096, 3) := by
    decide +kernel
  refine ⟨hextract, hsection, fun h => ?_⟩
  obtain ⟨off, size, hsome, hlength, -⟩ := h _ hextract
  obtain ⟨rfl, rfl⟩ := Prod.mk.inj (Option.some.inj (hsection.symm.trans hsome))
  exact absurd hlength (by decide)

end InitBoot
end Twrp

/-
# The `init_boot` image: packing, patching and extracting

`pack_init_boot.py`, `patch_boot_cmdline.py`, `patch_avb_tail.py` and `parse_boot.py`
work on one file in turn, and each has the offsets of the version 4 boot header of its
own.  `image` is the layout they share:

| bytes | field |
| --- | --- |
| 0 … 44 | magic, sizes, `os_version`, header size, reserved, header version |
| 44 … 1580 | command line, padded with NUL bytes |
| 1580 … 1584 | size of the signature |
| 4096 … | ramdisk |

`pack` writes such an image, the second script replaces the command line of one by
another, the third puts bytes behind one, and `extract` reads the ramdisk back
(`pipeline`).
-/

import Twrp.Python.Struct
import Twrp.Python.Text
import Twrp.Image.AvbTail

namespace Twrp
namespace InitBoot

open Bytes Python

/-! ### The scripts -/

/-- `PAGE`. -/
def page : ℕ := 4096

/-- `HEADER_SIZE`. -/
def headerSize : ℕ := 1584

/-- `pack_init_boot.pack` on the contents of `ramdisk_path`; `none` where it raises or
exits. -/
def pack (ramdisk : List UInt8) (osVersion : ℕ) (cmdline : String) : Option (List UInt8) := do
  let hdr ← byteArray headerSize
  let hdr ← packInto hdr 0 (ascii "ANDROID!")
  let hdr ← packInto hdr 8 (leBytes 4 0)
  let ramdiskSize ← packLE 4 ramdisk.length
  let hdr ← packInto hdr 12 ramdiskSize
  let version ← packLE 4 osVersion
  let hdr ← packInto hdr 16 version
  let hdr ← packInto hdr 20 (leBytes 4 headerSize)
  let hdr ← packInto hdr 40 (leBytes 4 4)
  let cmd := encode cmdline
  guard (cmd.length ≤ 1536)
  let hdr ← packInto hdr 44 cmd
  let hdr ← packInto hdr (headerSize - 4) (leBytes 4 0)
  let pad := (page - headerSize % page) % page
  pure (hdr ++ zeros pad ++ ramdisk)

/-- `patch_boot_cmdline.patch` on the contents of `src`; `none` where it raises.  What
it prints needs the two numbers and the old command line as text. -/
def Cmdline.patch (d : List UInt8) (cmdline : String) : Option (List UInt8) := do
  guard (d.take 8 = ascii "ANDROID!")
  let _hv ← unpackFrom 4 d 40
  let _hs ← unpackFrom 4 d 20
  let cb := encode cmdline
  guard (cb.length < 1536)
  let cur := cstr (sliceOf d 44 (44 + 1536))
  let _old ← decode cur
  pure (assign d 44 (44 + 1536) (cb ++ zeros (1536 - cb.length)))

/-- `parse_boot.align`. -/
def align (n : ℕ) : ℕ := (n + page - 1) / page * page

/-- `parse_boot.extract` on the contents of `path`; `none` where it raises or exits. -/
def extract (data : List UInt8) (what : String) : Option (List UInt8) := do
  guard (data.take 8 = ascii "ANDROID!")
  let kernelSize ← (unpackFrom 4 data 8).map leNat
  let ramdiskSize ← (unpackFrom 4 data 12).map leNat
  let size ← (unpackFrom 4 data 20).map leNat
  let koff := align size
  let roff := align (koff + kernelSize)
  if what = "kernel" then pure (sliceOf data koff (koff + kernelSize : ℕ))
  else if what = "ramdisk" then pure (sliceOf data roff (roff + ramdiskSize : ℕ))
  else none

/-! ### The layout -/

/-- The header in front of the command line. -/
def front (ramdiskSize osVersion : ℕ) : List UInt8 :=
  ascii "ANDROID!" ++ leBytes 4 0 ++ leBytes 4 ramdiskSize ++ leBytes 4 osVersion ++
    leBytes 4 headerSize ++ zeros 16 ++ leBytes 4 4

/-- The field of the command line. -/
def cmdlineField (cmd : List UInt8) : List UInt8 := cmd ++ zeros (1536 - cmd.length)

/-- The whole file: behind the command line come the size of the signature and the
padding of the header, all zeros, and the ramdisk. -/
def image (ramdisk : List UInt8) (osVersion : ℕ) (cmd : List UInt8) : List UInt8 :=
  front ramdisk.length osVersion ++ (cmdlineField cmd ++ (zeros 2516 ++ ramdisk))

/-- The fields in front of the command line. -/
@[simp] theorem length_front (m n : ℕ) : (front m n).length = 44 := by
  simp only [front, List.length_append, length_ascii, length_leBytes, length_zeros]
  rfl

/-- A command line that fits its field fills it with NULs. -/
theorem length_cmdlineField {cmd : List UInt8} (h : cmd.length ≤ 1536) :
    (cmdlineField cmd).length = 1536 := by
  rw [cmdlineField, List.length_append, length_zeros]
  omega

/-- The header in front of its reserved words. -/
def sizes (ramdiskSize osVersion : ℕ) : List UInt8 :=
  ascii "ANDROID!" ++ leBytes 4 0 ++ leBytes 4 ramdiskSize ++ leBytes 4 osVersion ++
    leBytes 4 headerSize

/-- The fields in front of the reserved ones. -/
@[simp] theorem length_sizes (m n : ℕ) : (sizes m n).length = 24 := by
  simp only [sizes, List.length_append, length_ascii, length_leBytes]
  rfl

/-- `pack` fills the blank header from the front. -/
theorem pack_eq {ramdisk : List UInt8} {osVersion : ℕ} {cmdline : String}
    (hramdisk : ramdisk.length < 2 ^ 32) (hversion : osVersion < 2 ^ 32)
    (hcmd : (encode cmdline).length ≤ 1536) :
    pack ramdisk osVersion cmdline = some (image ramdisk osVersion (encode cmdline)) := by
  have hblank : byteArray headerSize = some (zeros 1584) := byteArray_natCast (by decide)
  have h0 : packInto (zeros 1584) 0 (ascii "ANDROID!") =
      some (ascii "ANDROID!" ++ zeros 1576) := by
    have := packInto_append_zeros (a := []) (x := ascii "ANDROID!") (i := 0) (m := 1584) (n := 1576)
      rfl (by rw [length_ascii]; rfl)
    rwa [List.nil_append, List.nil_append] at this
  have h8 : packInto (ascii "ANDROID!" ++ zeros 1576) 8 (leBytes 4 0) =
      some (ascii "ANDROID!" ++ leBytes 4 0 ++ zeros 1572) :=
    packInto_append_zeros (i := 8) rfl (by rw [length_leBytes])
  have h12 : packInto (ascii "ANDROID!" ++ leBytes 4 0 ++ zeros 1572) 12
      (leBytes 4 ramdisk.length) =
        some (ascii "ANDROID!" ++ leBytes 4 0 ++ leBytes 4 ramdisk.length ++ zeros 1568) :=
    packInto_append_zeros (i := 12) rfl (by rw [length_leBytes])
  have h16 : packInto (ascii "ANDROID!" ++ leBytes 4 0 ++ leBytes 4 ramdisk.length ++ zeros 1568)
      16 (leBytes 4 osVersion) = some (ascii "ANDROID!" ++ leBytes 4 0 ++
        leBytes 4 ramdisk.length ++ leBytes 4 osVersion ++ zeros 1564) :=
    packInto_append_zeros (i := 16) (by simp only [List.length_append, length_leBytes]; rfl)
      (by rw [length_leBytes])
  have h20 : packInto (ascii "ANDROID!" ++ leBytes 4 0 ++ leBytes 4 ramdisk.length ++
      leBytes 4 osVersion ++ zeros 1564) 20 (leBytes 4 headerSize) =
        some (sizes ramdisk.length osVersion ++ zeros 1560) :=
    packInto_append_zeros (i := 20) (by simp only [List.length_append, length_leBytes]; rfl)
      (by rw [length_leBytes])
  -- the reserved words are skipped
  have h40 : packInto (sizes ramdisk.length osVersion ++ zeros 1560) 40 (leBytes 4 4) =
      some (front ramdisk.length osVersion ++ zeros 1540) := by
    rw [show 1560 = 16 + 1544 from rfl, zeros_add, ← List.append_assoc]
    exact packInto_append_zeros (i := 40)
      (by rw [List.length_append, length_sizes, length_zeros]) (by rw [length_leBytes])
  have h44 : packInto (front ramdisk.length osVersion ++ zeros 1540) 44 (encode cmdline) =
      some (front ramdisk.length osVersion ++ encode cmdline ++
        zeros (1536 - (encode cmdline).length + 4)) :=
    packInto_append_zeros (i := 44) (by rw [length_front]) (by omega)
  have hsig : packInto (front ramdisk.length osVersion ++ encode cmdline ++
      zeros (1536 - (encode cmdline).length + 4)) (headerSize - 4) (leBytes 4 0) =
        some (front ramdisk.length osVersion ++ cmdlineField (encode cmdline) ++ leBytes 4 0) := by
    rw [zeros_add, ← List.append_assoc, List.append_assoc (front ..)]
    refine (packInto_append_zeros (i := 1580) (n := 0) ?_ (by rw [length_leBytes])).trans ?_
    · rw [List.length_append, length_front, ← cmdlineField, length_cmdlineField hcmd]
    · rw [zeros_zero, List.append_nil, cmdlineField]
  have hpad : leBytes 4 0 ++ (zeros ((page - headerSize % page) % page) ++ ramdisk) =
      zeros 2516 ++ ramdisk := by
    rw [← List.append_assoc]
    rfl
  have hsize : packLE 4 ramdisk.length = some (leBytes 4 ramdisk.length) := packLE_eq hramdisk
  have hword : packLE 4 osVersion = some (leBytes 4 osVersion) := packLE_eq hversion
  simp only [pack, Option.bind_eq_bind, hblank, h0, h8, hsize, h12, hword, h16, h20, h40, guard,
    if_pos hcmd, h44, hsig, Option.bind_some, Option.pure_def]
  rw [image, List.append_assoc, List.append_assoc, List.append_assoc, hpad]

/-! ### Reading the header -/

section Fields

variable (ramdisk rest : List UInt8) (osVersion : ℕ) (cmd : List UInt8)

/-- The magic. -/
theorem take_image : (image ramdisk osVersion cmd ++ rest).take 8 = ascii "ANDROID!" := by
  simp only [image, front, List.append_assoc]
  exact List.take_left' rfl

/-- Below 44 the file is its `front`. -/
theorem slice_image {i n : ℕ} (h : i + n ≤ 44) :
    slice (image ramdisk osVersion cmd ++ rest) i n =
      slice (front ramdisk.length osVersion) i n := by
  rw [image, List.append_assoc, slice_append_left (by rw [length_front]; exact h)]

/-- A field in front of the reserved ones does not depend on what follows. -/
theorem slice_front {i n : ℕ} (h : i + n ≤ 24) (m : ℕ) :
    slice (front m osVersion) i n = slice (sizes m osVersion) i n := by
  rw [show front m osVersion = sizes m osVersion ++ (zeros 16 ++ leBytes 4 4) from
    List.append_assoc .., slice_append_left (by rw [length_sizes]; exact h)]

/-- The size of the kernel: there is none. -/
theorem kernelSize_image :
    slice (image ramdisk osVersion cmd ++ rest) 8 4 = leBytes 4 0 := by
  rw [slice_image _ _ _ _ (by omega), slice_front _ (by omega), sizes]
  simp only [List.append_assoc]
  exact slice_append_middle rfl (by rw [length_leBytes])

/-- The size of the ramdisk. -/
theorem ramdiskSize_image :
    slice (image ramdisk osVersion cmd ++ rest) 12 4 = leBytes 4 ramdisk.length := by
  rw [slice_image _ _ _ _ (by omega), slice_front _ (by omega), sizes, List.append_assoc _ _
    (leBytes 4 headerSize), List.append_assoc _ (leBytes 4 ramdisk.length)]
  exact slice_append_middle rfl (by rw [length_leBytes])

/-- The size of the header. -/
theorem headerSize_image :
    slice (image ramdisk osVersion cmd ++ rest) 20 4 = leBytes 4 headerSize := by
  rw [slice_image _ _ _ _ (by omega), slice_front _ (by omega), sizes,
    ← List.append_nil (leBytes 4 headerSize)]
  exact slice_append_middle (by simp only [List.length_append, length_leBytes]; rfl)
    (by rw [length_leBytes])

/-- The command line with its padding. -/
theorem cmdlineField_image {cmd : List UInt8} (h : cmd.length ≤ 1536) :
    slice (image ramdisk osVersion cmd ++ rest) 44 1536 = cmdlineField cmd := by
  rw [image, List.append_assoc, List.append_assoc]
  exact slice_append_middle (by rw [length_front]) (by rw [length_cmdlineField h])

/-- The size of the signature: there is none. -/
theorem signatureSize_image {cmd : List UInt8} (h : cmd.length ≤ 1536) :
    slice (image ramdisk osVersion cmd ++ rest) 1580 4 = zeros 4 := by
  rw [image, ← List.append_assoc (front ..), show 2516 = 4 + 2512 from rfl, zeros_add]
  simp only [List.append_assoc]
  rw [← List.append_assoc (front ..)]
  exact slice_append_middle (by rw [List.length_append, length_front, length_cmdlineField h])
    (length_zeros 4).symm

/-- An image has at least the fields in front of the command line. -/
theorem length_image_ge : 44 ≤ (image ramdisk osVersion cmd ++ rest).length := by
  simp only [image, List.length_append, length_front]
  omega

end Fields

/-- `patch` replaces the command line and nothing else. -/
theorem Cmdline.patch_image {ramdisk : List UInt8} {osVersion : ℕ} {old new : String}
    (hold : (encode old).length ≤ 1536) (hnew : (encode new).length < 1536) :
    Cmdline.patch (image ramdisk osVersion (encode old)) new =
      some (image ramdisk osVersion (encode new)) := by
  have himage := (List.append_nil (image ramdisk osVersion (encode old))).symm
  have hmagic := take_image ramdisk [] osVersion (encode old)
  have hge := length_image_ge ramdisk [] osVersion (encode old)
  rw [← himage] at hmagic hge
  have hversion : unpackFrom 4 (image ramdisk osVersion (encode old)) 40 = some _ :=
    unpackFrom_eq (i := 40) (by omega)
  have hsize : unpackFrom 4 (image ramdisk osVersion (encode old)) 20 = some _ :=
    unpackFrom_eq (i := 20) (by omega)
  have hcur : sliceOf (image ramdisk osVersion (encode old)) 44 (44 + 1536) =
      cmdlineField (encode old) := by
    have := sliceOf_eq (image ramdisk osVersion (encode old)) 44 1536
    rw [himage, cmdlineField_image ramdisk [] osVersion hold, ← himage] at this
    exact this
  have htext : ∃ cs, decode (cstr (cmdlineField (encode old))) = some cs := by
    rw [cmdlineField, cstr_append_zeros]
    exact Option.isSome_iff_exists.1 (isSome_decode_cstr_encode old)
  obtain ⟨cs, hcs⟩ := htext
  have hassign : assign (image ramdisk osVersion (encode old)) 44 (44 + 1536)
      (cmdlineField (encode new)) = image ramdisk osVersion (encode new) := by
    have hlen : 1580 ≤ (image ramdisk osVersion (encode old)).length := by
      simp only [image, List.length_append, length_front, length_cmdlineField hold]
      omega
    refine (assign_eq (i := 44) (j := 1580) (by omega) hlen _).trans ?_
    exact splice_append_middle (by rw [length_front])
      (by rw [length_front, length_cmdlineField hold])
  simp only [Cmdline.patch, guard, if_pos hmagic, hversion, hsize, if_pos hnew, hcur, hcs,
    Option.bind_eq_bind, Option.bind_some, Option.pure_def]
  rw [← cmdlineField, hassign]

/-- `extract` does not look behind the ramdisk. -/
theorem extract_image (ramdisk cmd rest : List UInt8) (osVersion : ℕ)
    (hramdisk : ramdisk.length < 2 ^ 32) (hcmd : cmd.length ≤ 1536) :
    extract (image ramdisk osVersion cmd ++ rest) "kernel" = some [] ∧
      extract (image ramdisk osVersion cmd ++ rest) "ramdisk" = some ramdisk := by
  have hge := length_image_ge ramdisk rest osVersion cmd
  have h8 : unpackFrom 4 (image ramdisk osVersion cmd ++ rest) 8 = some _ :=
    unpackFrom_eq (i := 8) (by omega)
  have h12 : unpackFrom 4 (image ramdisk osVersion cmd ++ rest) 12 = some _ :=
    unpackFrom_eq (i := 12) (by omega)
  have h20 : unpackFrom 4 (image ramdisk osVersion cmd ++ rest) 20 = some _ :=
    unpackFrom_eq (i := 20) (by omega)
  rw [kernelSize_image] at h8
  rw [ramdiskSize_image] at h12
  rw [headerSize_image] at h20
  have hkernelSize : leNat (leBytes 4 0) = 0 := rfl
  have hramdiskSize : leNat (leBytes 4 ramdisk.length) = ramdisk.length := by
    rw [leNat_leBytes]
    exact Nat.mod_eq_of_lt hramdisk
  have hsize : leNat (leBytes 4 headerSize) = 1584 := rfl
  have hramdisk : slice (image ramdisk osVersion cmd ++ rest) 4096 ramdisk.length = ramdisk := by
    have hprefix : (front ramdisk.length osVersion ++ cmdlineField cmd ++ zeros 2516).length =
        4096 := by
      simp only [List.length_append, length_front, length_cmdlineField hcmd, length_zeros]
    have himage : image ramdisk osVersion cmd ++ rest =
        front ramdisk.length osVersion ++ cmdlineField cmd ++ zeros 2516 ++ (ramdisk ++ rest) := by
      simp only [image, List.append_assoc]
    rw [himage, slice_append_middle hprefix.symm rfl]
  have halign : align 1584 = 4096 ∧ align (4096 + 0) = 4096 := by decide
  constructor <;>
    simp only [extract, guard, if_pos (take_image ..), h8, h12, h20, Option.map_some, hkernelSize,
      hramdiskSize, hsize, Option.bind_eq_bind, Option.bind_some, Option.pure_def, halign]
  · rw [if_pos trivial, sliceOf_eq]
    rfl
  · rw [if_neg (by decide), if_pos trivial, sliceOf_eq, hramdisk]

/-! ### The pipeline -/

/-- **The three steps keep what was packed.**  `pack` and `patch_boot_cmdline` always
succeed, and whatever image the third step then makes, of any size and with the tail of
any stock image, has the ramdisk, an empty kernel, the new command line and for the rest
the header that `pack` wrote. -/
theorem pipeline {ramdisk stock : List UInt8} {osVersion : ℕ} {old new : String}
    (hramdisk : ramdisk.length < 2 ^ 32) (hversion : osVersion < 2 ^ 32)
    (hold : (encode old).length ≤ 1536) (hnul : Char.ofNat 0 ∉ new.toList)
    (hnew : (encode new).length < 1536)
    (hstock : AvbTail.originalImageSize stock + 64 ≤ stock.length) :
    ∃ packed patched, pack ramdisk osVersion old = some packed ∧
      Cmdline.patch packed new = some patched ∧
      ∀ partSize out, AvbTail.patch patched stock partSize = some out →
        extract out "ramdisk" = some ramdisk ∧ extract out "kernel" = some [] ∧
        cstr (slice out 44 1536) = encode new ∧
        out.take 44 = packed.take 44 ∧ slice out 1580 4 = slice packed 1580 4 := by
  refine ⟨_, _, pack_eq hramdisk hversion hold, Cmdline.patch_image hold hnew,
    fun partSize out h => ?_⟩
  -- the third step puts bytes behind the image and leaves the image alone
  obtain ⟨rest, rfl⟩ := AvbTail.prefix_of_patch hstock h
  obtain ⟨hkernel, hextract⟩ := extract_image ramdisk (encode new) rest osVersion hramdisk hnew.le
  refine ⟨hextract, hkernel, ?_, ?_, ?_⟩
  · rw [cmdlineField_image _ _ _ hnew.le, cmdlineField, cstr_append_zeros,
      cstr_of_notMem (zero_notMem_encode hnul)]
  · rw [← slice_zero, slice_image _ _ _ _ le_rfl, ← slice_zero,
      ← List.append_nil (image ramdisk osVersion (encode old)), slice_image _ _ _ _ le_rfl]
  · rw [signatureSize_image _ _ _ hnew.le, ← List.append_nil (image ramdisk osVersion (encode old)),
      signatureSize_image _ _ _ hold]

/-- The hypotheses are satisfiable: a ramdisk of three bytes goes through all steps. -/
theorem pipeline_sample :
    ∃ packed patched out, pack [1, 2, 3] 0x1C000194 "" = some packed ∧
      Cmdline.patch packed "quiet" = some patched ∧
      AvbTail.patch patched AvbTail.stockImage 4200 = some out ∧
      extract out "ramdisk" = some [1, 2, 3] := by
  obtain ⟨packed, patched, hpack, hpatch, hall⟩ :=
    @pipeline [1, 2, 3] AvbTail.stockImage 0x1C000194 "" "quiet" (by decide) (by decide)
      (by decide) (by decide) (by decide) (by decide +kernel)
  have hpacked : pack [1, 2, 3] 0x1C000194 "" = some _ :=
    pack_eq (by decide) (by decide) (by decide)
  have hpatched : Cmdline.patch (image [1, 2, 3] 0x1C000194 (encode "")) "quiet" = some _ :=
    Cmdline.patch_image (by decide) (by decide)
  obtain rfl := Option.some.inj (hpacked.symm.trans hpack)
  obtain rfl := Option.some.inj (hpatched.symm.trans hpatch)
  have hrun : (AvbTail.patch (image [1, 2, 3] 0x1C000194 (encode "quiet")) AvbTail.stockImage
      4200).isSome := by decide +kernel
  obtain ⟨out, hout⟩ := Option.isSome_iff_exists.1 hrun
  exact ⟨_, _, out, hpack, hpatch, hout, (hall 4200 out hout).1⟩

end InitBoot
end Twrp

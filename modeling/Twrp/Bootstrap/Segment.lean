/-
# The ramdisk that the bootstrapper reads

`build_vendor_boot_twrp.build` puts a payload into the ramdisk region of a vendor boot
image, whose size the header gives.  `main` of `bootstrap.c` reads `SEG_SIZE` bytes from
where that region begins, whatever the header says.  What it unpacks is the payload with
the fill and the rest of the image behind it, which changes nothing (`walk_append`), or the
beginning of a payload that is longer than `SEG_SIZE`.  How much of a payload matters is its
`extent`, the end of the trailer (`walk_accepts_iff`), so the two programs agree exactly on
the payloads whose extent is within `SEG_SIZE` (`unpackCpio_segment_iff`).
-/

import Twrp.Bootstrap.Compact
import Twrp.Bootstrap.Truncation
import Twrp.Image.VendorBoot

namespace Twrp
namespace Bootstrap

open Bytes Interaction Cpio

/-- `SEG_OFFSET`. -/
def segOffset : ℕ := 4096

/-- `SEG_SIZE`. -/
def segSize : ℕ := 52 * 1024 * 1024

/-- What `main` reads of the partition: from `SEG_OFFSET` on, at most `SEG_SIZE` bytes. -/
def segment (image : Buf) : Buf := slice image segOffset segSize

/-! ### The part of an archive that is read -/

/-- The end of the trailer that the cursor reaches from the beginning of `s`; for an
archive without one, some number. -/
def extent (s : Buf) : ℕ :=
  if _h : 110 ≤ s.length then
    if magic <+: s then
      if rawName s = ascii "TRAILER!!!" then total (field s 94) (field s 54)
      else advance s + extent (s.drop (advance s))
    else
      match _hs : seek magic 110 s.tail with
      | none => s.length
      | some s' => s.length - s'.length + extent s'
  else s.length
termination_by s.length
decreasing_by
  · have := advance_pos s
    rw [List.length_drop]
    omega
  · have := (seek_spec _hs).1.length_le
    rw [List.length_tail] at this
    omega

/-- At the trailer: the trailer. -/
theorem extent_trailer {s : Buf} (h : 110 ≤ s.length) (hm : magic <+: s)
    (hname : rawName s = ascii "TRAILER!!!") : extent s = total (field s 94) (field s 54) := by
  rw [extent, dif_pos h, if_pos hm, if_pos hname]

/-- At an entry: the entry, and what is needed behind it. -/
theorem extent_entry {s : Buf} (h : 110 ≤ s.length) (hm : magic <+: s)
    (hname : rawName s ≠ ascii "TRAILER!!!") :
    extent s = advance s + extent (s.drop (advance s)) := by
  rw [extent, dif_pos h, if_pos hm, if_neg hname]

/-- Without a header: the scan, and what is needed behind it. -/
theorem extent_of_seek_eq_some {s s' : Buf} (h : 110 ≤ s.length) (hm : ¬ magic <+: s)
    (hs : seek magic 110 s.tail = some s') : extent s = s.length - s'.length + extent s' := by
  rw [extent, dif_pos h, if_neg hm]
  split
  next hs' => exact absurd (hs.symm.trans hs') (by simp)
  next t hs' => rw [Option.some.inj (hs.symm.trans hs')]

/-- An accepted archive holds at least the header of its trailer. -/
theorem extent_ge {p : ℕ} {s : Buf} (h0 : (walk p s).2 = 0) : 110 ≤ extent s := by
  fun_induction walk p s with
  | case1 | case2 | case5 | case7 => simp at h0
  | case3 p s h hm hns hlen hname =>
    rw [extent_trailer h hm hname, total]
    omega
  | case4 p s h hm hns hlen hname r ih =>
    have := advance_pos s
    rw [extent_entry h hm hname]
    omega
  | case6 p s h hm s' hseek ih =>
    have := ih h0
    rw [extent_of_seek_eq_some h hm hseek]
    omega

/-- A cut through an entry leaves the trailer behind it. -/
theorem lt_extent_of_overflow {a x : Buf} (h : 110 ≤ a.length) (hm : magic <+: a)
    (hlen : a.length < total (field a 94) (field a 54)) : a.length < extent (a ++ x) := by
  have h' : 110 ≤ (a ++ x).length := by
    rw [List.length_append]
    omega
  have hm' := (magic_prefix_append_iff h x).2 hm
  by_cases hname : rawName (a ++ x) = ascii "TRAILER!!!"
  · rwa [extent_trailer h' hm' hname, field_append (by omega), field_append (by omega)]
  · rw [extent_entry h' hm' hname, advance_append h, advance]
    omega

/-- Where no header is found up to the cut, the one that is found reaches past it. -/
theorem lt_extent_of_seek_eq_none {p : ℕ} {a x : Buf} (h0 : (walk p (a ++ x)).2 = 0)
    (h : 110 ≤ a.length) (hm : ¬ magic <+: a) (hseek : seek magic 110 a.tail = none) :
    a.length < extent (a ++ x) := by
  have h' : 110 ≤ (a ++ x).length := by
    rw [List.length_append]
    omega
  have hm' := mt (magic_prefix_append_iff h x).1 hm
  have hne : a ≠ [] := List.ne_nil_of_length_pos (by omega)
  cases hx : seek magic 110 (a ++ x).tail with
  | none =>
    rw [walk_of_seek_eq_none h' hm' hx] at h0
    simp at h0
  | some t =>
    rw [walk_of_seek_eq_some h' hm' hx] at h0
    rw [extent_of_seek_eq_some h' hm' hx, List.length_append]
    rw [List.tail_append_of_ne_nil hne] at hx
    have hreach := length_lt_of_seek_append (by omega) (by rw [length_magic]; omega) hseek hx
    have hpos := extent_ge h0
    omega

/-- **How much of an archive matters.**  A cut through an accepted archive is accepted
exactly when it leaves the trailer whole. -/
theorem walk_accepts_iff {p : ℕ} {a x : Buf} (h0 : (walk p (a ++ x)).2 = 0) :
    (walk p a).2 = 0 ↔ extent (a ++ x) ≤ a.length := by
  fun_induction walk p a with
  | case1 p a h hm hns =>
    have hm' := (magic_prefix_append_iff h x).2 hm
    rw [walk_header (by rw [List.length_append]; omega) hm', field_append (by omega),
      if_pos hns] at h0
    simp at h0
  | case2 p a h hm hns hlen =>
    exact iff_of_false (by simp) (not_le.2 (lt_extent_of_overflow h hm hlen))
  | case3 p a h hm hns hlen hname =>
    have hm' := (magic_prefix_append_iff h x).2 hm
    refine iff_of_true rfl ?_
    rw [extent_trailer (by rw [List.length_append]; omega) hm'
      (by rwa [rawName_append (by omega)]), field_append (by omega), field_append (by omega)]
    omega
  | case4 p a h hm hns hlen hname r ih =>
    have hm' := (magic_prefix_append_iff h x).2 hm
    rw [walk_append_of_header h hm hns hlen, if_neg hname] at h0
    rw [extent_entry (by rw [List.length_append]; omega) hm'
      (by rwa [rawName_append (by omega)]), advance_append h]
    rcases Nat.le_total (advance a) a.length with hadv | hadv
    · rw [List.drop_append_of_le_length hadv] at h0 ⊢
      have := ih h0
      rw [List.length_drop] at this
      exact this.trans (by omega)
    · -- the cut is in the padding, and the trailer is behind it
      have hpos := extent_ge h0
      refine iff_of_false ?_ (by omega)
      show ¬ (walk _ (a.drop (advance a))).2 = 0
      rw [List.drop_eq_nil_of_le hadv, walk_of_length_lt (by simp)]
      simp
  | case5 p a h hm hseek =>
    exact iff_of_false (by simp) (not_le.2 (lt_extent_of_seek_eq_none h0 h hm hseek))
  | case6 p a h hm s' hseek ih =>
    have hm' := mt (magic_prefix_append_iff h x).1 hm
    have hne : a ≠ [] := List.ne_nil_of_length_pos (by omega)
    have hx : seek magic 110 (a ++ x).tail = some (s' ++ x) := by
      rw [List.tail_append_of_ne_nil hne]
      exact seek_append (by omega) (by rw [length_magic]; omega) hseek x
    have hle := (seek_spec hseek).1.length_le
    rw [List.length_tail] at hle
    rw [walk_append_of_seek h hm hseek] at h0
    rw [extent_of_seek_eq_some (by rw [List.length_append]; omega) hm' hx, ih h0,
      List.length_append, List.length_append]
    omega
  | case7 p a h =>
    have := extent_ge h0
    exact iff_of_false (by simp) (by omega)

/-- An accepted archive holds all that is needed. -/
theorem extent_le {p : ℕ} {s : Buf} (h0 : (walk p s).2 = 0) : extent s ≤ s.length := by
  have := (walk_accepts_iff (a := s) (x := []) (by rwa [List.append_nil])).1 h0
  rwa [List.append_nil] at this

/-- The first `n` bytes are accepted when they hold the trailer, and then with the same
walk. -/
theorem walk_take_iff {s : Buf} (h0 : (walk 0 s).2 = 0) (n : ℕ) :
    (walk 0 (s.take n)).2 = 0 ↔ extent s ≤ n := by
  have hcut := walk_accepts_iff (a := s.take n) (x := s.drop n) (by rwa [List.take_append_drop])
  rw [List.take_append_drop, List.length_take] at hcut
  have := extent_le h0
  rw [hcut]
  omega

/-! ### Building and booting -/

section Built

variable {stock payload image : List UInt8}

/-- What `main` reads of a built image: the payload, then the fill and the stock image
behind the region, as far as `SEG_SIZE` goes. -/
theorem segment_of_build (hin : VendorBoot.RegionInside stock)
    (hbuild : VendorBoot.build stock payload = some image) :
    ∃ rest, segment image = (payload ++ rest).take segSize := by
  have hin' : VendorBoot.ramdiskOff + VendorBoot.vramdiskSize stock ≤ stock.length := hin
  have hlen : VendorBoot.hdr ≤ stock.length := le_trans (by rw [VendorBoot.ramdiskOff_eq]; decide)
    (le_trans (Nat.le_add_right ..) hin')
  have hmagic : stock.take 8 = ascii "VNDRBOOT" := by
    rw [VendorBoot.build, Option.bind_eq_bind, Option.bind_eq_some_iff] at hbuild
    obtain ⟨_, hguard, -⟩ := hbuild
    exact (Option.guard_eq_some' _).1 hguard
  have hfit : payload.length < VendorBoot.vramdiskSize stock := by
    by_contra hbig
    rw [VendorBoot.build_of_header hmagic hlen, if_neg hbig] at hbuild
    exact absurd hbuild (by simp)
  rw [VendorBoot.build_eq hmagic hlen hin hfit, Option.some.injEq] at hbuild
  have hfront : (stock.take VendorBoot.ramdiskOff).length = segOffset := by
    rw [List.length_take]
    exact Nat.min_eq_left (le_trans (Nat.le_add_right ..) hin')
  refine ⟨zeros (VendorBoot.vramdiskSize stock - payload.length) ++
    stock.drop (VendorBoot.ramdiskOff + VendorBoot.vramdiskSize stock), ?_⟩
  rw [← hbuild, segment, VendorBoot.built, slice, List.drop_left' hfront]

variable (hin : VendorBoot.RegionInside stock)
  (hbuild : VendorBoot.build stock payload = some image) (h0 : (walk 0 payload).2 = 0)

include hin hbuild h0

/-- A payload whose trailer is read is unpacked: neither what is cut off behind it nor what
follows it in the image matters. -/
theorem walk_segment (hshort : extent payload ≤ segSize) :
    walk 0 (segment image) = walk 0 payload := by
  obtain ⟨rest, hseg⟩ := segment_of_build hin hbuild
  have hfirst := walk_append ((walk_take_iff h0 segSize).2 hshort)
  have hall := hfirst (payload.drop segSize)
  rw [List.take_append_drop] at hall
  rw [hseg, List.take_append, hfirst, hall]

/-- A payload whose trailer is not read is rejected. -/
theorem walk_segment_ne_zero (hlong : segSize < extent payload) :
    (walk 0 (segment image)).2 ≠ 0 := by
  obtain ⟨rest, hseg⟩ := segment_of_build hin hbuild
  have hwhole := extent_le h0
  have hnone : rest.take (segSize - payload.length) = [] := by
    rw [Nat.sub_eq_zero_of_le (by omega), List.take_zero]
  rw [hseg, List.take_append, hnone, List.append_nil]
  exact fun hcode => absurd ((walk_take_iff h0 segSize).1 hcode) (by omega)

end Built

/-- **Which payloads boot.**  Of the payloads that `build` accepts and `unpack_cpio`
unpacks, the bootstrapper unpacks those whose trailer ends within `SEG_SIZE`, with the same
creating calls.  A longer one is cut off, and rejected. -/
theorem unpackCpio_segment_iff {stock payload image : List UInt8}
    (hin : VendorBoot.RegionInside stock)
    (hbuild : VendorBoot.build stock payload = some image) {σ : Type}
    (kernel : σ → Call → ℤ × σ) (s : σ) (logfd : ℤ) (root : Buf)
    (h0 : (observed kernel s logfd root payload).2 = some 0) :
    observed kernel s logfd root (segment image) = observed kernel s logfd root payload ↔
      extent payload ≤ segSize := by
  simp only [observed_eq, Option.some.injEq] at h0 ⊢
  constructor
  · intro heq
    by_contra hlong
    have hcode := Option.some.inj (congrArg Prod.snd heq)
    exact walk_segment_ne_zero hin hbuild h0 (by omega) (hcode.trans h0)
  · intro hshort
    rw [walk_segment hin hbuild h0 hshort]

/-! ### Two payloads -/

/-- An archive of one file with `n` NUL bytes. -/
def blankFile (n : ℕ) : Item := { name := "blank", data := .bytes (zeros n), mode := 0o100644 }

/-- An archive with nothing but that file. -/
def blankPayload (n : ℕ) : Buf := compactArchive [(blankFile n, 0)] DevNodes.trailerItem []

/-- `unpack_cpio` can take the file literally. -/
theorem plain_blankFile {n : ℕ} (h : n < 2 ^ 32) : Plain (blankFile n) where
  isAscii := show IsAscii "blank" by decide
  name_lt := show "blank".length + 1 < 2 ^ 32 by decide
  data_lt := (length_zeros n).trans_lt h
  mode_lt := show 0o100644 < 2 ^ 32 by decide
  uid_lt := show 0 < 2 ^ 32 by decide
  gid_lt := show 0 < 2 ^ 32 by decide
  rdevMajor_lt := show 0 < 2 ^ 32 by decide
  rdevMinor_lt := show 0 < 2 ^ 32 by decide
  ino_lt := fun m hm => absurd hm (by simp [blankFile])
  short := show "blank".length ≤ 1022 by decide
  noNul := show Char.ofNat 0 ∉ "blank".toList by decide
  notTrailer := show "blank" ≠ "TRAILER!!!" by decide
  target := fun hk => absurd hk (show kind (UInt32.ofNat 0o100644) ≠ .link by decide)

/-- The archive of the file is accepted. -/
theorem walk_blankPayload {n : ℕ} (h : n < 2 ^ 32) : (walk 0 (blankPayload n)).2 = 0 := by
  obtain ⟨stops, -, hwalk⟩ := @walk_compactArchive [(blankFile n, 0)]
    (List.forall_mem_singleton.2 (plain_blankFile h)) DevNodes.trailerItem (by decide) rfl []
  rw [blankPayload, hwalk]

/-- The payload as its two entries. -/
theorem blankPayload_eq {n : ℕ} (h : n < 2 ^ 32) :
    blankPayload n =
      (DevNodes.compactEntry (blankFile n) (plain_blankFile h).toValid).bytes .compact ++
        (DevNodes.compactEntry DevNodes.trailerItem (by decide)).bytes .compact := by
  rw [blankPayload, compactArchive, List.flatMap_singleton,
    DevNodes.entry_eq _ (plain_blankFile h).toValid,
    DevNodes.entry_eq _ (show DevNodes.trailerItem.Valid by decide), zeros_zero, List.append_nil,
    List.append_nil]

theorem name_blankFile {n : ℕ} (h : n < 2 ^ 32) :
    (DevNodes.compactEntry (blankFile n) (plain_blankFile h).toValid).name = ascii "blank" :=
  (DevNodes.encodes_compactEntry _ _).name

/-- The entry of the file. -/
theorem total_blankFile {n : ℕ} (h : n < 2 ^ 32) :
    (DevNodes.compactEntry (blankFile n) (plain_blankFile h).toValid).total = 116 + n := by
  have hname : (ascii "blank").length = 5 := by decide
  have hdata : (DevNodes.compactEntry (blankFile n) (plain_blankFile h).toValid).data.length = n :=
    length_zeros n
  rw [Entry.total, name_blankFile h, hname, hdata]

/-- The archive is not much longer than the file. -/
theorem length_blankPayload_lt {n : ℕ} (h : n < 2 ^ 32) : (blankPayload n).length < n + 256 := by
  have htrailer : ((DevNodes.compactEntry DevNodes.trailerItem (by decide)).bytes .compact).length =
      124 := by decide +kernel
  have hpad := pad4_lt (116 + n)
  rw [blankPayload_eq h, List.length_append, htrailer, Entry.length_bytes, total_blankFile h]
  show 116 + n + 0 + (DevNodes.compactEntry (blankFile n) _).tailPad .compact + 124 < _
  have htail : (DevNodes.compactEntry (blankFile n) (plain_blankFile h).toValid).tailPad .compact =
      pad4 (116 + n) := congrArg pad4 (total_blankFile h)
  omega

/-- It ends behind the file. -/
theorem lt_extent_blankPayload {n : ℕ} (h : n < 2 ^ 32) : n < extent (blankPayload n) := by
  have hname : cstr (DevNodes.compactEntry (blankFile n) (plain_blankFile h).toValid).name ≠
      ascii "TRAILER!!!" := by
    rw [name_blankFile h]
    decide
  have hlen := length_entry_append (DevNodes.compactEntry (blankFile n) (plain_blankFile h).toValid)
    .compact ((DevNodes.compactEntry DevNodes.trailerItem (by decide)).bytes .compact)
  rw [total_blankFile h] at hlen
  rw [blankPayload_eq h, extent_entry (by omega) (Entry.magic_prefix_bytes _ _ _)
    (by rwa [rawName_entry]), advance, total_entry, total_blankFile h]
  omega

/-- A stock image whose ramdisk region has 256 bytes more than a file of `n` bytes. -/
def roomyStock (n : ℕ) : Buf := VendorBoot.stockImage (n + 256) (n + 4096)

/-- The stock image has room for the archive. -/
theorem build_roomyStock {n : ℕ} (h : n + 256 < 2 ^ 32) :
    VendorBoot.RegionInside (roomyStock n) ∧ VendorBoot.build (roomyStock n) (blankPayload n) =
      some (VendorBoot.built (roomyStock n) (blankPayload n)) := by
  have hsize : VendorBoot.vramdiskSize (roomyStock n) = n + 256 :=
    VendorBoot.vramdiskSize_stockImage h _
  have hlen : (roomyStock n).length = VendorBoot.hdr + (n + 4096) :=
    VendorBoot.length_stockImage _ _
  have hin : VendorBoot.RegionInside (roomyStock n) := by
    rw [VendorBoot.RegionInside, hsize, hlen, VendorBoot.ramdiskOff_eq, VendorBoot.hdr]
    omega
  refine ⟨hin, VendorBoot.build_eq (VendorBoot.take_stockImage _ _) ?_ hin ?_⟩
  · rw [hlen]
    omega
  · rw [hsize]
    exact length_blankPayload_lt (by omega)

/-- The hypotheses are satisfiable: a payload with a file of 16 bytes boots. -/
theorem unpackCpio_segment_roomyStock :
    observed obligingKernel () (-1) (ascii ".")
        (segment (VendorBoot.built (roomyStock 16) (blankPayload 16))) =
      observed obligingKernel () (-1) (ascii ".") (blankPayload 16) :=
  have hbuild := build_roomyStock (n := 16) (by decide)
  have hwalk := walk_blankPayload (n := 16) (by decide)
  (unpackCpio_segment_iff hbuild.1 hbuild.2 obligingKernel () (-1) (ascii ".")
    (by rw [observed_eq, hwalk])).2 (le_trans (extent_le hwalk) (by decide +kernel))

/-- A file that is as long as what is read does not fit. -/
theorem observed_segment_ne {n : ℕ} (h : n + 256 < 2 ^ 32) (hn : segSize ≤ n) :
    (observed obligingKernel () (-1) (ascii ".") (blankPayload n)).2 = some 0 ∧
      observed obligingKernel () (-1) (ascii ".")
          (segment (VendorBoot.built (roomyStock n) (blankPayload n))) ≠
        observed obligingKernel () (-1) (ascii ".") (blankPayload n) := by
  obtain ⟨hin, hbuild⟩ := build_roomyStock h
  have hwalk := walk_blankPayload (n := n) (by omega)
  have hlong := lt_extent_blankPayload (n := n) (by omega)
  have hcut := walk_segment_ne_zero hin hbuild hwalk (by omega)
  rw [observed_eq, observed_eq, hwalk]
  exact ⟨rfl, fun heq => hcut (Option.some.inj (congrArg Prod.snd heq))⟩

/-- **A payload that is cut off.**  Its one file has `SEG_SIZE` bytes: there is room in the
region, the archive alone is unpacked, and the bootstrapper rejects what it reads. -/
theorem unpackCpio_segment_cut :
    VendorBoot.RegionInside (roomyStock segSize) ∧
      VendorBoot.build (roomyStock segSize) (blankPayload segSize) =
        some (VendorBoot.built (roomyStock segSize) (blankPayload segSize)) ∧
      (observed obligingKernel () (-1) (ascii ".") (blankPayload segSize)).2 = some 0 ∧
      observed obligingKernel () (-1) (ascii ".")
          (segment (VendorBoot.built (roomyStock segSize) (blankPayload segSize))) ≠
        observed obligingKernel () (-1) (ascii ".") (blankPayload segSize) :=
  have hsize : segSize + 256 < 2 ^ 32 := by decide
  have hbuild := build_roomyStock hsize
  ⟨hbuild.1, hbuild.2, observed_segment_ne hsize le_rfl⟩

end Bootstrap
end Twrp

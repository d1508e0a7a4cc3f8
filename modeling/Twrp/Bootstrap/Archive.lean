/-
# The walk over a well-formed archive

`unpack_cpio` moves over header, name and data rounded up together.  On an archive
of `Cpio.Block`s that brings it to the end of an entry, or, in the standard layout,
four bytes before it, and it then scans forward.  Neither the last bytes of the
entry nor any NULs behind it can hold a false magic, so the scan ends at the next
header whatever the data says: `walk_blocks`.
-/

import Twrp.Bootstrap.Walk

namespace Twrp
namespace Bootstrap

open Bytes Interaction Cpio

/-! ### Header fields as numbers -/

/-- One digit: shift it in. -/
theorem hxStep_eq_or (v : UInt32) (c : UInt8) :
    hxStep v c = v <<< 4 ||| UInt32.ofNat ((hexDigit? c).getD 0) := by
  have hcast : ∀ {x : UInt8} {k : ℕ}, x.toNat = k → x.toUInt32 = UInt32.ofNat k := by
    rintro x k rfl
    exact UInt32.toNat_inj.1 (by simp)
  have hsub : ∀ {a : UInt8}, a ≤ c → (c - a).toNat = c.toNat - a.toNat := fun ha =>
    UInt8.toNat_sub_of_le _ _ ha
  have hadd : ∀ {x : UInt8}, x.toNat < 6 → (x + 10).toNat = x.toNat + 10 := by
    intro x hx
    rw [UInt8.toNat_add]
    exact Nat.mod_eq_of_lt (by simp; omega)
  unfold hxStep hexDigit?
  by_cases h1 : 48 ≤ c ∧ c ≤ 57
  · rw [if_pos h1, if_pos h1, hcast (hsub h1.1)]
    rfl
  rw [if_neg h1, if_neg h1]
  by_cases h2 : 97 ≤ c ∧ c ≤ 102
  · have hlt : (c - 97).toNat < 6 := by
      have := UInt8.le_iff_toNat_le.1 h2.2
      rw [hsub h2.1]
      simp at this ⊢
      omega
    rw [if_pos h2, if_pos h2, hcast (hadd hlt), hsub h2.1]
    rfl
  rw [if_neg h2, if_neg h2]
  by_cases h3 : 65 ≤ c ∧ c ≤ 70
  · have hlt : (c - 65).toNat < 6 := by
      have := UInt8.le_iff_toNat_le.1 h3.2
      rw [hsub h3.1]
      simp at this ⊢
      omega
    rw [if_pos h3, if_pos h3, hcast (hadd hlt), hsub h3.1]
    rfl
  · rw [if_neg h3, if_neg h3]
    exact (UInt32.or_zero).symm

/-- The shift is a multiplication, modulo the width of `unsigned`. -/
theorem hxStep_ofNat (n : ℕ) (c : UInt8) :
    hxStep (UInt32.ofNat n) c = UInt32.ofNat (n * 16 + (hexDigit? c).getD 0) := by
  have hlt : (hexDigit? c).getD 0 < 2 ^ 4 := by
    cases hc : hexDigit? c with
    | none => exact Nat.succ_pos 15
    | some d => exact hexDigit?_lt hc
  have hshift : (n % 2 ^ 32) <<< 4 % 2 ^ 32 = 2 ^ 4 * (n % 2 ^ 28) := by
    rw [Nat.shiftLeft_eq]
    omega
  rw [hxStep_eq_or]
  refine UInt32.toNat_inj.1 ?_
  have hdigit : (UInt32.ofNat ((hexDigit? c).getD 0)).toNat = (hexDigit? c).getD 0 :=
    UInt32.toNat_ofNat_of_lt' (lt_trans hlt (by decide))
  calc (UInt32.ofNat n <<< 4 ||| UInt32.ofNat ((hexDigit? c).getD 0)).toNat
      = (n % 2 ^ 32) <<< 4 % 2 ^ 32 ||| (hexDigit? c).getD 0 := by
        rw [UInt32.toNat_or, UInt32.toNat_shiftLeft, hdigit, UInt32.toNat_ofNat']
        rfl
    _ = 2 ^ 4 * (n % 2 ^ 28) + (hexDigit? c).getD 0 := by
        rw [hshift, ← Nat.two_pow_add_eq_or_of_lt hlt]
    _ = (UInt32.ofNat (n * 16 + (hexDigit? c).getD 0)).toNat := by
        rw [UInt32.toNat_ofNat']
        omega

/-- **`hx` reads what `%08x` writes,** modulo the width of `unsigned`. -/
theorem field_eq (s : Buf) (i : ℕ) : field s i = UInt32.ofNat (hexValue (slice s i 8)) := by
  have hfold : ∀ (b : Buf) (n : ℕ), b.foldl hxStep (UInt32.ofNat n) =
      UInt32.ofNat ((b.map fun c => (hexDigit? c).getD 0).foldl (fun v d => v * 16 + d) n) := by
    intro b
    induction b with
    | nil => exact fun n => rfl
    | cons c b ih =>
      intro n
      rw [List.foldl_cons, hxStep_ofNat, ih, List.map_cons, List.foldl_cons]
  exact hfold _ 0
/-! ### One block -/

/-- The stop at an entry laid out as `l` at offset `p`. -/
def entryStop (p : ℕ) (l : Layout) (e : Entry) : Stop where
  off := p
  mode := UInt32.ofNat e.mode.value
  filesize := UInt32.ofNat e.filesize.value
  rdevmaj := UInt32.ofNat e.rdevmajor.value
  rdevmin := UInt32.ofNat e.rdevminor.value
  namesize := UInt32.ofNat e.namesize.value
  name := dropDotSlash (cstr e.name)
  data := e.seen l

/-- The header field number `i` of an entry. -/
theorem field_entry {e : Entry} {l : Layout} {r : Buf} (i : ℕ) (hi : i < 13) :
    field (e.bytes l ++ r) (6 + 8 * i) = UInt32.ofNat (e.fields.get ⟨i, hi⟩).value := by
  rw [field_eq, e.slice_field l r i hi]
  rfl

/-- A field fits `unsigned`. -/
theorem toNat_ofNat_value (f : HexField) : (UInt32.ofNat f.value).toNat = f.value :=
  UInt32.toNat_ofNat_of_lt' f.value_lt

/-- `namesize` counts the NUL. -/
theorem toNat_namesize {e : Entry} {l : Layout} {r : Buf} :
    (field (e.bytes l ++ r) 94).toNat = e.name.length + 1 := by
  rw [show 94 = 6 + 8 * 11 from rfl, field_entry 11 (by omega)]
  exact (toNat_ofNat_value _).trans e.namesize_eq

/-- `filesize` is the length of the data. -/
theorem toNat_filesize {e : Entry} {l : Layout} {r : Buf} :
    (field (e.bytes l ++ r) 54).toNat = e.data.length := by
  rw [show 54 = 6 + 8 * 6 from rfl, field_entry 6 (by omega)]
  exact (toNat_ofNat_value _).trans e.filesize_eq

/-- What the cursor moves over, rounded up, is header, name and data. -/
theorem total_entry {e : Entry} {l : Layout} {r : Buf} :
    total (field (e.bytes l ++ r) 94) (field (e.bytes l ++ r) 54) = e.total := by
  rw [total, toNat_namesize, toNat_filesize, Entry.total]

/-- The name, up to a NUL. -/
theorem rawName_entry {e : Entry} {l : Layout} {r : Buf} :
    rawName (e.bytes l ++ r) = cstr e.name := by
  rw [rawName, toNat_namesize, Nat.add_sub_cancel, e.slice_name]

/-- The cursor stops at the entry, and takes for its data what is seen. -/
theorem stopAt_entry {e : Entry} {l : Layout} {r : Buf} (p : ℕ) :
    stopAt p (e.bytes l ++ r) = entryStop p l e := by
  have hdata : slice (e.bytes l ++ r) (110 + (e.name.length + 1)) e.data.length = e.seen l := by
    have hsplit : e.bytes l ++ r = (e.header ++ (e.name ++ [0])) ++
        ((zeros (e.gap l) ++ e.data) ++ (zeros (e.tailPad l) ++ r)) := by
      simp only [e.bytes_append, List.append_assoc]
    have hlen : (e.header ++ (e.name ++ [0])).length = 110 + (e.name.length + 1) := by
      rw [List.length_append, e.length_header, List.length_append, List.length_singleton]
    rw [hsplit, slice_append_right hlen.le, hlen, Nat.sub_self, slice_zero,
      List.take_append_of_le_length (by rw [List.length_append]; omega), Entry.seen]
  simp only [stopAt, rawName_entry, toNat_namesize, toNat_filesize, hdata, entryStop]
  simp only [show 14 = 6 + 8 * 1 from rfl, show 54 = 6 + 8 * 6 from rfl,
    show 78 = 6 + 8 * 9 from rfl, show 86 = 6 + 8 * 10 from rfl, show 94 = 6 + 8 * 11 from rfl]
  rw [field_entry 1 (by omega), field_entry 6 (by omega), field_entry 9 (by omega),
    field_entry 10 (by omega), field_entry 11 (by omega)]
  rfl

/-- **The scan over a clean gap** ends at the header behind it. -/
theorem walk_clean {junk rest : Buf} (hc : Clean magic junk rest) (hm : magic <+: rest)
    (hlen : 110 ≤ rest.length) (p : ℕ) : walk p (junk ++ rest) = walk (p + junk.length) rest := by
  cases junk with
  | nil => rfl
  | cons b junk =>
    have hseek : seek magic 110 (junk ++ rest) = some rest :=
      seek_clean (by omega) (hc.of_suffix (List.suffix_cons b junk)) hm hlen
    have hgap : ((b :: junk) ++ rest).length - rest.length = (b :: junk).length := by
      rw [List.length_append, Nat.add_sub_cancel]
    rw [walk_of_seek_eq_some (by rw [List.length_append]; omega)
      (hc _ List.suffix_rfl (List.cons_ne_nil b junk)) hseek, hgap]

/-- A name the unpacker takes for an entry: it fits, and it is not the trailer's. -/
def Ordinary (e : Entry) : Prop := e.name.length ≤ 1022 ∧ cstr e.name ≠ ascii "TRAILER!!!"

/-- The entry lies inside the buffer. -/
theorem length_entry_append (e : Entry) (l : Layout) (r : Buf) :
    e.total ≤ (e.bytes l ++ r).length := by
  rw [List.length_append, e.length_bytes]
  omega

/-- The pass over the header of an entry with a short name. -/
theorem walk_entry {e : Entry} (hname : e.name.length ≤ 1022) (l : Layout) (p : ℕ) (r : Buf) :
    walk p (e.bytes l ++ r) =
      if cstr e.name = ascii "TRAILER!!!" then ([], 0)
      else
        let q := e.total + pad4 e.total
        (entryStop p l e :: (walk (p + q) ((e.bytes l ++ r).drop q)).1,
          (walk (p + q) ((e.bytes l ++ r).drop q)).2) := by
  have hlen := length_entry_append e l r
  have hns : ¬ (field (e.bytes l ++ r) 94 = 0 ∨ 1024 ≤ field (e.bytes l ++ r) 94) := by
    have hn : (field (e.bytes l ++ r) 94).toNat = e.name.length + 1 := toNat_namesize
    rintro (h | h)
    · rw [h] at hn
      exact absurd hn (Nat.succ_ne_zero _).symm
    · have := UInt32.le_iff_toNat_le.1 h
      rw [hn] at this
      exact absurd this (by simp; omega)
  have hmagic := e.magic_prefix_bytes l r
  have h110 : 110 ≤ (e.bytes l ++ r).length := by
    unfold Entry.total at hlen
    omega
  rw [walk_header h110 hmagic, if_neg hns, advance, total_entry, if_neg (by omega), rawName_entry,
    stopAt_entry]

/-- **One block.**  The cursor stops at its entry and then stands at the next
header. -/
theorem walk_block {b : Block} (hb : Ordinary b.entry) {rest : Buf} (hm : magic <+: rest)
    (hlen : 110 ≤ rest.length) (p : ℕ) :
    walk p (b.bytes ++ rest) =
      (entryStop p b.layout b.entry :: (walk (p + b.bytes.length) rest).1,
        (walk (p + b.bytes.length) rest).2) := by
  have hadv : b.entry.total + pad4 b.entry.total ≤ b.bytes.length := by
    rw [Block.bytes, List.length_append]
    rcases b.entry.length_bytes_eq b.layout with h | ⟨-, h⟩ <;> omega
  have hnext : p + (b.entry.total + pad4 b.entry.total) +
      (b.bytes.drop (b.entry.total + pad4 b.entry.total)).length = p + b.bytes.length := by
    rw [List.length_drop]
    omega
  have hsplit : b.bytes ++ rest = b.entry.bytes b.layout ++ (zeros b.extra ++ rest) :=
    List.append_assoc ..
  rw [hsplit, walk_entry hb.1, if_neg hb.2, ← hsplit]
  dsimp only
  rw [List.drop_append_of_le_length hadv, walk_clean (b.clean_behind hm) hm hlen, hnext]

/-! ### Whole archives -/

/-- The stops at a list of blocks that starts at offset `p`. -/
def blockStops (p : ℕ) : List Block → List Stop
  | [] => []
  | b :: bs => entryStop p b.layout b.entry :: blockStops (p + b.bytes.length) bs

/-- In front of a header, blocks start with a header. -/
theorem magic_prefix_blocks (bs : List Block) {rest : Buf} (hm : magic <+: rest)
    (hlen : 110 ≤ rest.length) :
    magic <+: bs.flatMap Block.bytes ++ rest ∧ 110 ≤ (bs.flatMap Block.bytes ++ rest).length := by
  refine ⟨?_, by rw [List.length_append]; omega⟩
  cases bs with
  | nil => exact hm
  | cons b bs =>
    rw [List.flatMap_cons, Block.bytes, List.append_assoc, List.append_assoc]
    exact b.entry.magic_prefix_bytes _ _

/-- **The walk over an archive.**  It stops at the entry of every block, in order,
and then goes on with what follows the blocks. -/
theorem walk_blocks {bs : List Block} (hbs : ∀ b ∈ bs, Ordinary b.entry) {rest : Buf}
    (hm : magic <+: rest) (hlen : 110 ≤ rest.length) (p : ℕ) :
    walk p (bs.flatMap Block.bytes ++ rest) =
      (blockStops p bs ++ (walk (p + (bs.flatMap Block.bytes).length) rest).1,
        (walk (p + (bs.flatMap Block.bytes).length) rest).2) := by
  induction bs generalizing p with
  | nil => rfl
  | cons b bs ih =>
    obtain ⟨hm', hlen'⟩ := magic_prefix_blocks bs hm hlen
    rw [List.flatMap_cons, List.append_assoc, walk_block (hbs b (List.mem_cons_self ..)) hm' hlen',
      ih (fun c hc => hbs c (List.mem_cons_of_mem b hc)), List.length_append, Nat.add_assoc]
    rfl

/-- A stop for each block. -/
theorem length_blockStops (p : ℕ) (bs : List Block) : (blockStops p bs).length = bs.length := by
  induction bs generalizing p with
  | nil => rfl
  | cons b bs ih => rw [blockStops, List.length_cons, ih, List.length_cons]

/-- An entry whose name reads as the trailer's ends the walk where it stands, before
any of the blocks from it on. -/
theorem walk_blocks_of_not_ordinary {bs : List Block} (hbs : ∀ b ∈ bs, b.entry.name.length ≤ 1022)
    (hno : ¬ ∀ b ∈ bs, Ordinary b.entry) {rest : Buf} (hm : magic <+: rest)
    (hlen : 110 ≤ rest.length) (p : ℕ) :
    ∃ pre b post, bs = pre ++ b :: post ∧
      walk p (bs.flatMap Block.bytes ++ rest) = (blockStops p pre, 0) := by
  induction bs generalizing p with
  | nil => exact absurd (fun b hb => absurd hb List.not_mem_nil) hno
  | cons b bs ih =>
    rw [List.flatMap_cons, List.append_assoc]
    by_cases hb : Ordinary b.entry
    · have hno' : ¬ ∀ c ∈ bs, Ordinary c.entry := fun h =>
        hno (List.forall_mem_cons.2 ⟨hb, h⟩)
      obtain ⟨pre, c, post, rfl, hwalk⟩ :=
        ih (fun c hc => hbs c (List.mem_cons_of_mem b hc)) hno' (p + b.bytes.length)
      obtain ⟨hm', hlen'⟩ := magic_prefix_blocks (pre ++ c :: post) hm hlen
      exact ⟨b :: pre, c, post, rfl, by rw [walk_block hb hm' hlen', hwalk]; rfl⟩
    · have hshort := hbs b (List.mem_cons_self ..)
      have htrailer : cstr b.entry.name = ascii "TRAILER!!!" := by
        by_contra h
        exact hb ⟨hshort, h⟩
      refine ⟨[], b, bs, rfl, ?_⟩
      rw [Block.bytes, List.append_assoc, walk_entry hshort, if_pos htrailer]
      rfl

/-- **The trailer.**  Whatever stands behind it, the walk ends there with `0`. -/
theorem walk_trailer {e : Entry} (he : e.name = ascii "TRAILER!!!") (l : Layout) (p : ℕ) (x : Buf) :
    walk p (e.bytes l ++ x) = ([], 0) := by
  have hc : cstr e.name = ascii "TRAILER!!!" := by
    rw [he]
    decide
  rw [walk_entry (by rw [he]; decide), if_pos hc]

end Bootstrap
end Twrp

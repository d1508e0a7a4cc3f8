/-
# The newc archive format

A newc entry is a 110-byte header (the magic `070701` and thirteen fields of eight
hexadecimal digits), the name with a terminating NUL, and the data.  The tools of
this repository lay it out in two ways: `standard` pads the name and then the data
to a multiple of four bytes (`pack_cpio.entry`, as the kernel wants it), `compact`
only the whole entry (`insert_devnodes.entry`, and what `unpack_cpio` assumes).

An `Entry` carries the two length fields that its name and data force, so a header
that lies about its own entry cannot be built.
-/

import Twrp.Bytes.Digits
import Twrp.Bytes.Text
import Twrp.Bytes.Pattern

namespace Twrp
namespace Cpio

open Bytes

/-- The magic of a newc header, `"070701"`. -/
def magic : List UInt8 := ascii "070701"

/-- No two occurrences of the magic overlap. -/
theorem magic_unbordered : Unbordered magic := by decide

@[simp] theorem length_magic : magic.length = 6 := by decide

/-- A header field: eight hexadecimal digits of either case. -/
structure HexField where
  bytes : List UInt8
  length_eq : bytes.length = 8
  hex : ∀ c ∈ bytes, (hexDigit? c).isSome

namespace HexField

/-- The number a field holds. -/
def value (f : HexField) : ℕ := hexValue f.bytes

/-- The field a formatted number makes. -/
def ofNat (n : ℕ) (h : n < 2 ^ 32) : HexField where
  bytes := fmt08x n
  length_eq := length_fmt08x h
  hex := fun _ hc => isSome_hexDigit?_of_mem_fmt08x hc

/-- A field holds the number it was made of. -/
@[simp] theorem value_ofNat (n : ℕ) (h : n < 2 ^ 32) : (ofNat n h).value = n := hexValue_fmt08x n

/-- A field holds a number below `2 ^ 32`: it has eight digits. -/
theorem value_lt (f : HexField) : f.value < 2 ^ 32 := by
  have := hexValue_lt f.bytes
  rw [f.length_eq] at this
  exact this

end HexField

/-- An entry of a newc archive. -/
structure Entry where
  ino : HexField
  mode : HexField
  uid : HexField
  gid : HexField
  nlink : HexField
  mtime : HexField
  filesize : HexField
  devmajor : HexField
  devminor : HexField
  rdevmajor : HexField
  rdevminor : HexField
  namesize : HexField
  check : HexField
  name : List UInt8
  data : List UInt8
  namesize_eq : namesize.value = name.length + 1
  filesize_eq : filesize.value = data.length

/-- The two ways of padding an entry. -/
inductive Layout where
  | standard | compact
  deriving DecidableEq, Repr

/-- The padding behind a name of `namesize` bytes, its NUL included. -/
def Layout.gap (namesize : ℕ) : Layout → ℕ
  | .standard => pad4 (110 + namesize)
  | .compact => 0

/-- The padding behind the data. -/
def Layout.tailPad (namesize filesize : ℕ) : Layout → ℕ
  | .standard => pad4 filesize
  | .compact => pad4 (110 + namesize + filesize)

/-- Six bytes are the magic exactly where the buffer goes on with it. -/
theorem slice_eq_magic_iff {d : List UInt8} {p : ℕ} : slice d p 6 = magic ↔ magic <+: d.drop p := by
  rw [List.prefix_iff_eq_take, length_magic, eq_comm]
  rfl

namespace Entry

variable (e : Entry)

/-- The fields in header order. -/
def fields : List HexField :=
  [e.ino, e.mode, e.uid, e.gid, e.nlink, e.mtime, e.filesize, e.devmajor, e.devminor, e.rdevmajor,
    e.rdevminor, e.namesize, e.check]

/-- The 110 bytes of the header. -/
def header : List UInt8 := magic ++ e.fields.flatMap HexField.bytes

/-- Header, name, data: the length of the entry without padding. -/
def total : ℕ := 110 + (e.name.length + 1) + e.data.length

/-- The bytes between the name's NUL and the data. -/
def gap (l : Layout) : ℕ := l.gap (e.name.length + 1)

/-- The bytes behind the data. -/
def tailPad (l : Layout) : ℕ := l.tailPad (e.name.length + 1) e.data.length

/-- The entry as it stands in an archive. -/
def bytes (l : Layout) : List UInt8 :=
  e.header ++ (e.name ++ (0 :: (zeros (e.gap l) ++ (e.data ++ zeros (e.tailPad l)))))

/-- The data as a reader sees it that looks for it right behind the name: the gap,
and what of the data fits behind that. -/
def seen (l : Layout) : List UInt8 := (zeros (e.gap l) ++ e.data).take e.data.length

/-- Fields take eight bytes each. -/
theorem length_fields_flatMap (fs : List HexField) :
    (fs.flatMap HexField.bytes).length = 8 * fs.length := by
  induction fs with
  | nil => rfl
  | cons f fs ih =>
    rw [List.flatMap_cons, List.length_append, f.length_eq, ih, List.length_cons]
    omega

/-- A header is 110 bytes long. -/
@[simp] theorem length_header : e.header.length = 110 := by
  rw [header, List.length_append, length_fields_flatMap]
  rfl

/-- A header starts with the magic. -/
theorem magic_prefix_header (x : List UInt8) : magic <+: e.header ++ x := by
  rw [header, List.append_assoc]
  exact List.prefix_append _ _

/-- The header field number `i`, read at its offset. -/
theorem slice_header (i : ℕ) (hi : i < 13) (x : List UInt8) :
    slice (e.header ++ x) (6 + 8 * i) 8 = (e.fields.get ⟨i, hi⟩).bytes := by
  have hlen : (e.fields.flatMap HexField.bytes).length = 104 := length_fields_flatMap e.fields
  rw [header, List.append_assoc, slice_append_right (by rw [length_magic]; omega), length_magic,
    Nat.add_sub_cancel_left, slice_append_left (by omega)]
  exact slice_flatMap (fun f _ => f.length_eq) i (show i < e.fields.length from hi)

/-- An entry with what follows it, taken apart into its pieces. -/
theorem bytes_append (l : Layout) (r : List UInt8) :
    e.bytes l ++ r = e.header ++ (e.name ++ ([0] ++ (zeros (e.gap l) ++ (e.data ++
      (zeros (e.tailPad l) ++ r))))) := by
  simp only [bytes, List.append_assoc, List.cons_append, List.nil_append]

/-- So does an entry, whatever follows it. -/
theorem magic_prefix_bytes (l : Layout) (r : List UInt8) : magic <+: e.bytes l ++ r :=
  e.bytes_append l r ▸ e.magic_prefix_header _

/-- The header field number `i`, read in front of whatever follows the entry. -/
theorem slice_field (l : Layout) (r : List UInt8) (i : ℕ) (hi : i < 13) :
    slice (e.bytes l ++ r) (6 + 8 * i) 8 = (e.fields.get ⟨i, hi⟩).bytes := by
  rw [bytes_append, e.slice_header i hi]

/-- The name, read at its offset. -/
theorem slice_name (l : Layout) (r : List UInt8) :
    slice (e.bytes l ++ r) 110 e.name.length = e.name := by
  rw [bytes_append]
  exact slice_append_middle e.length_header.symm rfl

/-- How long an entry is: its own bytes and the padding of its layout. -/
theorem length_bytes (l : Layout) :
    (e.bytes l).length = e.total + e.gap l + e.tailPad l := by
  simp only [bytes, total, List.length_append, List.length_cons, length_header, length_zeros]
  omega

/-- An entry without data has one layout. -/
theorem bytes_of_data_eq_nil (h : e.data = []) (l : Layout) : e.bytes l = e.bytes .compact := by
  cases l with
  | compact => rfl
  | standard => simp [bytes, gap, tailPad, Layout.gap, Layout.tailPad, h, pad4]

/-- Without data, an entry is padded as a whole in either layout. -/
theorem length_bytes_of_data_eq_nil (h : e.data = []) (l : Layout) :
    (e.bytes l).length = e.total + pad4 e.total := by
  rw [e.bytes_of_data_eq_nil h l, length_bytes]
  rfl

/-- **Where a reader of the compact layout lands.**  It moves over the entry's
`total` rounded up to `4`: exactly to its end, or, in the standard layout only, to
four bytes before it. -/
theorem length_bytes_eq (l : Layout) :
    (e.bytes l).length = e.total + pad4 e.total ∨
      l = .standard ∧ (e.bytes l).length = e.total + pad4 e.total + 4 := by
  rw [length_bytes]
  cases l with
  | compact => exact Or.inl rfl
  | standard =>
    rcases pad4_split (110 + (e.name.length + 1)) e.data.length with h | h
    · refine Or.inl ?_
      simp only [gap, tailPad, Layout.gap, Layout.tailPad, total]
      omega
    · refine Or.inr ⟨rfl, ?_⟩
      simp only [gap, tailPad, Layout.gap, Layout.tailPad, total]
      omega

/-! ### Writing an entry -/

/-- The numbers of an entry that the packers choose; the other fields they fill
with constants. -/
structure Attrs where
  ino : ℕ
  mode : ℕ
  uid : ℕ
  gid : ℕ
  rdevmajor : ℕ
  rdevminor : ℕ
  ino_lt : ino < 2 ^ 32
  mode_lt : mode < 2 ^ 32
  uid_lt : uid < 2 ^ 32
  gid_lt : gid < 2 ^ 32
  rdevmajor_lt : rdevmajor < 2 ^ 32
  rdevminor_lt : rdevminor < 2 ^ 32

/-- The entry that is written for a name and its data. -/
def pack (a : Attrs) (name data : List UInt8) (hname : name.length + 1 < 2 ^ 32)
    (hdata : data.length < 2 ^ 32) : Entry where
  ino := .ofNat a.ino a.ino_lt
  mode := .ofNat a.mode a.mode_lt
  uid := .ofNat a.uid a.uid_lt
  gid := .ofNat a.gid a.gid_lt
  nlink := .ofNat 1 (by omega)
  mtime := .ofNat 0 (by omega)
  filesize := .ofNat data.length hdata
  devmajor := .ofNat 0 (by omega)
  devminor := .ofNat 0 (by omega)
  rdevmajor := .ofNat a.rdevmajor a.rdevmajor_lt
  rdevminor := .ofNat a.rdevminor a.rdevminor_lt
  namesize := .ofNat (name.length + 1) hname
  check := .ofNat 0 (by omega)
  name := name
  data := data
  namesize_eq := HexField.value_ofNat _ _
  filesize_eq := HexField.value_ofNat _ _

/-- The header of a written entry, number by number as the packers format it. -/
theorem header_pack (a : Attrs) (name data : List UInt8) (hname : name.length + 1 < 2 ^ 32)
    (hdata : data.length < 2 ^ 32) :
    (pack a name data hname hdata).header = ascii "070701" ++ fmt08x a.ino ++ fmt08x a.mode ++
      fmt08x a.uid ++ fmt08x a.gid ++ fmt08x 1 ++ fmt08x 0 ++ fmt08x data.length ++ fmt08x 0 ++
      fmt08x 0 ++ fmt08x a.rdevmajor ++ fmt08x a.rdevminor ++ fmt08x (name.length + 1) ++
      fmt08x 0 := by
  simp only [header, fields, pack, HexField.ofNat, magic, List.flatMap_cons, List.flatMap_nil,
    List.append_nil, List.append_assoc]

/-! ### What a reader without a gap sees -/

/-- A reader sees as many bytes as the header announces. -/
@[simp] theorem length_seen (l : Layout) : (e.seen l).length = e.data.length := by
  rw [seen, List.length_take, List.length_append]
  omega

/-- It sees the zeros of the gap first, then the data, shifted by the gap. -/
theorem getElem?_seen {l : Layout} {i : ℕ} (hi : i < e.data.length) :
    (e.seen l)[i]? = if i < e.gap l then some 0 else e.data[i - e.gap l]? := by
  rw [seen, List.getElem?_take_of_lt hi]
  split_ifs with hg
  · rw [List.getElem?_append_left (by rwa [length_zeros]), zeros, List.getElem?_replicate_of_lt hg]
  · rw [List.getElem?_append_right (by rw [length_zeros]; omega), length_zeros]

/-- **When nothing is lost.**  A shift by one to three zero bytes goes unnoticed
only in data that is all zero. -/
theorem seen_eq_data_iff {l : Layout} :
    e.seen l = e.data ↔ e.gap l = 0 ∨ ∀ b ∈ e.data, b = 0 := by
  constructor
  · intro h
    refine or_iff_not_imp_left.2 fun hg => ?_
    -- every byte is a byte of the gap, or the byte one gap before it
    have hzero : ∀ i < e.data.length, e.data[i]? = some 0 := by
      intro i
      induction i using Nat.strong_induction_on with
      | _ i ih =>
        intro hi
        rw [← h, getElem?_seen e hi]
        split_ifs with hig
        · rfl
        · exact ih (i - e.gap l) (by omega) (by omega)
    intro b hb
    obtain ⟨i, hi, rfl⟩ := List.getElem_of_mem hb
    exact Option.some.inj ((List.getElem?_eq_getElem hi).symm.trans (hzero i hi))
  · rintro (h | h)
    · rw [seen, h, zeros_zero, List.nil_append, List.take_length]
    · have hdata : e.data = zeros e.data.length := List.eq_replicate_of_mem h
      rw [seen]
      conv_lhs => rw [hdata, length_zeros, ← zeros_add, zeros, List.take_replicate]
      conv_rhs => rw [hdata]
      rw [Nat.min_eq_left (by omega)]
      rfl

/-- A NUL-free string survives only without a gap, or when it is empty. -/
theorem cstr_seen_eq_data_iff {l : Layout} (h : (0 : UInt8) ∉ e.data) :
    cstr (e.seen l) = e.data ↔ e.gap l = 0 ∨ e.data = [] := by
  rcases Nat.eq_zero_or_pos (e.gap l) with hg | hg
  · rw [(seen_eq_data_iff e).2 (Or.inl hg), cstr_of_notMem h]
    exact iff_of_true rfl (Or.inl hg)
  rcases List.eq_nil_or_concat e.data with hd | ⟨b, c, hd⟩
  · refine iff_of_true ?_ (Or.inr hd)
    rw [seen, hd]
    rfl
  · have hpos : 0 < e.data.length := by
      rw [hd]
      simp
    obtain ⟨g, hg'⟩ := Nat.exists_eq_succ_of_ne_zero hg.ne'
    obtain ⟨n, hn⟩ := Nat.exists_eq_succ_of_ne_zero hpos.ne'
    have hnil : cstr (e.seen l) = [] := by
      rw [seen, hg', hn]
      rfl
    have hne : e.data ≠ [] := List.ne_nil_of_length_pos hpos
    rw [hnil]
    exact iff_of_false hne.symm (not_or.2 ⟨by omega, hne⟩)

end Entry

/-! ### Archives -/

/-- An entry in an archive, with the NUL bytes that were added behind it. -/
structure Block where
  entry : Entry
  layout : Layout
  extra : ℕ

/-- The bytes of a block. -/
def Block.bytes (b : Block) : List UInt8 := b.entry.bytes b.layout ++ zeros b.extra

/-- **What a reader of the compact layout has to cross** from where it lands to the
next header cannot be mistaken for a header. -/
theorem Block.clean_behind (b : Block) {rest : List UInt8} (hm : magic <+: rest) :
    Clean magic (b.bytes.drop (b.entry.total + pad4 b.entry.total)) rest := by
  have hadv : b.entry.total + pad4 b.entry.total ≤ (b.entry.bytes b.layout).length := by
    rcases b.entry.length_bytes_eq b.layout with h | ⟨-, h⟩ <;> omega
  rw [bytes, List.drop_append_of_le_length hadv]
  refine magic_unbordered.clean_fill hm ?_ fun x hx => ?_
  · rw [List.length_drop, length_magic]
    rcases b.entry.length_bytes_eq b.layout with h | ⟨-, h⟩ <;> omega
  · rw [eq_zero_of_mem_zeros hx]
    decide

end Cpio
end Twrp

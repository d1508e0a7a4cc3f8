/-
# ELF images

The part of the ELF format that says what a file is and which libraries it needs.  The
two classes differ in the width of an address, in the place of most fields and in the
size of every record, so all of it depends on the class; byte order is little-endian.

A field is read where the format puts it (`field`).  The program headers are a list of
segments; the dynamic section is the segment of type `PT_DYNAMIC`, an array of pairs of
a tag and a value, and `DT_NULL` ends it (`entries`).  A `DT_NEEDED` value is an offset
into the string table, whose address is the value of `DT_STRTAB`; an address lies in the
file where a `PT_LOAD` segment puts it (`Needed`).
-/

import Twrp.Bytes.Digits
import Twrp.Bytes.Text

namespace Elf

open Bytes

/-- `EI_CLASS`. -/
inductive ElfClass
  | elf32
  | elf64
  deriving DecidableEq

/-- The byte that stands for the class in `e_ident`. -/
def ElfClass.byte : ElfClass → UInt8
  | elf32 => 1
  | elf64 => 2

/-- The width of an address, an offset or a size. -/
def ElfClass.word : ElfClass → ℕ
  | elf32 => 4
  | elf64 => 8

/-- The size of the file header. -/
def ElfClass.ehdrSize : ElfClass → ℕ
  | elf32 => 52
  | elf64 => 64

/-- The size of a program header. -/
def ElfClass.phdrSize : ElfClass → ℕ
  | elf32 => 32
  | elf64 => 56

/-- The size of an entry of the dynamic section. -/
def ElfClass.dynSize : ElfClass → ℕ
  | elf32 => 8
  | elf64 => 16

/-- The number in the `w` bytes at `off`. -/
def field (d : List UInt8) (off w : ℕ) : ℕ := leNat (slice d off w)

theorem field_lt (d : List UInt8) (off w : ℕ) : field d off w < 256 ^ w :=
  (leNat_lt _).trans_le (Nat.pow_le_pow_right (by omega) (by
    rw [length_slice]
    exact Nat.min_le_left ..))

/-! ### The file header -/

def etExec : ℕ := 2
def emAarch64 : ℕ := 183

def eType (d : List UInt8) : ℕ := field d 16 2
def eMachine (d : List UInt8) : ℕ := field d 18 2
def eEntry (c : ElfClass) (d : List UInt8) : ℕ := field d 24 c.word

/-- Where the program headers begin. -/
def ePhoff (c : ElfClass) (d : List UInt8) : ℕ :=
  match c with
  | .elf32 => field d 28 4
  | .elf64 => field d 32 8

/-- The distance from one program header to the next. -/
def ePhentsize (c : ElfClass) (d : List UInt8) : ℕ :=
  match c with
  | .elf32 => field d 42 2
  | .elf64 => field d 54 2

def ePhnum (c : ElfClass) (d : List UInt8) : ℕ :=
  match c with
  | .elf32 => field d 44 2
  | .elf64 => field d 56 2

/-! ### Segments -/

def ptLoad : ℕ := 1
def ptDynamic : ℕ := 2

/-- A segment, as its program header describes it. -/
structure Segment where
  type : ℕ
  offset : ℕ
  vaddr : ℕ
  filesz : ℕ
  deriving DecidableEq

/-- The address `a` is loaded from the file with this segment. -/
def Segment.Holds (a : ℕ) (s : Segment) : Prop :=
  s.type = ptLoad ∧ s.vaddr ≤ a ∧ a < s.vaddr + s.filesz

instance (a : ℕ) (s : Segment) : Decidable (s.Holds a) := inferInstanceAs (Decidable (_ ∧ _ ∧ _))

/-- Where the byte at address `a` stands in the file. -/
def Segment.fileOffset (s : Segment) (a : ℕ) : ℕ := s.offset + (a - s.vaddr)

/-- The program header at `off`. -/
def segmentAt (c : ElfClass) (d : List UInt8) (off : ℕ) : Segment :=
  match c with
  | .elf32 =>
    { type := field d off 4
      offset := field d (off + 4) 4
      vaddr := field d (off + 8) 4
      filesz := field d (off + 16) 4 }
  | .elf64 =>
    { type := field d off 4
      offset := field d (off + 8) 8
      vaddr := field d (off + 16) 8
      filesz := field d (off + 32) 8 }

/-- Where program header `i` begins. -/
def phdrOff (c : ElfClass) (d : List UInt8) (i : ℕ) : ℕ := ePhoff c d + i * ePhentsize c d

def segments (c : ElfClass) (d : List UInt8) : List Segment :=
  (List.range (ePhnum c d)).map fun i => segmentAt c d (phdrOff c d i)

/-! ### The dynamic section -/

def dtNull : ℕ := 0
def dtNeeded : ℕ := 1
def dtStrtab : ℕ := 5

/-- An entry of the dynamic section. -/
structure Entry where
  tag : ℕ
  val : ℕ
  deriving DecidableEq

/-- The entry at `off`. -/
def entryAt (c : ElfClass) (d : List UInt8) (off : ℕ) : Entry :=
  { tag := field d off c.word, val := field d (off + c.word) c.word }

/-- The entries of `n` records of `size` bytes at `off`, up to the first `DT_NULL`. -/
def entriesBy (c : ElfClass) (d : List UInt8) (off size n : ℕ) : List Entry :=
  ((List.range n).map fun k => entryAt c d (off + size * k)).takeWhile (·.tag ≠ dtNull)

/-- The dynamic section in the segment `s`. -/
def entries (c : ElfClass) (d : List UInt8) (s : Segment) : List Entry :=
  entriesBy c d s.offset c.dynSize (s.filesz / c.dynSize)

/-- The text `s` stands at `off`, with its NUL. -/
def HasText (d : List UInt8) (off : ℕ) (s : String) : Prop :=
  Char.ofNat 0 ∉ s.toList ∧ ∃ rest, d.drop off = encode s ++ 0 :: rest

/-- The text `s` stands in the string table of the dynamic section, at `val`. -/
def InStrtab (c : ElfClass) (d : List UInt8) (dyn : Segment) (val : ℕ) (s : String) : Prop :=
  ∃ strtab ∈ entries c d dyn, strtab.tag = dtStrtab ∧
    ∃ seg ∈ segments c d, seg.Holds strtab.val ∧ HasText d (seg.fileOffset strtab.val + val) s

/-- **What a file needs:** the texts at `DT_STRTAB + val` for the `DT_NEEDED` entries. -/
def Needed (c : ElfClass) (d : List UInt8) (s : String) : Prop :=
  ∃ dyn ∈ segments c d, dyn.type = ptDynamic ∧
    ∃ e ∈ entries c d dyn, e.tag = dtNeeded ∧ InStrtab c d dyn e.val s

/-! ### Well-formed images -/

/-- A dynamic section: in the file, ended by `DT_NULL`, with the address of one string
table, which one segment loads from the file, and with a text for every needed name. -/
structure Dynamic (c : ElfClass) (d : List UInt8) (s : Segment) : Prop where
  le_length : s.offset + s.filesz ≤ d.length
  terminated : ∃ k < s.filesz / c.dynSize, (entryAt c d (s.offset + c.dynSize * k)).tag = dtNull
  strtab : ∃ a, (∃ e ∈ entries c d s, e.tag = dtStrtab) ∧
    (∀ e ∈ entries c d s, e.tag = dtStrtab → e.val = a) ∧
    ∃ seg, (segments c d).filter (·.Holds a) = [seg] ∧
      ∀ e ∈ entries c d s, e.tag = dtNeeded →
        ∃ text, HasText d (seg.fileOffset a + e.val) text

/-- A little-endian ELF image with at most one dynamic section. -/
structure Image where
  cls : ElfClass
  bytes : List UInt8
  ident : [0x7f, 0x45, 0x4c, 0x46, cls.byte, 1] <+: bytes
  ehdr_le : cls.ehdrSize ≤ bytes.length
  phdr_le : ∀ i < ePhnum cls bytes, phdrOff cls bytes i + cls.phdrSize ≤ bytes.length
  dynamic_le_one : ((segments cls bytes).filter (·.type = ptDynamic)).length ≤ 1
  dynamic : ∀ s ∈ segments cls bytes, s.type = ptDynamic → Dynamic cls bytes s

/-! ### Entries up to the first `DT_NULL` -/

/-- One more record in front. -/
theorem entriesBy_succ (c : ElfClass) (d : List UInt8) (off size n : ℕ) :
    entriesBy c d off size (n + 1) =
      if (entryAt c d off).tag = dtNull then []
      else entryAt c d off :: entriesBy c d (off + size) size n := by
  have hrest : ∀ k, off + size * (k + 1) = off + size + size * k := fun k => by
    rw [Nat.mul_succ, Nat.add_assoc, Nat.add_comm size]
  unfold entriesBy
  rw [List.range_succ_eq_map, List.map_cons, List.map_map, List.takeWhile_cons, Nat.mul_zero,
    Nat.add_zero]
  simp only [Function.comp_def, Nat.succ_eq_add_one, hrest]
  by_cases h0 : (entryAt c d off).tag = dtNull
  · rw [if_neg (by simpa using h0), if_pos h0]
  · rw [if_pos (by simpa using h0), if_neg h0]

/-- Nothing counts behind `DT_NULL`. -/
theorem entriesBy_eq_nil {c : ElfClass} {d : List UInt8} {off : ℕ}
    (h : (entryAt c d off).tag = dtNull) (size n : ℕ) : entriesBy c d off size n = [] := by
  cases n with
  | zero => rfl
  | succ n => rw [entriesBy_succ, if_pos h]

/-- Every entry stands in one of the places. -/
theorem exists_of_mem_entriesBy {c : ElfClass} {d : List UInt8} {off size n : ℕ} {e : Entry}
    (h : e ∈ entriesBy c d off size n) : ∃ k < n, entryAt c d (off + size * k) = e := by
  obtain ⟨k, hk, he⟩ := List.mem_map.1 ((List.takeWhile_sublist _).mem h)
  exact ⟨k, List.mem_range.1 hk, he⟩

end Elf

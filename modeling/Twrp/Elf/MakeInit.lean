/-
# `make_elf_init.py`: a static ELF executable around given code

`elf` writes a file header, one program header and the code.  `e_ident` is written with
8 bytes where the format has 16, so every later field of the file header stands 8 bytes
too early and the program header begins at 56.  Read in the ELF64 layout the file has no
type, another machine and no segment to load (`eType_out`, `eMachine_out`,
`loads_out`); `not_loadable` concludes that no code is made into what it should be.

The program header by itself would not do either (`misplaced`): it loads the first bytes
of the file, as many as the code has, and the entry address is that of the first of them.
-/

import Twrp.Elf.Layout
import Twrp.Python.Struct

namespace Twrp
namespace MakeElfInit

open Bytes Python
open Elf (Segment)

/-! ### The code -/

def emAarch64 : ℕ := 183
def etExec : ℕ := 2
def ptLoad : ℕ := 1
def pfR : ℕ := 4
def pfX : ℕ := 1
def pfRx : ℕ := pfR ||| pfX

/-- What is written of `e_ident`: 64 bits, little-endian, version 1, System V. -/
def ident : List UInt8 := [0x7f, 0x45, 0x4c, 0x46] ++ [2, 1, 1, 0]

/-- The other fields of the file header, in the format `<HHIQQQIHHHHHH`. -/
def ehdrFields : List (ℕ × ℕ) :=
  [(2, etExec), (2, emAarch64), (4, 1), (8, 0x400000), (8, 64), (8, 0), (4, 0), (2, 64), (2, 56),
    (2, 1), (2, 64), (2, 0), (2, 0)]

/-- The program header, in the format `<IIQQQQQQ`. -/
def phdrFields (n : ℕ) : List (ℕ × ℕ) :=
  [(4, ptLoad), (4, pfRx), (8, 0), (8, 0x400000), (8, 0x400000), (8, n), (8, n), (8, 0x1000)]

/-- `elf(code)`, whose second parameter is not used; `none` where `struct` raises. -/
def elf (code : List UInt8) : Option (List UInt8) := do
  let ehdr ← packFields ehdrFields
  let phdr ← packFields (phdrFields code.length)
  some (ident ++ ehdr ++ phdr ++ code)

/-- An instruction that branches to itself. -/
def a64Loop : Option (List UInt8) := packLE 4 0x14000000

def buildLoop : Option (List UInt8) := a64Loop.bind elf

/-! ### What is written -/

def ehdr : List UInt8 := ehdrFields.flatMap fun f => leBytes f.1 f.2
def phdr (n : ℕ) : List UInt8 := (phdrFields n).flatMap fun f => leBytes f.1 f.2

/-- The file; `elf` has nothing else to return. -/
def out (code : List UInt8) : List UInt8 := ident ++ ehdr ++ phdr code.length ++ code

/-- The fields of the program header fit. -/
theorem phdrFields_lt {n : ℕ} (h : n < 2 ^ 64) : ∀ f ∈ phdrFields n, f.2 < 256 ^ f.1 := by
  simp only [phdrFields, List.forall_mem_cons, List.not_mem_nil, false_imp_iff, forall_const]
  exact ⟨by decide, by decide, by decide, by decide, by decide, h, h, by decide, trivial⟩

/-- A file is made of any code that fits. -/
theorem elf_eq {code : List UInt8} (h : code.length < 2 ^ 64) : elf code = some (out code) := by
  have hehdr : packFields ehdrFields = some ehdr := packFields_eq (by decide)
  have hphdr : packFields (phdrFields code.length) = some (phdr code.length) :=
    packFields_eq (phdrFields_lt h)
  rw [elf, hehdr, hphdr]
  rfl

/-- Where `elf` returns, it returns `out`. -/
theorem eq_out {code data : List UInt8} (h : elf code = some data) : data = out code := by
  rcases Nat.lt_or_ge code.length (2 ^ 64) with hlt | hge
  · exact Option.some.inj (h.symm.trans (elf_eq hlt))
  · have hphdr : packFields (phdrFields code.length) = none :=
      packFields_eq_none (f := (8, code.length)) (by simp [phdrFields]) hge
    rw [elf, hphdr] at h
    cases hehdr : packFields ehdrFields <;> rw [hehdr] at h <;> cases h

/-! ### How it is read -/

/-- The code is loaded: the file is an executable for the machine, and its one segment
lies in the file, has the `n` bytes of code at `off` in it, and puts the entry there. -/
def Loads (data : List UInt8) (off n : ℕ) : Prop :=
  Elf.eType data = Elf.etExec ∧ Elf.eMachine data = Elf.emAarch64 ∧
    ∃ seg, (Elf.segments .elf64 data).filter (·.type = Elf.ptLoad) = [seg] ∧
      seg.offset + seg.filesz ≤ data.length ∧
      (seg.offset ≤ off ∧ off + n ≤ seg.offset + seg.filesz) ∧
      seg.Holds (Elf.eEntry .elf64 data) ∧ seg.fileOffset (Elf.eEntry .elf64 data) = off

/-- `elf(code)` is an executable that loads the code, which stands at its end. -/
def Loadable (code : List UInt8) : Prop :=
  ∃ data, elf code = some data ∧ Loads data (data.length - code.length) code.length

/-- The first 64 bytes are the same for every code. -/
def front : List UInt8 := ident ++ ehdr ++ leBytes 4 ptLoad ++ leBytes 4 pfRx

/-- It begins with the same bytes, whatever the code. -/
theorem exists_out_eq (code : List UInt8) : ∃ rest, out code = front ++ rest := by
  refine ⟨((phdrFields code.length).drop 2).flatMap (fun f => leBytes f.1 f.2) ++ code, ?_⟩
  simp only [out, front, phdr, phdrFields, List.flatMap_cons, List.drop_succ_cons, List.drop_zero,
    List.append_assoc]

/-- A field of the file header. -/
theorem field_out (code : List UInt8) {off w : ℕ} (h : off + w ≤ 64) :
    Elf.field (out code) off w = Elf.field front off w := by
  obtain ⟨rest, hrest⟩ := exists_out_eq code
  have hlen : front.length = 64 := by decide +kernel
  rw [hrest, Elf.field, Elf.field, slice_append_left (hlen ▸ h)]

/-- Its type is `0`, no type of file. -/
theorem eType_out (code : List UInt8) : Elf.eType (out code) = 0 :=
  (field_out code (by omega)).trans (by decide +kernel)

/-- Its machine is `64`. -/
theorem eMachine_out (code : List UInt8) : Elf.eMachine (out code) = 64 :=
  (field_out code (by omega)).trans (by decide +kernel)

/-- The one program header is read at the beginning of the file and loads nothing. -/
theorem loads_out (code : List UInt8) :
    (Elf.segments .elf64 (out code)).filter (·.type = Elf.ptLoad) = [] := by
  have hnum : Elf.ePhnum .elf64 (out code) = 1 :=
    (field_out code (by omega)).trans (by decide +kernel)
  have hoff : Elf.ePhoff .elf64 (out code) = 0 :=
    (field_out code (by omega)).trans (by decide +kernel)
  have htype : (Elf.segmentAt .elf64 (out code) 0).type ≠ Elf.ptLoad := by
    have hmagic : (Elf.segmentAt .elf64 (out code) 0).type = 0x464c457f :=
      (field_out code (by omega)).trans (by decide +kernel)
    rw [hmagic]
    decide
  rw [Elf.segments, hnum, List.range_one, List.map_singleton, Elf.phdrOff, hoff, Nat.zero_mul]
  exact List.filter_cons_of_neg (by simpa using htype)

/-- **What `elf` writes is never loadable.** -/
theorem not_loadable (code : List UInt8) :
    ¬ Loadable code ∧ ∀ data, elf code = some data →
      Elf.eType data = 0 ∧ Elf.eMachine data = 64 ∧
        (Elf.segments .elf64 data).filter (·.type = Elf.ptLoad) = [] := by
  constructor
  · rintro ⟨data, hdata, htype, -⟩
    rw [eq_out hdata, eType_out] at htype
    cases htype
  · intro data hdata
    rw [eq_out hdata]
    exact ⟨eType_out code, eMachine_out code, loads_out code⟩

/-- **Nor would the program header do in its place:** the segment that it describes ends
in front of the end of a code that stands behind anything, and the entry address is that
of the first byte of the file. -/
theorem misplaced {code data : List UInt8} {off start : ℕ} (hcode : code.length < 2 ^ 64)
    (hphdr : slice data off 56 = phdr code.length) (hstart : 0 < start) :
    ¬ start + code.length ≤ (Elf.segmentAt .elf64 data off).offset +
        (Elf.segmentAt .elf64 data off).filesz ∧
      (Elf.segmentAt .elf64 data off).fileOffset 0x400000 ≠ start := by
  have hfields : fieldsAt data [4, 4, 8, 8, 8, 8, 8, 8] off =
      [ptLoad, pfRx, 0, 0x400000, 0x400000, code.length, code.length, 0x1000] := by
    rw [← fields_slice]
    exact (congrArg (fields _) hphdr).trans (fields_leBytes (phdrFields_lt hcode))
  simp only [fieldsAt, List.cons.injEq] at hfields
  obtain ⟨-, -, hoffset, hvaddr, -, hfilesz, -⟩ := hfields
  have hoffset : (Elf.segmentAt .elf64 data off).offset = 0 := hoffset
  have hvaddr : (Elf.segmentAt .elf64 data off).vaddr = 0x400000 := hvaddr
  have hfilesz : (Elf.segmentAt .elf64 data off).filesz = code.length := hfilesz
  rw [Elf.Segment.fileOffset, hoffset, hvaddr, hfilesz]
  omega

/-- The program that loops: its file has the magic number and nothing else in its place. -/
theorem buildLoop_not_loadable : buildLoop = some (out [0, 0, 0, 0x14]) ∧
    ¬ Loadable [0, 0, 0, 0x14] := by
  refine ⟨by decide +kernel, ?_⟩
  rintro ⟨data, hdata, htype, -⟩
  rw [eq_out hdata, eType_out] at htype
  cases htype

end MakeElfInit
end Twrp

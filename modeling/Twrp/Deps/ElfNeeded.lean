/-
# `elf_needed2`: the NEEDED names of an ELF file

The function reads the program headers up to the first `PT_DYNAMIC`, goes through that
segment for `DT_NEEDED` and `DT_STRTAB`, looks for the `PT_LOAD` segment that holds the
string table, and collects the texts found there.  All records are read in the layout of
the class, but the loop over the dynamic section goes on by 16 bytes in both: for ELF32,
whose entries have 8, it sees every second one.

`elfNeeded2_eq` says what is returned for any well-formed image, `correct_of_elf64` that
this is what the file needs when it is an ELF64, and `correct_iff` when it is otherwise.
-/

import Twrp.Elf.Layout
import Twrp.Python.Struct
import Twrp.Python.Text
import Mathlib.Data.Finset.Image

namespace Twrp
namespace ElfNeeded

open Bytes Python
open Elf (ElfClass Segment Entry Image)

/-! ### The code -/

/-- `b'\x7fELF'`. -/
def magic : List UInt8 := [0x7f, 0x45, 0x4c, 0x46]

/-- A program header as it is unpacked. -/
structure Phdr where
  pType : ℕ
  pFlags : ℕ
  pOffset : ℕ
  pVaddr : ℕ
  pPaddr : ℕ
  pFilesz : ℕ
  pMemsz : ℕ
  pAlign : ℕ

/-- One unsigned number; `none` where `struct` raises. -/
def unpackInt (w : ℕ) (d : List UInt8) (off : ℕ) : Option ℕ := (unpackFrom w d off).map leNat

/-- A program header at `off`, in the formats `<IIQQQQQQ` and `<IIIIIIII`. -/
def unpackPhdr (is64 : Bool) (d : List UInt8) (off : ℕ) : Option Phdr :=
  if is64 then
    match unpackFields [4, 4, 8, 8, 8, 8, 8, 8] d off with
    | some [pType, pFlags, pOffset, pVaddr, pPaddr, pFilesz, pMemsz, pAlign] =>
      some { pType, pFlags, pOffset, pVaddr, pPaddr, pFilesz, pMemsz, pAlign }
    | _ => none
  else
    match unpackFields [4, 4, 4, 4, 4, 4, 4, 4] d off with
    | some [pType, pOffset, pVaddr, pPaddr, pFilesz, pMemsz, pFlags, pAlign] =>
      some { pType, pFlags, pOffset, pVaddr, pPaddr, pFilesz, pMemsz, pAlign }
    | _ => none

/-- The first of the program headers `is` that `p` accepts; reading it may fail. -/
def findPhdr (phdr : ℕ → Option Phdr) (p : Phdr → Bool) : List ℕ → Option (Option Phdr)
  | [] => some none
  | i :: is =>
    match phdr i with
    | none => none
    | some ph => if p ph then some (some ph) else findPhdr phdr p is

/-- A tag and a value at `off`, in the formats `<qQ` and `<iI`. -/
def unpackDyn (is64 : Bool) (d : List UInt8) (off : ℕ) : Option (ℤ × ℕ) :=
  let w := if is64 then 8 else 4
  match unpackFields [w, w] d off with
  | some [tag, val] => some (toSigned w tag, val)
  | _ => none

/-- The loop over the dynamic section from `j` on, with what was collected before. -/
def scan (is64 : Bool) (d : List UInt8) (dynOff dynSz j : ℕ) (needed : Finset ℕ)
    (strtabOff : Option ℕ) : Option (Finset ℕ × Option ℕ) :=
  if j + 16 ≤ dynSz then
    match unpackDyn is64 d (dynOff + j) with
    | none => none
    | some (tag, val) =>
      if tag = 0 then some (needed, strtabOff)
      else scan is64 d dynOff dynSz (j + 16) (if tag = 1 then insert val needed else needed)
        (if tag = 5 then some val else strtabOff)
  else some (needed, strtabOff)
termination_by dynSz - j

/-- The text from `start` up to the next NUL. -/
def textAt (d : List UInt8) (start : ℕ) : List Char :=
  let e := find d 0 start
  decodeReplace (sliceOf d start e)

/-- `elf_needed2` on the contents of a file; `none` where it raises. -/
def elfNeeded2 (d : List UInt8) : Option (Finset (List Char)) :=
  if d.take 4 ≠ magic then some ∅
  else do
    let eiClass ← d[4]?
    let is64 := decide (eiClass = 2)
    let ePhoff ← (if is64 then unpackInt 8 d 32 else unpackInt 4 d 28)
    let ePhentsize ← (if is64 then unpackInt 2 d 54 else unpackInt 2 d 42)
    let ePhnum ← (if is64 then unpackInt 2 d 56 else unpackInt 2 d 44)
    let phdr := fun i => unpackPhdr is64 d (ePhoff + i * ePhentsize)
    match ← findPhdr phdr (fun ph => ph.pType = 2) (List.range ePhnum) with
    | none => some ∅
    | some dyn =>
      match ← scan is64 d dyn.pOffset dyn.pFilesz 0 ∅ none with
      | (_, none) => some ∅
      | (needed, some strtabOff) =>
        match ← findPhdr phdr (fun ph => ph.pType = 1 ∧ ph.pVaddr ≤ strtabOff ∧
            strtabOff < ph.pVaddr + ph.pFilesz) (List.range ePhnum) with
        | none => some ∅
        | some ph =>
          let base := ph.pOffset + (strtabOff - ph.pVaddr)
          some (needed.image fun nv => textAt d (base + nv))

/-! ### Program headers -/

/-- What of a program header matters. -/
def Phdr.segment (ph : Phdr) : Segment :=
  { type := ph.pType, offset := ph.pOffset, vaddr := ph.pVaddr, filesz := ph.pFilesz }

theorem unpackInt_eq {w : ℕ} {d : List UInt8} {off : ℕ} (h : off + w ≤ d.length) :
    unpackInt w d off = some (Elf.field d off w) := by
  rw [unpackInt, unpackFrom_eq h]
  rfl

/-- The formats agree with the layout of the class. -/
theorem exists_unpackPhdr {c : ElfClass} {d : List UInt8} {off : ℕ}
    (h : off + c.phdrSize ≤ d.length) :
    ∃ ph, unpackPhdr (c = .elf64) d off = some ph ∧ ph.segment = Elf.segmentAt c d off := by
  cases c with
  | elf32 =>
    rw [unpackPhdr, if_neg (by simp), unpackFields_eq h]
    exact ⟨_, rfl, rfl⟩
  | elf64 =>
    rw [unpackPhdr, if_pos (by simp), unpackFields_eq h]
    exact ⟨_, rfl, rfl⟩

/-- Going through the headers is going through the segments. -/
theorem exists_findPhdr {phdr : ℕ → Option Phdr} {p : Phdr → Bool} {q : Segment → Bool}
    {seg : ℕ → Segment} {is : List ℕ} (hpq : ∀ ph, p ph = q ph.segment)
    (h : ∀ i ∈ is, ∃ ph, phdr i = some ph ∧ ph.segment = seg i) :
    ∃ found, findPhdr phdr p is = some found ∧
      found.map Phdr.segment = (is.map seg).find? q := by
  induction is with
  | nil => exact ⟨none, rfl, rfl⟩
  | cons i is ih =>
    obtain ⟨⟨ph, hph, hseg⟩, his⟩ := List.forall_mem_cons.1 h
    rw [findPhdr, hph, List.map_cons, ← hseg, List.find?_cons]
    dsimp only
    rw [← hpq]
    by_cases hp : p ph
    · rw [if_pos hp, hp]
      exact ⟨_, rfl, rfl⟩
    · rw [if_neg hp, eq_false_of_ne_true hp]
      exact ih his

/-! ### The dynamic section -/

/-- What one entry adds. -/
def note (acc : Finset ℕ × Option ℕ) (e : Entry) : Finset ℕ × Option ℕ :=
  (if e.tag = Elf.dtNeeded then insert e.val acc.1 else acc.1,
    if e.tag = Elf.dtStrtab then some e.val else acc.2)

/-- The offsets of the names that `L` asks for are collected. -/
theorem mem_note {L : List Entry} {acc : Finset ℕ × Option ℕ} {v : ℕ} :
    v ∈ (L.foldl note acc).1 ↔ v ∈ acc.1 ∨ ∃ e ∈ L, e.tag = Elf.dtNeeded ∧ e.val = v := by
  induction L generalizing acc with
  | nil => simp
  | cons e L ih =>
    have hnote : v ∈ (note acc e).1 ↔ v ∈ acc.1 ∨ e.tag = Elf.dtNeeded ∧ e.val = v := by
      by_cases he : e.tag = Elf.dtNeeded
      · rw [note, if_pos he, Finset.mem_insert, or_comm, and_iff_right he, eq_comm]
      · rw [note, if_neg he, or_iff_left fun h => he h.1]
    rw [List.foldl_cons, ih, List.exists_mem_cons_iff, hnote, or_assoc]

/-- The address of the string table: the last that is given. -/
def strtabOf (L : List Entry) : Option ℕ :=
  ((L.filter (·.tag = Elf.dtStrtab)).getLast?).map Entry.val

theorem snd_note {L : List Entry} {acc : Finset ℕ × Option ℕ} :
    (L.foldl note acc).2 = (strtabOf L).or acc.2 := by
  induction L generalizing acc with
  | nil => rfl
  | cons e L ih =>
    rw [List.foldl_cons, ih, strtabOf, strtabOf, note]
    by_cases he : e.tag = Elf.dtStrtab
    · rw [List.filter_cons_of_pos (by simpa using he), List.getLast?_cons]
      cases (L.filter (·.tag = Elf.dtStrtab)).getLast? <;> simp [he]
    · rw [List.filter_cons_of_neg (by simpa using he)]
      simp [he]

/-- An entry is unpacked as it stands; for a small tag the sign is of no matter. -/
theorem exists_unpackDyn {c : ElfClass} {d : List UInt8} {off : ℕ}
    (h : off + c.dynSize ≤ d.length) :
    ∃ tag, unpackDyn (c = .elf64) d off = some (tag, (Elf.entryAt c d off).val) ∧
      ∀ k : ℕ, k < 128 → (tag = k ↔ (Elf.entryAt c d off).tag = k) := by
  have hfields : unpackFields [c.word, c.word] d off =
      some [(Elf.entryAt c d off).tag, (Elf.entryAt c d off).val] := by
    rw [unpackFields_eq (by cases c <;> exact h)]
    rfl
  have hword : (if decide (c = .elf64) then 8 else 4) = c.word := by cases c <;> rfl
  refine ⟨toSigned c.word (Elf.entryAt c d off).tag, ?_, fun k hk => toSigned_eq_iff ?_ ?_⟩
  · rw [unpackDyn, hword, hfields]
  · cases c <;> exact lt_trans hk (by decide)
  · rw [Nat.pow_mul]
    exact Elf.field_lt ..

/-- **The loop sees the entries at every 16 bytes,** up to the first `DT_NULL`. -/
theorem scan_eq {c : ElfClass} {d : List UInt8} {dynOff dynSz : ℕ} (h : dynOff + dynSz ≤ d.length)
    (j : ℕ) (needed : Finset ℕ) (strtabOff : Option ℕ) :
    scan (c = .elf64) d dynOff dynSz j needed strtabOff =
      some ((Elf.entriesBy c d (dynOff + j) 16 ((dynSz - j) / 16)).foldl note
        (needed, strtabOff)) := by
  have hread : ∀ j, j + 16 ≤ dynSz → ∃ tag,
      unpackDyn (c = .elf64) d (dynOff + j) =
        some (tag, (Elf.entryAt c d (dynOff + j)).val) ∧
      ∀ k : ℕ, k < 128 → (tag = k ↔ (Elf.entryAt c d (dynOff + j)).tag = k) := fun j hj =>
    exists_unpackDyn (by cases c <;> simp only [ElfClass.dynSize] <;> omega)
  have hrounds : ∀ j, j + 16 ≤ dynSz → (dynSz - j) / 16 = (dynSz - (j + 16)) / 16 + 1 := by
    intro j hj
    omega
  fun_induction scan (c = .elf64) d dynOff dynSz j needed strtabOff with
  | case1 j needed strtabOff hj hdyn =>
    obtain ⟨tag, heq, -⟩ := hread j hj
    rw [hdyn] at heq
    cases heq
  | case2 j needed strtabOff hj val hdyn =>
    obtain ⟨tag, heq, htag⟩ := hread j hj
    obtain ⟨rfl, rfl⟩ := Prod.mk.inj (Option.some.inj (hdyn.symm.trans heq))
    have hnull : (Elf.entryAt c d (dynOff + j)).tag = Elf.dtNull := (htag 0 (by omega)).1 rfl
    rw [hrounds j hj, Elf.entriesBy_succ, if_pos hnull]
    rfl
  | case3 j needed strtabOff hj tag val hdyn hne ih =>
    obtain ⟨tag', heq, htag⟩ := hread j hj
    obtain ⟨rfl, rfl⟩ := Prod.mk.inj (Option.some.inj (hdyn.symm.trans heq))
    have hnull : (Elf.entryAt c d (dynOff + j)).tag ≠ Elf.dtNull := fun h0 =>
      hne ((htag 0 (by omega)).2 h0)
    have hone : tag = 1 ↔ (Elf.entryAt c d (dynOff + j)).tag = Elf.dtNeeded := htag 1 (by omega)
    have hfive : tag = 5 ↔ (Elf.entryAt c d (dynOff + j)).tag = Elf.dtStrtab := htag 5 (by omega)
    simp only [dite_eq_ite, hone, hfive] at ih ⊢
    rw [hrounds j hj, Elf.entriesBy_succ, if_neg hnull, List.foldl_cons, ih, Nat.add_assoc, note]
  | case4 j needed strtabOff hj =>
    rw [Nat.div_eq_of_lt (by omega)]
    rfl

/-! ### What is returned -/

/-- The entries that the loop sees. -/
def seen (c : ElfClass) (d : List UInt8) (dyn : Segment) : List Entry :=
  Elf.entriesBy c d dyn.offset 16 (dyn.filesz / 16)

/-- The texts that the entries `L` ask for, looked up as the function does. -/
def Names (c : ElfClass) (d : List UInt8) (L : List Entry) (n : List Char) : Prop :=
  ∃ a, strtabOf L = some a ∧ ∃ seg, (Elf.segments c d).find? (·.Holds a) = some seg ∧
    ∃ e ∈ L, e.tag = Elf.dtNeeded ∧ textAt d (seg.fileOffset a + e.val) = n

/-- The three fields of the file header. -/
theorem unpackInt_ehdr (img : Image) :
    (if decide (img.cls = .elf64) then unpackInt 8 img.bytes 32 else unpackInt 4 img.bytes 28) =
        some (Elf.ePhoff img.cls img.bytes) ∧
      (if decide (img.cls = .elf64) then unpackInt 2 img.bytes 54 else unpackInt 2 img.bytes 42) =
        some (Elf.ePhentsize img.cls img.bytes) ∧
      (if decide (img.cls = .elf64) then unpackInt 2 img.bytes 56 else unpackInt 2 img.bytes 44) =
        some (Elf.ePhnum img.cls img.bytes) := by
  have hle := img.ehdr_le
  cases hc : img.cls with
  | elf32 =>
    rw [hc, ElfClass.ehdrSize] at hle
    rw [if_neg (by simp), if_neg (by simp), if_neg (by simp)]
    exact ⟨unpackInt_eq (by omega), unpackInt_eq (by omega), unpackInt_eq (by omega)⟩
  | elf64 =>
    rw [hc, ElfClass.ehdrSize] at hle
    rw [if_pos (by simp), if_pos (by simp), if_pos (by simp)]
    exact ⟨unpackInt_eq (by omega), unpackInt_eq (by omega), unpackInt_eq (by omega)⟩

/-- The first segment of a kind, as the function finds it. -/
theorem exists_findPhdr_image (img : Image) {p : Phdr → Bool} {q : Segment → Bool}
    (hpq : ∀ ph, p ph = q ph.segment) :
    ∃ found, findPhdr (fun i => unpackPhdr (img.cls = .elf64) img.bytes
        (Elf.ePhoff img.cls img.bytes + i * Elf.ePhentsize img.cls img.bytes)) p
        (List.range (Elf.ePhnum img.cls img.bytes)) = some found ∧
      found.map Phdr.segment = (Elf.segments img.cls img.bytes).find? q :=
  exists_findPhdr hpq fun i hi => exists_unpackPhdr (img.phdr_le i (List.mem_range.1 hi))

/-- There is one dynamic section at most. -/
theorem find?_dynamic (img : Image) {dyn : Segment} :
    (Elf.segments img.cls img.bytes).find? (·.type = Elf.ptDynamic) = some dyn ↔
      dyn ∈ Elf.segments img.cls img.bytes ∧ dyn.type = Elf.ptDynamic := by
  have hone := img.dynamic_le_one
  rw [← List.head?_filter]
  have hmem : dyn ∈ (Elf.segments img.cls img.bytes).filter (·.type = Elf.ptDynamic) ↔
      dyn ∈ Elf.segments img.cls img.bytes ∧ dyn.type = Elf.ptDynamic := by
    rw [List.mem_filter, decide_eq_true_iff]
  rw [← hmem]
  generalize (Elf.segments img.cls img.bytes).filter (·.type = Elf.ptDynamic) = l at hone
  match l, hone with
  | [], _ => simp
  | [s], _ => simp [eq_comm]

/-- The dynamic section is the one that the function finds. -/
theorem exists_dynamic_iff (img : Image) {P : Segment → Prop} :
    (∃ dyn ∈ Elf.segments img.cls img.bytes, dyn.type = Elf.ptDynamic ∧ P dyn) ↔
      ∃ dyn, (Elf.segments img.cls img.bytes).find? (·.type = Elf.ptDynamic) = some dyn ∧
        P dyn :=
  exists_congr fun _ => by rw [find?_dynamic, and_assoc]

/-- The texts that are asked for, through what the loop collects. -/
theorem names_iff_note {c : ElfClass} {d : List UInt8} {L : List Entry} {n : List Char} :
    Names c d L n ↔ ∃ a, (L.foldl note (∅, none)).2 = some a ∧
      ∃ seg, (Elf.segments c d).find? (·.Holds a) = some seg ∧
        n ∈ (L.foldl note (∅, none)).1.image fun nv => textAt d (seg.fileOffset a + nv) := by
  rw [snd_note, Option.or_none, Names]
  refine exists_congr fun a => and_congr_right fun _ => exists_congr fun seg =>
    and_congr_right fun _ => ?_
  simp only [Finset.mem_image, mem_note, Finset.notMem_empty, false_or]
  constructor
  · rintro ⟨e, he, htag, rfl⟩
    exact ⟨e.val, ⟨e, he, htag, rfl⟩, rfl⟩
  · rintro ⟨-, ⟨e, he, htag, rfl⟩, rfl⟩
    exact ⟨e, he, htag, rfl⟩

/-- **What `elf_needed2` returns** for a well-formed image: it never fails, and gives
the texts that the entries it sees ask for. -/
theorem elfNeeded2_eq (img : Image) :
    ∃ names, elfNeeded2 img.bytes = some names ∧ ∀ n, n ∈ names ↔
      ∃ dyn ∈ Elf.segments img.cls img.bytes, dyn.type = Elf.ptDynamic ∧
        Names img.cls img.bytes (seen img.cls img.bytes dyn) n := by
  obtain ⟨rest, hrest⟩ := img.ident
  have hmagic : ¬ img.bytes.take 4 ≠ magic := by
    rw [← hrest, not_not]
    rfl
  have hclass : img.bytes[4]? = some img.cls.byte := by
    rw [← hrest]
    rfl
  have his64 : decide (img.cls.byte = 2) = decide (img.cls = .elf64) := by
    cases img.cls <;> rfl
  obtain ⟨hphoff, hphentsize, hphnum⟩ := unpackInt_ehdr img
  obtain ⟨found, hfound, hdyn⟩ := exists_findPhdr_image img
    (p := fun ph => ph.pType = 2) (q := fun s => s.type = Elf.ptDynamic) fun _ => rfl
  rw [elfNeeded2, if_neg hmagic, hclass]
  simp only [Option.bind_eq_bind, Option.bind_some, his64, hphoff, hphentsize, hphnum, hfound,
    exists_dynamic_iff img, ← hdyn, names_iff_note]
  cases found with
  | none => exact ⟨∅, rfl, fun n => by simp⟩
  | some ph =>
    obtain ⟨hmem, htype⟩ := (find?_dynamic img).1 hdyn.symm
    have hscan : scan (img.cls = .elf64) img.bytes ph.pOffset ph.pFilesz 0 ∅ none =
        some ((seen img.cls img.bytes ph.segment).foldl note (∅, none)) :=
      scan_eq (img.dynamic _ hmem htype).le_length 0 ∅ none
    simp only [hscan, Option.bind_some, Option.map_some, Option.some.injEq, exists_eq_left']
    generalize (seen img.cls img.bytes ph.segment).foldl note (∅, none) = acc
    obtain ⟨needed, strtabOff⟩ := acc
    cases strtabOff with
    | none => exact ⟨∅, rfl, fun n => by simp⟩
    | some a =>
      obtain ⟨load, hload, hseg⟩ := exists_findPhdr_image img
        (p := fun ph => ph.pType = 1 ∧ ph.pVaddr ≤ a ∧ a < ph.pVaddr + ph.pFilesz)
        (q := (·.Holds a)) fun _ => rfl
      simp only [hload, Option.bind_some, Option.some.injEq, exists_eq_left', ← hseg]
      cases load with
      | none => exact ⟨∅, rfl, fun n => by simp⟩
      | some load => exact ⟨_, rfl, fun n => by simp [Segment.fileOffset, Phdr.segment]⟩

/-! ### What is needed -/

/-- A text is cut at its NUL and decoded. -/
theorem textAt_eq {d : List UInt8} {off : ℕ} {s : String} (h : Elf.HasText d off s) :
    textAt d off = s.toList := by
  obtain ⟨hnul, rest, hrest⟩ := h
  have hslice : slice d off (encode s).length = encode s := by rw [slice, hrest, List.take_left]
  rw [textAt, find_eq hrest (zero_notMem_encode hnul)]
  rw [sliceOf_eq, hslice, decodeReplace_encode]

/-- One address is found wherever it is given. -/
theorem strtabOf_eq_some {L : List Entry} {a b : ℕ}
    (hall : ∀ e ∈ L, e.tag = Elf.dtStrtab → e.val = a) :
    strtabOf L = some b ↔ b = a ∧ ∃ e ∈ L, e.tag = Elf.dtStrtab := by
  have hmem : ∀ e, e ∈ L.filter (·.tag = Elf.dtStrtab) ↔ e ∈ L ∧ e.tag = Elf.dtStrtab := by
    simp
  rw [strtabOf, Option.map_eq_some_iff]
  constructor
  · rintro ⟨e, he, rfl⟩
    obtain ⟨he, htag⟩ := (hmem e).1 (List.mem_of_getLast? he)
    exact ⟨hall e he htag, e, he, htag⟩
  · rintro ⟨rfl, e, he, htag⟩
    obtain ⟨last, hlast⟩ := Option.isSome_iff_exists.1
      (List.getLast?_isSome.2 (List.ne_nil_of_mem ((hmem e).2 ⟨he, htag⟩)))
    obtain ⟨hl, hltag⟩ := (hmem last).1 (List.mem_of_getLast? hlast)
    exact ⟨last, hlast, hall last hl hltag⟩

/-- What is needed has a name. -/
theorem exists_inStrtab {c : ElfClass} {d : List UInt8} {dyn : Segment} (h : Elf.Dynamic c d dyn)
    {e : Entry} (he : e ∈ Elf.entries c d dyn) (htag : e.tag = Elf.dtNeeded) :
    ∃ s, Elf.InStrtab c d dyn e.val s := by
  obtain ⟨a, ⟨strtab, hstrtab, hstag⟩, hall, seg, hfilter, htexts⟩ := h.strtab
  obtain ⟨text, htext⟩ := htexts e he htag
  obtain ⟨hmem, hholds⟩ := List.mem_filter.1 (hfilter ▸ List.mem_singleton_self seg)
  obtain rfl := hall strtab hstrtab hstag
  exact ⟨text, strtab, hstrtab, hstag, seg, hmem, of_decide_eq_true hholds, htext⟩

/-- Some of the entries of the dynamic section ask for those texts of the string table
that they name, provided that the address of the string table is among them. -/
theorem names_iff {c : ElfClass} {d : List UInt8} {dyn : Segment} (h : Elf.Dynamic c d dyn)
    {L : List Entry} (hL : L ⊆ Elf.entries c d dyn) {s : String} :
    Names c d L s.toList ↔ (∃ e ∈ L, e.tag = Elf.dtStrtab) ∧
      ∃ e ∈ L, e.tag = Elf.dtNeeded ∧ Elf.InStrtab c d dyn e.val s := by
  obtain ⟨a, ⟨strtab, hstrtab, htag⟩, hall, seg, hfilter, htexts⟩ := h.strtab
  have hseg : ∀ seg', seg' ∈ Elf.segments c d ∧ seg'.Holds a ↔ seg' = seg := fun seg' => by
    rw [← List.mem_singleton, ← hfilter, List.mem_filter, decide_eq_true_iff]
  have hfind : (Elf.segments c d).find? (·.Holds a) = some seg := by
    rw [← List.head?_filter, hfilter, List.head?_cons]
  have hin : ∀ val, Elf.InStrtab c d dyn val s ↔ Elf.HasText d (seg.fileOffset a + val) s := by
    refine fun val => ⟨?_, fun htext => ?_⟩
    · rintro ⟨e, he, hetag, seg', hseg', hholds, htext⟩
      obtain rfl := hall e he hetag
      obtain rfl := (hseg seg').1 ⟨hseg', hholds⟩
      exact htext
    · obtain rfl := hall strtab hstrtab htag
      obtain ⟨hmem, hholds⟩ := (hseg seg).2 rfl
      exact ⟨strtab, hstrtab, htag, seg, hmem, hholds, htext⟩
  have htext : ∀ e ∈ L, e.tag = Elf.dtNeeded →
      (textAt d (seg.fileOffset a + e.val) = s.toList ↔ Elf.InStrtab c d dyn e.val s) := by
    intro e he hetag
    obtain ⟨text, htext⟩ := htexts e (hL he) hetag
    rw [hin]
    refine ⟨fun heq => ?_, textAt_eq⟩
    rw [textAt_eq htext, String.toList_inj] at heq
    exact heq ▸ htext
  unfold Names
  simp only [strtabOf_eq_some fun e he => hall e (hL he)]
  constructor
  · rintro ⟨b, ⟨rfl, hsome⟩, seg', hfind', e, he, hetag, heq⟩
    obtain rfl := Option.some.inj (hfind.symm.trans hfind')
    exact ⟨hsome, e, he, hetag, (htext e he hetag).1 heq⟩
  · rintro ⟨hsome, e, he, hetag, hname⟩
    exact ⟨a, ⟨rfl, hsome⟩, seg, hfind, e, he, hetag, (htext e he hetag).2 hname⟩

/-- The entries of the dynamic section ask for what the file needs. -/
theorem names_entries_iff {c : ElfClass} {d : List UInt8} {dyn : Segment} (h : Elf.Dynamic c d dyn)
    {s : String} :
    Names c d (Elf.entries c d dyn) s.toList ↔
      ∃ e ∈ Elf.entries c d dyn, e.tag = Elf.dtNeeded ∧ Elf.InStrtab c d dyn e.val s := by
  obtain ⟨a, hsome, -⟩ := h.strtab
  rw [names_iff h (List.Subset.refl _)]
  exact and_iff_right hsome

/-- The function returns exactly the names that the file needs. -/
def Correct (img : Image) : Prop :=
  ∃ names, elfNeeded2 img.bytes = some names ∧
    ∀ s : String, s.toList ∈ names ↔ Elf.Needed img.cls img.bytes s

/-- It is correct exactly when the entries it sees ask for as much as all entries do. -/
theorem correct_iff_seen (img : Image) :
    Correct img ↔ ∀ dyn ∈ Elf.segments img.cls img.bytes, dyn.type = Elf.ptDynamic →
      ∀ s : String, Names img.cls img.bytes (seen img.cls img.bytes dyn) s.toList ↔
        Names img.cls img.bytes (Elf.entries img.cls img.bytes dyn) s.toList := by
  obtain ⟨names, hnames, hmem⟩ := elfNeeded2_eq img
  have hcorrect : Correct img ↔ ∀ s : String,
      s.toList ∈ names ↔ Elf.Needed img.cls img.bytes s := by
    refine ⟨?_, fun h => ⟨names, hnames, h⟩⟩
    rintro ⟨names', hnames', h⟩
    obtain rfl := Option.some.inj (hnames.symm.trans hnames')
    exact h
  have hone : ∀ {dyn}, dyn ∈ Elf.segments img.cls img.bytes → dyn.type = Elf.ptDynamic →
      ∀ dyn' ∈ Elf.segments img.cls img.bytes, dyn'.type = Elf.ptDynamic → dyn' = dyn := by
    intro dyn hdyn htype dyn' hdyn' htype'
    exact Option.some.inj (((find?_dynamic img).2 ⟨hdyn', htype'⟩).symm.trans
      ((find?_dynamic img).2 ⟨hdyn, htype⟩))
  rw [hcorrect]
  constructor
  · intro h dyn hdyn htype s
    rw [names_entries_iff (img.dynamic dyn hdyn htype)]
    refine Iff.trans ⟨fun hn => ?_, fun hn => ?_⟩ ((h s).trans ⟨fun hn => ?_, fun hn => ?_⟩)
    · exact (hmem _).2 ⟨dyn, hdyn, htype, hn⟩
    · obtain ⟨dyn', hdyn', htype', hn⟩ := (hmem _).1 hn
      exact hone hdyn htype dyn' hdyn' htype' ▸ hn
    · obtain ⟨dyn', hdyn', htype', hn⟩ := hn
      exact hone hdyn htype dyn' hdyn' htype' ▸ hn
    · exact ⟨dyn, hdyn, htype, hn⟩
  · intro h s
    rw [hmem, Elf.Needed]
    refine exists_congr fun dyn => and_congr_right fun hdyn => and_congr_right fun htype => ?_
    rw [h dyn hdyn htype, names_entries_iff (img.dynamic dyn hdyn htype)]

/-- **For ELF64 the function is correct.** -/
theorem correct_of_elf64 {img : Image} (h : img.cls = .elf64) : Correct img := by
  refine (correct_iff_seen img).2 fun dyn _ _ s => ?_
  rw [seen, Elf.entries, h]
  rfl

/-! ### ELF32 -/

/-- The elements at the even positions. -/
def everySecond {α : Type*} : List α → List α
  | [] => []
  | [x] => [x]
  | x :: _ :: xs => x :: everySecond xs

theorem everySecond_subset {α : Type*} (xs : List α) : everySecond xs ⊆ xs := by
  fun_induction everySecond xs with
  | case1 => exact List.Subset.refl _
  | case2 x => exact List.Subset.refl _
  | case3 x y xs ih =>
    exact List.cons_subset_cons x (List.subset_cons_of_subset y ih)

/-- An entry that says nothing about what is needed. -/
def Idle (e : Entry) : Prop := e.tag ≠ Elf.dtNeeded ∧ e.tag ≠ Elf.dtStrtab

/-- Behind `DT_NULL` the entries at even positions, among the `n` entries of 8 bytes at `off`,
say nothing. -/
def IdleTail (c : ElfClass) (d : List UInt8) (off n : ℕ) : Prop :=
  ∀ j k, j < k → k < n → k % 2 = 0 → (Elf.entryAt c d (off + 8 * j)).tag = Elf.dtNull →
    Idle (Elf.entryAt c d (off + 8 * k))

/-- The entries at every 16 bytes are every second one of those at every 8, and behind
`DT_NULL` some that say nothing. -/
theorem entriesBy_sixteen {c : ElfClass} {d : List UInt8} {off n : ℕ} (htail : IdleTail c d off n)
    (hnull : ∃ k < n, (Elf.entryAt c d (off + 8 * k)).tag = Elf.dtNull) :
    ∃ behind, Elf.entriesBy c d off 16 (n / 2) = everySecond (Elf.entriesBy c d off 8 n) ++ behind ∧
      ∀ e ∈ behind, Idle e := by
  induction n using Nat.strong_induction_on generalizing off with
  | _ n ih =>
    obtain ⟨k, hk, hknull⟩ := hnull
    by_cases h0 : (Elf.entryAt c d off).tag = Elf.dtNull
    · rw [Elf.entriesBy_eq_nil h0, Elf.entriesBy_eq_nil h0]
      exact ⟨[], rfl, fun e he => absurd he List.not_mem_nil⟩
    · have hk0 : k ≠ 0 := by
        rintro rfl
        exact h0 hknull
      have hshift : ∀ i, off + 16 + 8 * i = off + 8 * (i + 2) := fun i => by omega
      obtain ⟨m, rfl⟩ : ∃ m, n = m + 2 := ⟨n - 2, by omega⟩
      rw [show (m + 2) / 2 = m / 2 + 1 by omega, Elf.entriesBy_succ, if_neg h0,
        Elf.entriesBy_succ, if_neg h0, Elf.entriesBy_succ]
      by_cases h1 : (Elf.entryAt c d (off + 8)).tag = Elf.dtNull
      · -- the loop steps over `DT_NULL`, and goes on behind it
        rw [if_pos h1]
        refine ⟨_, rfl, fun e he => ?_⟩
        obtain ⟨i, hi, rfl⟩ := Elf.exists_of_mem_entriesBy he
        rw [show off + 16 + 16 * i = off + 8 * (2 * i + 2) by omega]
        exact htail 1 _ (by omega) (by omega) (by omega) h1
      · have hk1 : k ≠ 1 := by
          rintro rfl
          exact h1 hknull
        have htail' : IdleTail c d (off + 16) m := by
          intro i j hij hj heven h
          rw [hshift] at h ⊢
          exact htail _ _ (by omega) (by omega) (by omega) h
        have hknull' : (Elf.entryAt c d (off + 16 + 8 * (k - 2))).tag = Elf.dtNull := by
          rw [hshift, Nat.sub_add_cancel (by omega)]
          exact hknull
        obtain ⟨behind, heq, hidle⟩ := ih m (by omega) htail' ⟨k - 2, by omega, hknull'⟩
        rw [if_neg h1, everySecond, heq]
        exact ⟨behind, rfl, hidle⟩

/-- Entries that say nothing ask for nothing. -/
theorem names_append_idle {c : ElfClass} {d : List UInt8} {L behind : List Entry}
    (h : ∀ e ∈ behind, Idle e) {n : List Char} : Names c d (L ++ behind) n ↔ Names c d L n := by
  have hnone : behind.filter (·.tag = Elf.dtStrtab) = [] :=
    List.filter_eq_nil_iff.2 fun e he => by simpa using (h e he).2
  have hmem : ∀ e, e.tag = Elf.dtNeeded → (e ∈ L ++ behind ↔ e ∈ L) := fun e htag =>
    ⟨fun he => (List.mem_append.1 he).resolve_right fun hb => (h e hb).1 htag,
      fun he => List.mem_append_left _ he⟩
  have hex : ∀ P : Entry → Prop, (∃ e ∈ L ++ behind, e.tag = Elf.dtNeeded ∧ P e) ↔
      ∃ e ∈ L, e.tag = Elf.dtNeeded ∧ P e := fun P =>
    ⟨fun ⟨e, he, htag, hP⟩ => ⟨e, (hmem e htag).1 he, htag, hP⟩,
      fun ⟨e, he, htag, hP⟩ => ⟨e, (hmem e htag).2 he, htag, hP⟩⟩
  simp only [Names, strtabOf, List.filter_append, hnone, List.append_nil, hex]

/-- Every second entry names the string table and, again, all that is needed, unless
nothing is needed at all. -/
def EverySecondSuffices (c : ElfClass) (d : List UInt8) (dyn : Segment) : Prop :=
  (∀ e ∈ Elf.entries c d dyn, e.tag ≠ Elf.dtNeeded) ∨
    (∃ e ∈ everySecond (Elf.entries c d dyn), e.tag = Elf.dtStrtab) ∧
    ∀ e ∈ Elf.entries c d dyn, e.tag = Elf.dtNeeded → ∀ s, Elf.InStrtab c d dyn e.val s →
      ∃ e' ∈ everySecond (Elf.entries c d dyn),
        e'.tag = Elf.dtNeeded ∧ Elf.InStrtab c d dyn e'.val s

/-- Whether every second entry asks for as much as all of them. -/
theorem names_everySecond_iff {c : ElfClass} {d : List UInt8} {dyn : Segment}
    (h : Elf.Dynamic c d dyn) :
    (∀ s : String, Names c d (everySecond (Elf.entries c d dyn)) s.toList ↔
        Names c d (Elf.entries c d dyn) s.toList) ↔ EverySecondSuffices c d dyn := by
  have hsub : everySecond (Elf.entries c d dyn) ⊆ Elf.entries c d dyn := everySecond_subset _
  simp only [names_iff h hsub, names_entries_iff h]
  constructor
  · intro heq
    by_cases hnone : ∀ e ∈ Elf.entries c d dyn, e.tag ≠ Elf.dtNeeded
    · exact .inl hnone
    · push Not at hnone
      obtain ⟨e, he, htag⟩ := hnone
      obtain ⟨s, hs⟩ := exists_inStrtab h he htag
      refine .inr ⟨((heq s).2 ⟨e, he, htag, hs⟩).1, fun e he htag s hs => ?_⟩
      exact ((heq s).2 ⟨e, he, htag, hs⟩).2
  · rintro (hnone | ⟨hstrtab, hall⟩) s
    · refine iff_of_false ?_ ?_
      · rintro ⟨-, e, he, htag, -⟩
        exact hnone e (hsub he) htag
      · rintro ⟨e, he, htag, -⟩
        exact hnone e he htag
    · constructor
      · rintro ⟨-, e, he, htag, hs⟩
        exact ⟨e, hsub he, htag, hs⟩
      · rintro ⟨e, he, htag, hs⟩
        exact ⟨hstrtab, hall e he htag s hs⟩

/-- **When `elf_needed2` returns exactly what a file needs.**  For ELF64, always.  For
ELF32, when the entries that it sees ask for as much as all entries do.  Unless it comes
behind `DT_NULL` to what looks like a needed name or a string table, these are the entries
at the even positions, and it is right exactly when nothing is needed, or both the string
table and every needed name are given at an even position. -/
theorem correct_iff (img : Image) :
    (Correct img ↔ img.cls = .elf64 ∨
      ∀ dyn ∈ Elf.segments img.cls img.bytes, dyn.type = Elf.ptDynamic →
        ∀ s : String, Names img.cls img.bytes (seen img.cls img.bytes dyn) s.toList ↔
          Names img.cls img.bytes (Elf.entries img.cls img.bytes dyn) s.toList) ∧
    ((∀ dyn ∈ Elf.segments img.cls img.bytes, dyn.type = Elf.ptDynamic →
        IdleTail img.cls img.bytes dyn.offset (dyn.filesz / 8)) →
      (Correct img ↔ img.cls = .elf64 ∨
        ∀ dyn ∈ Elf.segments img.cls img.bytes, dyn.type = Elf.ptDynamic →
          EverySecondSuffices img.cls img.bytes dyn)) := by
  have hfirst : Correct img ↔ img.cls = .elf64 ∨
      ∀ dyn ∈ Elf.segments img.cls img.bytes, dyn.type = Elf.ptDynamic →
        ∀ s : String, Names img.cls img.bytes (seen img.cls img.bytes dyn) s.toList ↔
          Names img.cls img.bytes (Elf.entries img.cls img.bytes dyn) s.toList := by
    rw [← correct_iff_seen]
    exact ⟨.inr, fun h => h.elim correct_of_elf64 id⟩
  refine ⟨hfirst, fun htail => ?_⟩
  cases hc : img.cls with
  | elf64 => exact iff_of_true (correct_of_elf64 hc) (.inl rfl)
  | elf32 =>
    rw [correct_iff_seen, or_iff_right (by simp), hc]
    rw [hc] at htail
    refine forall₃_congr fun dyn hdyn htype => ?_
    have hdynamic : Elf.Dynamic .elf32 img.bytes dyn := hc ▸ img.dynamic dyn (hc ▸ hdyn) htype
    obtain ⟨behind, hseen, hidle⟩ : ∃ behind, seen .elf32 img.bytes dyn =
        everySecond (Elf.entries .elf32 img.bytes dyn) ++ behind ∧ ∀ e ∈ behind, Idle e := by
      have hnull := hdynamic.terminated
      rw [seen, show dyn.filesz / 16 = dyn.filesz / 8 / 2 by omega]
      exact entriesBy_sixteen (htail dyn hdyn htype) hnull
    simp only [hseen, names_append_idle hidle]
    exact names_everySecond_iff hdynamic

/-! ### A 32-bit library -/

/-- The dynamic section of a small library: two names, the string table, `DT_NULL`. -/
def sampleEntries : List ℕ := [1, 1, 1, 9, 5, 148, 0, 0]

/-- A 32-bit shared object: the header, two program headers, the dynamic section and the
string table. -/
def sampleBytes : List UInt8 :=
  [0x7f, 0x45, 0x4c, 0x46, 1, 1, 1] ++ zeros 9 ++
  [3, 40].flatMap (leBytes 2) ++ [1, 0, 52, 0, 0].flatMap (leBytes 4) ++
  [52, 32, 2, 40, 0, 0].flatMap (leBytes 2) ++
  [1, 0, 0, 0, 165, 165, 5, 4096].flatMap (leBytes 4) ++
  [2, 116, 116, 116, 32, 32, 6, 4].flatMap (leBytes 4) ++
  sampleEntries.flatMap (leBytes 4) ++ 0 :: ascii "libc.so" ++ 0 :: ascii "libm.so" ++ [0]

def sampleLoad : Segment := { type := 1, offset := 0, vaddr := 0, filesz := 165 }
def sampleDyn : Segment := { type := 2, offset := 116, vaddr := 116, filesz := 32 }

theorem segments_sample : Elf.segments .elf32 sampleBytes = [sampleLoad, sampleDyn] := by
  decide +kernel

theorem entries_sample : Elf.entries .elf32 sampleBytes sampleDyn =
    [{ tag := 1, val := 1 }, { tag := 1, val := 9 }, { tag := 5, val := 148 }] := by
  decide +kernel

theorem hasText_libc : Elf.HasText sampleBytes 149 "libc.so" :=
  ⟨by decide, ascii "libm.so" ++ [0], by decide +kernel⟩

theorem hasText_libm : Elf.HasText sampleBytes 157 "libm.so" :=
  ⟨by decide, [], by decide +kernel⟩

/-- The dynamic section is as it should be. -/
theorem dynamic_sample : Elf.Dynamic .elf32 sampleBytes sampleDyn where
  le_length := by decide +kernel
  terminated := ⟨3, by decide, by decide +kernel⟩
  strtab := by
    rw [entries_sample, segments_sample]
    refine ⟨148, by decide, by decide, sampleLoad, by decide, ?_⟩
    intro e he htag
    simp only [List.mem_cons, List.not_mem_nil, or_false] at he
    rcases he with rfl | rfl | rfl
    · exact ⟨_, hasText_libc⟩
    · exact ⟨_, hasText_libm⟩
    · cases htag

def sampleImage : Image where
  cls := .elf32
  bytes := sampleBytes
  ident := by decide +kernel
  ehdr_le := by decide +kernel
  phdr_le := by decide +kernel
  dynamic_le_one := by
    rw [segments_sample]
    decide
  dynamic s hs htype := by
    rw [segments_sample] at hs
    simp only [List.mem_cons, List.not_mem_nil, or_false] at hs
    rcases hs with rfl | rfl
    · cases htype
    · exact dynamic_sample

/-- Of the four entries the loop sees the first and the third. -/
theorem seen_sample : seen .elf32 sampleBytes sampleDyn =
    [{ tag := 1, val := 1 }, { tag := 5, val := 148 }] := by
  decide +kernel

/-- **A needed library is missed.**  The library needs `libc.so` and `libm.so`, and only
the first is returned. -/
theorem elfNeeded2_sample :
    elfNeeded2 sampleImage.bytes = some {"libc.so".toList} ∧
      Elf.Needed sampleImage.cls sampleImage.bytes "libm.so" ∧ ¬ Correct sampleImage := by
  have hneeded : Elf.Needed sampleImage.cls sampleImage.bytes "libm.so" := by
    refine ⟨sampleDyn, ?_, rfl, { tag := 1, val := 9 }, ?_, rfl, { tag := 5, val := 148 }, ?_, rfl,
      sampleLoad, ?_, by decide, hasText_libm⟩
    · exact segments_sample ▸ List.mem_cons_of_mem _ List.mem_cons_self
    · exact entries_sample ▸ List.mem_cons_of_mem _ List.mem_cons_self
    · exact entries_sample ▸ List.mem_cons_of_mem _ (List.mem_cons_of_mem _ List.mem_cons_self)
    · exact segments_sample ▸ List.mem_cons_self
  have hreturn : elfNeeded2 sampleImage.bytes = some {"libc.so".toList} := by
    obtain ⟨names, hnames, hmem⟩ := elfNeeded2_eq sampleImage
    rw [hnames, Option.some.injEq]
    refine Finset.ext fun n => ?_
    rw [hmem, Finset.mem_singleton, ← textAt_eq hasText_libc]
    have hload : (Elf.segments .elf32 sampleBytes).find? (·.Holds 148) = some sampleLoad := by
      rw [segments_sample]
      decide
    constructor
    · rintro ⟨dyn, hdyn, htype, a, ha, seg, hseg, e, he, htag, rfl⟩
      obtain rfl : dyn = sampleDyn :=
        (List.mem_cons.1 (segments_sample ▸ hdyn)).elim (fun h => by subst h; cases htype)
          List.mem_singleton.1
      have hseen : seen sampleImage.cls sampleImage.bytes sampleDyn = _ := seen_sample
      rw [hseen] at ha he
      obtain rfl := Option.some.inj ha
      obtain rfl := Option.some.inj (hload.symm.trans hseg)
      rcases List.mem_cons.1 he with rfl | he
      · rfl
      · obtain rfl := List.mem_singleton.1 he
        cases htag
    · rintro rfl
      refine ⟨sampleDyn, segments_sample ▸ List.mem_cons_of_mem _ List.mem_cons_self, rfl, 148, ?_,
        sampleLoad, hload, { tag := 1, val := 1 }, ?_, rfl, rfl⟩
      · exact congrArg strtabOf seen_sample
      · exact seen_sample ▸ List.mem_cons_self
  refine ⟨hreturn, hneeded, ?_⟩
  rintro ⟨names, hnames, hmem⟩
  obtain rfl := Option.some.inj (hreturn.symm.trans hnames)
  exact absurd ((hmem "libm.so").2 hneeded) (by decide)

end ElfNeeded
end Twrp

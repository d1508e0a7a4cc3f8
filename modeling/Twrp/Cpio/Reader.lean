/-
# Reading an archive back

A reader that knows the layout of each entry.  It is the meaning of "this archive
decodes to these entries": `readAll_bytes` says that it undoes `Entry.bytes`.
-/

import Twrp.Cpio.Newc

namespace Twrp
namespace Cpio

open Bytes

/-- What an entry says: its thirteen numbers, its name and its data. -/
structure Record where
  fields : List ℕ
  name : List UInt8
  data : List UInt8
  deriving DecidableEq, Repr

/-- The contents of an entry. -/
def Entry.record (e : Entry) : Record := ⟨e.fields.map HexField.value, e.name, e.data⟩

/-- Read one entry of the layout `l`, and return what follows it. -/
def readEntry (l : Layout) (s : List UInt8) : Option (Record × List UInt8) :=
  let filesize := hexValue (slice s 54 8)
  let namesize := hexValue (slice s 94 8)
  let start := 110 + namesize + l.gap namesize
  let stop := start + filesize + l.tailPad namesize filesize
  if magic <+: s ∧ ((slice s 6 104).all fun c => (hexDigit? c).isSome) ∧ 0 < namesize ∧
      slice s (109 + namesize) 1 = [0] ∧ stop ≤ s.length then
    some (⟨(List.range 13).map fun i => hexValue (slice s (6 + 8 * i) 8),
      slice s 110 (namesize - 1), slice s start filesize⟩, s.drop stop)
  else none

/-- Read one entry of each layout of the list, in order. -/
def readAll : List Layout → List UInt8 → Option (List Record × List UInt8)
  | [], s => some ([], s)
  | l :: ls, s => do
    let (r, s) ← readEntry l s
    let (rs, s) ← readAll ls s
    some (r :: rs, s)

/-- Entries one after the other, each in its layout. -/
def archiveBytes (xs : List (Layout × Entry)) : List UInt8 := xs.flatMap fun x => x.2.bytes x.1

/-- The fields of a header, one behind the other. -/
theorem slice_fields (e : Entry) (x : List UInt8) :
    slice (e.header ++ x) 6 104 = e.fields.flatMap HexField.bytes := by
  rw [Entry.header, List.append_assoc]
  exact slice_append_middle rfl (Entry.length_fields_flatMap e.fields).symm

/-- The numbers of a header. -/
theorem map_slice_fields (e : Entry) (x : List UInt8) :
    ((List.range 13).map fun i => hexValue (slice (e.header ++ x) (6 + 8 * i) 8)) =
      e.fields.map HexField.value := by
  refine List.ext_getElem (by rfl) fun i h1 h2 => ?_
  have hi : i < 13 := by simpa using h1
  rw [List.getElem_map, List.getElem_range, e.slice_header i hi, List.getElem_map]
  rfl

@[simp] theorem archiveBytes_cons (x : Layout × Entry) (xs : List (Layout × Entry)) :
    archiveBytes (x :: xs) = x.2.bytes x.1 ++ archiveBytes xs := rfl

@[simp] theorem archiveBytes_append (xs ys : List (Layout × Entry)) :
    archiveBytes (xs ++ ys) = archiveBytes xs ++ archiveBytes ys := List.flatMap_append

@[simp] theorem archiveBytes_nil : archiveBytes [] = [] := rfl

/-- **One entry** reads back. -/
theorem readEntry_bytes (l : Layout) (e : Entry) (r : List UInt8) :
    readEntry l (e.bytes l ++ r) = some (e.record, r) := by
  have hlen := e.length_bytes l
  have hsplit := e.bytes_append l r
  have hns : hexValue (slice (e.bytes l ++ r) 94 8) = e.name.length + 1 :=
    (congrArg hexValue (e.slice_field l r 11 (by omega))).trans e.namesize_eq
  have hfs : hexValue (slice (e.bytes l ++ r) 54 8) = e.data.length :=
    (congrArg hexValue (e.slice_field l r 6 (by omega))).trans e.filesize_eq
  have hstart : (e.header ++ (e.name ++ ([0] ++ zeros (e.gap l)))).length =
      110 + (e.name.length + 1) + e.gap l := by
    simp only [List.length_append, e.length_header, length_zeros, List.length_singleton]
    omega
  have hnul : slice (e.bytes l ++ r) (109 + (e.name.length + 1)) 1 = [0] := by
    rw [hsplit, ← List.append_assoc]
    refine slice_append_middle ?_ rfl
    rw [List.length_append, e.length_header]
    omega
  have hdata :
      slice (e.bytes l ++ r) (110 + (e.name.length + 1) + e.gap l) e.data.length = e.data := by
    have hfront : e.bytes l ++ r = (e.header ++ (e.name ++ ([0] ++ zeros (e.gap l)))) ++
        (e.data ++ (zeros (e.tailPad l) ++ r)) := by
      simp only [hsplit, List.append_assoc]
    rw [hfront]
    exact slice_append_middle hstart.symm rfl
  have hhex : (slice (e.bytes l ++ r) 6 104).all fun c => (hexDigit? c).isSome := by
    rw [hsplit, slice_fields, List.all_eq_true]
    intro c hc
    obtain ⟨f, -, hf⟩ := List.mem_flatMap.1 hc
    exact f.hex c hf
  have hstop : 110 + (e.name.length + 1) + e.gap l + e.data.length + e.tailPad l =
      (e.bytes l).length := by
    rw [hlen, Entry.total]
    omega
  have hgap : l.gap (e.name.length + 1) = e.gap l := rfl
  have htail : l.tailPad (e.name.length + 1) e.data.length = e.tailPad l := rfl
  unfold readEntry
  dsimp only
  rw [hns, hfs, hgap, htail, hstop, if_pos ⟨e.magic_prefix_bytes l r, hhex, Nat.succ_pos _,
    hnul, by simp⟩, Nat.add_sub_cancel, e.slice_name, hdata, List.drop_left, hsplit,
    map_slice_fields]
  rfl

/-- **An archive** reads back. -/
theorem readAll_bytes (xs : List (Layout × Entry)) (r : List UInt8) :
    readAll (xs.map Prod.fst) (archiveBytes xs ++ r) = some (xs.map fun x => x.2.record, r) := by
  induction xs with
  | nil => rfl
  | cons x xs ih =>
    rw [archiveBytes_cons, List.append_assoc, List.map_cons, readAll, readEntry_bytes]
    exact congrArg (Option.bind · _) ih

end Cpio
end Twrp

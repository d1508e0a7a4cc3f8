/-
# What a list of items asks for

The packers of this repository are given items: a name, data, a mode and device
numbers.  This module says what an item describes (`itemCalls`, `itemFiles`,
`itemLinks`) without looking at an archive, and compares that with what
`unpack_cpio` does at the stop for the item's entry (`StopOf`).

In the compact layout the two agree.  In the standard layout they agree but for
the contents: `unpack_cpio` takes the data from right behind the name, where the
standard layout has up to three bytes of padding.
-/

import Twrp.Bootstrap.Archive
import Twrp.Bootstrap.Files
import Twrp.Cpio.Pack

namespace Twrp
namespace Bootstrap

open Bytes Interaction Cpio

/-! ### What an item describes -/

/-- The branch for an item. -/
def itemKind (i : Item) : Kind := kind (UInt32.ofNat i.mode)

/-- The name of an item below the root. -/
def itemName (i : Item) : Buf := dropDotSlash (ascii i.name)

/-- The path an item is unpacked to. -/
def itemPath (root : Buf) (i : Item) : Buf := snprintf 2048 root (itemName i)

/-- The creating calls for an item: the directories above it, and its own. -/
def itemCalls (root : Buf) (i : Item) : List Call :=
  (parents root (itemName i)).map (Call.mkdir · 0o755) ++
  match itemKind i with
  | .dir => [.mkdir (itemPath root i) (UInt32.ofNat i.mode &&& 0o7777)]
  | .link => [.symlink i.data.encoded (itemPath root i)]
  | .dev => [.mknod (itemPath root i) (UInt32.ofNat i.mode)
      (makedev (UInt32.ofNat i.rdevMajor) (UInt32.ofNat i.rdevMinor))]
  | .reg => [.openFile (itemPath root i) createFlags (UInt32.ofNat i.mode &&& 0o7777)]
  | .other => []

/-- The regular file an item packs, with its path. -/
def itemFiles (root : Buf) (i : Item) : List (Buf × Buf) :=
  if itemKind i = .reg then [(itemPath root i, i.data.encoded)] else []

/-- The symlink an item packs: its target and its path. -/
def itemLinks (root : Buf) (i : Item) : List (Buf × Buf) :=
  if itemKind i = .link then [(i.data.encoded, itemPath root i)] else []

/-- The symlinks among creating calls. -/
def symlinks (cs : List Call) : List (Buf × Buf) :=
  cs.filterMap fun
    | .symlink target path => some (target, path)
    | _ => none

/-- A creating call without the target of a symlink: kind, path, mode and device. -/
def Call.shape : Call → Call
  | .symlink _ path => .symlink [] path
  | c => c

/-- An item that `unpack_cpio` can take literally: a name without NULs that fits
its buffer and is not the trailer's, and a symlink target that fits, too. -/
structure Plain (i : Item) : Prop extends i.Valid where
  short : i.name.length ≤ 1022
  noNul : Char.ofNat 0 ∉ i.name.toList
  notTrailer : i.name ≠ "TRAILER!!!"
  target : itemKind i = .link → (0 : UInt8) ∉ i.data.encoded ∧ i.data.encoded.length ≤ 1023

instance (i : Item) : Decidable (Plain i) :=
  decidable_of_iff (i.Valid ∧ i.name.length ≤ 1022 ∧ Char.ofNat 0 ∉ i.name.toList ∧
      i.name ≠ "TRAILER!!!" ∧
      (itemKind i = .link → (0 : UInt8) ∉ i.data.encoded ∧ i.data.encoded.length ≤ 1023))
    ⟨fun ⟨h1, h2, h3, h4, h5⟩ => ⟨h1, h2, h3, h4, h5⟩, fun h => ⟨h.1, h.2, h.3, h.4, h.5⟩⟩

/-- The name is a C string. -/
theorem Plain.cstr_name {i : Item} (h : Plain i) : cstr (ascii i.name) = ascii i.name :=
  cstr_of_notMem (encode_eq_ascii h.isAscii ▸ zero_notMem_encode h.noNul)

/-- `unpack_cpio` takes it for an entry. -/
theorem Plain.ordinary {i : Item} {e : Entry} (h : Plain i) (he : Encodes i e) : Ordinary e := by
  rw [Ordinary, he.name, h.cstr_name, length_ascii]
  exact ⟨h.short, fun heq => h.notTrailer (ascii_injOn h.isAscii (by decide) heq)⟩

/-! ### The stop at an item -/

/-- `e` is the stop at an entry for the item `i`, laid out as `l`. -/
def StopOf (l : Layout) (i : Item) (e : Stop) : Prop :=
  ∃ p entry, Encodes i entry ∧ e = entryStop p l entry

/-- The stops at the blocks of a list of items. -/
theorem stopOf_blockStops {l : Layout} {items : List Item} {bs : List Block}
    (h : List.Forall₂ (fun i b => Encodes i b.entry ∧ b.layout = l) items bs) (p : ℕ) :
    List.Forall₂ (StopOf l) items (blockStops p bs) := by
  induction h generalizing p with
  | nil => exact .nil
  | @cons i b items bs hib _ ih =>
    obtain ⟨henc, rfl⟩ := hib
    exact .cons ⟨p, b.entry, henc, rfl⟩ (ih _)

section StopOf

variable {root : Buf} {l : Layout} {i : Item} {e : Stop}

/-- The stop has the mode of the item. -/
theorem StopOf.mode_eq (h : StopOf l i e) : e.mode = UInt32.ofNat i.mode := by
  obtain ⟨p, entry, henc, rfl⟩ := h
  rw [← henc.mode]
  rfl

/-- It takes the branch of the item. -/
theorem StopOf.kind_eq (h : StopOf l i e) : kind e.mode = itemKind i := by
  rw [h.mode_eq, itemKind]

/-- It has the name of the item. -/
theorem StopOf.name_eq (h : StopOf l i e) (hi : Plain i) : e.name = itemName i := by
  obtain ⟨p, entry, henc, rfl⟩ := h
  show dropDotSlash (cstr entry.name) = _
  rw [henc.name, hi.cstr_name, itemName]

/-- It is unpacked to the path of the item. -/
theorem StopOf.fullPath_eq (h : StopOf l i e) (hi : Plain i) :
    fullPath root e = itemPath root i := by
  rw [fullPath, h.name_eq hi, itemPath]

/-- It has as many bytes of data as the item. -/
theorem StopOf.length_data (h : StopOf l i e) : e.data.length = i.data.encoded.length := by
  obtain ⟨p, entry, henc, rfl⟩ := h
  rw [← henc.data]
  exact entry.length_seen l

/-- The gap depends on the length of the name alone. -/
theorem gap_eq {entry : Entry} (henc : Encodes i entry) :
    entry.gap l = l.gap (i.name.length + 1) := by
  rw [Entry.gap, henc.name, length_ascii]

/-- A file's data is seen as it was packed unless a gap shifts it. -/
theorem StopOf.data_eq_iff (h : StopOf l i e) :
    e.data = i.data.encoded ↔ l.gap (i.name.length + 1) = 0 ∨ ∀ b ∈ i.data.encoded, b = 0 := by
  obtain ⟨p, entry, henc, rfl⟩ := h
  rw [← gap_eq henc, ← henc.data]
  exact entry.seen_eq_data_iff

/-- A symlink's target is seen as it was packed unless there is a gap and it is not
empty. -/
theorem StopOf.target_eq_iff (h : StopOf l i e) (hi : Plain i) (hk : itemKind i = .link) :
    cstr (e.data.take 1023) = i.data.encoded ↔
      l.gap (i.name.length + 1) = 0 ∨ i.data.encoded = [] := by
  obtain ⟨hnul, hlen⟩ := hi.target hk
  rw [List.take_of_length_le (by rw [h.length_data]; exact hlen)]
  obtain ⟨p, entry, henc, rfl⟩ := h
  rw [← gap_eq henc, ← henc.data]
  exact entry.cstr_seen_eq_data_iff (henc.data ▸ hnul)

/-- The files of a stop against the files of its item. -/
theorem StopOf.files_eq_iff (h : StopOf l i e) (hi : Plain i) :
    (itemFiles root i).length = (expectedFiles root e).length ∧
      (itemFiles root i = expectedFiles root e ↔
        (itemKind i = .reg → l.gap (i.name.length + 1) = 0 ∨ ∀ b ∈ i.data.encoded, b = 0)) := by
  rw [expectedFiles, itemFiles, h.kind_eq, h.fullPath_eq hi]
  by_cases hk : itemKind i = .reg
  · rw [if_pos hk, if_pos hk, ← h.data_eq_iff]
    simp [hk, eq_comm]
  · rw [if_neg hk, if_neg hk]
    simp [hk]

/-- The symlinks of calls one after the other. -/
theorem symlinks_append (cs ds : List Call) : symlinks (cs ++ ds) = symlinks cs ++ symlinks ds :=
  List.filterMap_append

/-- Directories are no symlinks. -/
theorem symlinks_mkdirs (ps : List Buf) (mode : UInt32) :
    symlinks (ps.map (Call.mkdir · mode)) = [] := by
  refine List.filterMap_eq_nil_iff.2 fun c hc => ?_
  obtain ⟨p, -, rfl⟩ := List.mem_map.1 hc
  rfl

/-- The own creating call of a stop, in terms of its item. -/
theorem StopOf.nodeCalls_eq (h : StopOf l i e) (hi : Plain i) :
    nodeCalls root e =
      match itemKind i with
      | .dir => [.mkdir (itemPath root i) (UInt32.ofNat i.mode &&& 0o7777)]
      | .link => [.symlink (cstr (e.data.take 1023)) (itemPath root i)]
      | .dev => [.mknod (itemPath root i) (UInt32.ofNat i.mode)
          (makedev (UInt32.ofNat i.rdevMajor) (UInt32.ofNat i.rdevMinor))]
      | .reg => [.openFile (itemPath root i) createFlags (UInt32.ofNat i.mode &&& 0o7777)]
      | .other => [] := by
  rw [nodeCalls, h.kind_eq, h.fullPath_eq hi, h.mode_eq]
  obtain ⟨p, entry, henc, rfl⟩ := h
  rw [← henc.rdevmajor, ← henc.rdevminor]
  rfl

/-- The symlinks of a stop against the symlinks of its item. -/
theorem StopOf.links_eq_iff (h : StopOf l i e) (hi : Plain i) :
    (itemLinks root i).length = (symlinks (createCalls root e)).length ∧
      (itemLinks root i = symlinks (createCalls root e) ↔
        (itemKind i = .link → l.gap (i.name.length + 1) = 0 ∨ i.data.encoded = [])) := by
  rw [createCalls, symlinks_append, symlinks_mkdirs, List.nil_append, h.nodeCalls_eq hi, itemLinks]
  by_cases hk : itemKind i = .link
  · rw [if_pos hk, hk, ← h.target_eq_iff hi hk]
    simp [symlinks, eq_comm]
  · rw [if_neg hk]
    cases hk' : itemKind i <;> simp_all [symlinks]

/-- The creating calls of a stop are those of its item up to the target of a
symlink. -/
theorem StopOf.shapes_eq (h : StopOf l i e) (hi : Plain i) :
    (createCalls root e).map Call.shape = (itemCalls root i).map Call.shape := by
  rw [createCalls, itemCalls, h.name_eq hi, h.nodeCalls_eq hi, List.map_append, List.map_append]
  congr 1
  cases itemKind i <;> rfl

/-- Without a gap they are the same calls. -/
theorem StopOf.createCalls_eq (h : StopOf .compact i e) (hi : Plain i) :
    createCalls root e = itemCalls root i := by
  rw [createCalls, itemCalls, h.name_eq hi, h.nodeCalls_eq hi]
  congr 1
  cases hk : itemKind i
  case link => rw [(h.target_eq_iff hi hk).2 (Or.inl rfl)]
  all_goals rfl

end StopOf

end Bootstrap
end Twrp

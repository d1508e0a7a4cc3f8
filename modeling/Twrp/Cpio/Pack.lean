/-
# `pack_cpio.py`: the standard layout

`entry` and `trailer` as the script has them, over the module's inode counter.  On
names in ASCII and numbers of 32 bits `entry` writes a well-formed `Cpio.Entry` in
the standard layout (`entryBody_eq`, `entries_run`).

`trailer` does not: its format string has eleven numbers where a header has
thirteen, so the name starts inside the header.
-/

import Twrp.Cpio.Newc
import Mathlib.Data.List.Forall2

namespace Twrp
namespace Cpio

open Bytes

/-- A `data` argument: bytes, or text to be encoded. -/
inductive Blob where
  | bytes (b : List UInt8)
  | str (s : String)
  deriving DecidableEq, Repr

/-- `data.encode()` where `data` is text. -/
def Blob.encoded : Blob → List UInt8
  | .bytes b => b
  | .str s => encode s

/-- The arguments of `entry`. -/
structure Item where
  name : String
  data : Blob
  mode : ℕ
  uid : ℕ := 0
  gid : ℕ := 0
  rdevMajor : ℕ := 0
  rdevMinor : ℕ := 0
  ino : Option ℕ := none
  deriving DecidableEq, Repr

/-- An item that fits the format: a name in ASCII, and numbers of at most eight
hexadecimal digits. -/
structure Item.Valid (i : Item) : Prop where
  isAscii : IsAscii i.name
  name_lt : i.name.length + 1 < 2 ^ 32
  data_lt : i.data.encoded.length < 2 ^ 32
  mode_lt : i.mode < 2 ^ 32
  uid_lt : i.uid < 2 ^ 32
  gid_lt : i.gid < 2 ^ 32
  rdevMajor_lt : i.rdevMajor < 2 ^ 32
  rdevMinor_lt : i.rdevMinor < 2 ^ 32
  ino_lt : ∀ n ∈ i.ino, n < 2 ^ 32

/-- The name fits as bytes. -/
theorem Item.Valid.ascii_lt {i : Item} (h : i.Valid) : (ascii i.name).length + 1 < 2 ^ 32 := by
  rw [length_ascii]
  exact h.name_lt

instance (i : Item) : Decidable i.Valid :=
  decidable_of_iff (IsAscii i.name ∧ i.name.length + 1 < 2 ^ 32 ∧ i.data.encoded.length < 2 ^ 32 ∧
      i.mode < 2 ^ 32 ∧ i.uid < 2 ^ 32 ∧ i.gid < 2 ^ 32 ∧ i.rdevMajor < 2 ^ 32 ∧
      i.rdevMinor < 2 ^ 32 ∧ ∀ n ∈ i.ino, n < 2 ^ 32)
    ⟨fun ⟨h1, h2, h3, h4, h5, h6, h7, h8, h9⟩ => ⟨h1, h2, h3, h4, h5, h6, h7, h8, h9⟩,
      fun h => ⟨h.1, h.2, h.3, h.4, h.5, h.6, h.7, h.8, h.9⟩⟩

/-- `e` is an entry for the item `i`. -/
structure Encodes (i : Item) (e : Entry) : Prop where
  name : e.name = ascii i.name
  data : e.data = i.data.encoded
  mode : e.mode.value = i.mode
  rdevmajor : e.rdevmajor.value = i.rdevMajor
  rdevminor : e.rdevminor.value = i.rdevMinor

namespace Pack

/-- The value `_ino[0]` starts with. -/
def firstIno : ℕ := 0x000493e0

/-- `_ino[0]`, counted up. -/
def nextIno : StateM ℕ ℕ := do
  let ino ← get
  set (ino + 1)
  pure ino

/-- The bytes of `entry` for a given inode number: name and data each padded to a
multiple of four. -/
def entryBody (i : Item) (ino : ℕ) : List UInt8 :=
  let data := i.data.encoded
  let hdr := ascii "070701" ++ fmt08x ino ++ fmt08x i.mode ++ fmt08x i.uid ++ fmt08x i.gid ++
    fmt08x 1 ++ fmt08x 0 ++ fmt08x data.length ++ fmt08x 0 ++ fmt08x 0 ++ fmt08x i.rdevMajor ++
    fmt08x i.rdevMinor ++ fmt08x (i.name.length + 1) ++ fmt08x 0
  let body := hdr ++ encode i.name ++ [0]
  let body := body ++ zeros (pad4 body.length)
  let body := body ++ data
  body ++ zeros (pad4 body.length)

/-- `entry`: an inode number of its own, or the next one. -/
def entry (i : Item) : StateM ℕ (List UInt8) := do
  let ino ← match i.ino with
    | some ino => pure ino
    | none => nextIno
  pure (entryBody i ino)

/-- The bytes of `trailer` for a given inode number, padded to a multiple of 512. -/
def trailerBody (ino : ℕ) : List UInt8 :=
  let body := ascii "070701" ++ fmt08x ino ++ fmt08x 0o755 ++ fmt08x 0 ++ fmt08x 0 ++ fmt08x 1 ++
    fmt08x 0 ++ fmt08x 0 ++ fmt08x 0 ++ fmt08x 0 ++ fmt08x 11 ++ fmt08x 0 ++
    (ascii "TRAILER!!!" ++ [0])
  let body := body ++ zeros (pad4 body.length)
  body ++ zeros ((512 - body.length % 512) % 512)

/-- `trailer`: the end of the archive. -/
def trailer : StateM ℕ (List UInt8) := do
  let ino ← nextIno
  pure (trailerBody ino)

/-- `entry` over a list of items. -/
def entries (items : List Item) : StateM ℕ (List (List UInt8)) := items.mapM entry

/-- The archive of a list of items. -/
def archive (items : List Item) : StateM ℕ (List UInt8) := do
  let bodies ← entries items
  let last ← trailer
  pure (bodies.flatten ++ last)

/-! ### What `entry` writes -/

/-- The entry for a valid item. -/
def itemEntry (i : Item) (h : i.Valid) (ino : ℕ) (hino : ino < 2 ^ 32) : Entry :=
  Entry.pack ⟨ino, i.mode, i.uid, i.gid, i.rdevMajor, i.rdevMinor, hino, h.mode_lt, h.uid_lt,
    h.gid_lt, h.rdevMajor_lt, h.rdevMinor_lt⟩ (ascii i.name) i.data.encoded h.ascii_lt h.data_lt

theorem encodes_itemEntry (i : Item) (h : i.Valid) (ino : ℕ) (hino : ino < 2 ^ 32) :
    Encodes i (itemEntry i h ino hino) :=
  ⟨rfl, rfl, HexField.value_ofNat _ h.mode_lt, HexField.value_ofNat _ h.rdevMajor_lt,
    HexField.value_ofNat _ h.rdevMinor_lt⟩

/-- Padding as it goes along, in the two steps of `entry`. -/
theorem pad_twice {hdr : List UInt8} (hhdr : hdr.length = 110) (name data : List UInt8) :
    (let body := hdr ++ name ++ [0]
     let body := body ++ zeros (pad4 body.length)
     let body := body ++ data
     body ++ zeros (pad4 body.length)) =
      hdr ++ (name ++ (0 :: (zeros (pad4 (110 + (name.length + 1))) ++
        (data ++ zeros (pad4 data.length))))) := by
  have h1 : (hdr ++ name ++ [0]).length = 110 + (name.length + 1) := by
    rw [List.length_append, List.length_append, hhdr, List.length_singleton, Nat.add_assoc]
  have h2 : pad4 (hdr ++ name ++ [0] ++ zeros (pad4 (110 + (name.length + 1))) ++ data).length =
      pad4 data.length := by
    rw [List.length_append, List.length_append, h1, length_zeros, pad4_add_of_mod (add_pad4_mod _)]
  dsimp only
  rw [h1, h2]
  simp only [List.append_assoc, List.cons_append, List.nil_append]

/-- **One entry** is a well-formed entry in the standard layout. -/
theorem entryBody_eq (i : Item) (h : i.Valid) (ino : ℕ) (hino : ino < 2 ^ 32) :
    entryBody i ino = (itemEntry i h ino hino).bytes .standard := by
  have hhdr : (itemEntry i h ino hino).header = ascii "070701" ++ fmt08x ino ++ fmt08x i.mode ++
      fmt08x i.uid ++ fmt08x i.gid ++ fmt08x 1 ++ fmt08x 0 ++ fmt08x i.data.encoded.length ++
      fmt08x 0 ++ fmt08x 0 ++ fmt08x i.rdevMajor ++ fmt08x i.rdevMinor ++
      fmt08x (i.name.length + 1) ++ fmt08x 0 := by
    rw [itemEntry, Entry.header_pack, length_ascii]
  unfold entryBody
  simp only [encode_eq_ascii h.isAscii, ← hhdr]
  exact pad_twice (itemEntry i h ino hino).length_header _ _

/-- How many inode numbers a list of items takes from the counter. -/
def drawn (items : List Item) : ℕ := items.countP (·.ino.isNone)

/-- `entry` writes the item under a number of 32 bits, and counts the number if it was drawn. -/
theorem entry_eq_body {i : Item} (h : ∀ n ∈ i.ino, n < 2 ^ 32) {c : ℕ}
    (hc : i.ino = none → c < 2 ^ 32) :
    ∃ ino < 2 ^ 32, entry i c = (entryBody i ino, c + if i.ino.isNone then 1 else 0) := by
  unfold entry
  cases hi : i.ino with
  | none => exact ⟨c, hc hi, rfl⟩
  | some n => exact ⟨n, h n hi, rfl⟩

/-- **A run of `entry` over a list.**  What holds of every body with a number of 32 bits
holds of the bodies that are written, one for each item. -/
theorem entries_forall₂ {P : Item → List UInt8 → Prop} {items : List Item}
    (h : ∀ i ∈ items, ∀ n ∈ i.ino, n < 2 ^ 32)
    (hP : ∀ i ∈ items, ∀ ino < 2 ^ 32, P i (entryBody i ino)) {c : ℕ}
    (hc : c + drawn items ≤ 2 ^ 32) :
    ∃ bs, entries items c = (bs, c + drawn items) ∧ List.Forall₂ P items bs := by
  induction items generalizing c with
  | nil => exact ⟨[], rfl, .nil⟩
  | cons i items ih =>
    obtain ⟨hi, his⟩ := List.forall_mem_cons.1 h
    obtain ⟨hPi, hPis⟩ := List.forall_mem_cons.1 hP
    rw [drawn, List.countP_cons] at hc ⊢
    have hlt : i.ino = none → c < 2 ^ 32 := by
      intro hnone
      rw [hnone] at hc
      simp only [Option.isNone_none, if_true] at hc
      omega
    obtain ⟨ino, hino, hrun⟩ := entry_eq_body hi hlt
    obtain ⟨bs, hbs, hforall⟩ := ih his hPis (c := c + if i.ino.isNone then 1 else 0)
      (by rw [drawn]; omega)
    refine ⟨entryBody i ino :: bs, ?_, .cons (hPi ino hino) hforall⟩
    have hcons : entries (i :: items) c =
        ((entry i c).1 :: (entries items (entry i c).2).1, (entries items (entry i c).2).2) := by
      rw [entries, List.mapM_cons]
      rfl
    rw [hcons, hrun, hbs, drawn]
    exact Prod.ext rfl (by dsimp only; omega)

/-- **A list of items** is written as one entry each, in the standard layout. -/
theorem entries_run {items : List Item} (h : ∀ i ∈ items, i.Valid) {c : ℕ}
    (hc : c + drawn items ≤ 2 ^ 32) :
    ∃ es, entries items c = (es.map (Entry.bytes · .standard), c + drawn items) ∧
      List.Forall₂ Encodes items es := by
  obtain ⟨bs, hbs, hforall⟩ := entries_forall₂
    (P := fun i b => ∃ e : Entry, b = e.bytes .standard ∧ Encodes i e)
    (fun i hi => (h i hi).ino_lt)
    (fun i hi ino hino => ⟨_, entryBody_eq i (h i hi) ino hino, encodes_itemEntry ..⟩) hc
  obtain ⟨es, rfl, henc⟩ := forall₂_exists_map hforall
  exact ⟨es, hbs, henc⟩

/-- The trailer takes the number that is drawn next. -/
theorem archive_eq (items : List Item) (c : ℕ) :
    (archive items c).1 = (entries items c).1.flatten ++ trailerBody (entries items c).2 := rfl

/-- **The bytes of an archive:** its entries, and the trailer. -/
theorem archive_run {items : List Item} (h : ∀ i ∈ items, i.Valid) {c : ℕ}
    (hc : c + drawn items ≤ 2 ^ 32) :
    ∃ es, entries items c = (es.map (Entry.bytes · .standard), c + drawn items) ∧
      List.Forall₂ Encodes items es ∧
      (archive items c).1 =
        es.flatMap (Entry.bytes · .standard) ++ trailerBody (c + drawn items) := by
  obtain ⟨es, hes, henc⟩ := entries_run h hc
  refine ⟨es, hes, henc, ?_⟩
  rw [archive_eq, hes, List.flatMap_def]

/-- **The bytes of the trailer:** eleven numbers, the name and zero bytes. -/
theorem trailerBody_fields {ino : ℕ} (h : ino < 2 ^ 32) :
    ∃ nums : List UInt8, nums.length = 88 ∧
      trailerBody ino = magic ++ nums ++ (ascii "TRAILER!!!" ++ zeros 408) := by
  obtain ⟨nums, hnums, hbody⟩ : ∃ nums : List UInt8, nums.length = 88 ∧
      ascii "070701" ++ fmt08x ino ++ fmt08x 0o755 ++ fmt08x 0 ++ fmt08x 0 ++ fmt08x 1 ++
        fmt08x 0 ++ fmt08x 0 ++ fmt08x 0 ++ fmt08x 0 ++ fmt08x 11 ++ fmt08x 0 ++
        (ascii "TRAILER!!!" ++ [0]) = (magic ++ nums) ++ (ascii "TRAILER!!!" ++ [0]) := by
    refine ⟨fmt08x ino ++ (fmt08x 0o755 ++ (fmt08x 0 ++ (fmt08x 0 ++ (fmt08x 1 ++ (fmt08x 0 ++
      (fmt08x 0 ++ (fmt08x 0 ++ (fmt08x 0 ++ (fmt08x 11 ++ fmt08x 0))))))))), ?_, ?_⟩
    · simp only [List.length_append, length_fmt08x h, length_fmt08x (show 0o755 < 2 ^ 32 by omega),
        length_fmt08x (show 0 < 2 ^ 32 by omega), length_fmt08x (show 1 < 2 ^ 32 by omega),
        length_fmt08x (show 11 < 2 ^ 32 by omega)]
    · simp only [magic, List.append_assoc]
  have hname : (ascii "TRAILER!!!" ++ [0]).length = 11 := by decide
  have hlen : ((magic ++ nums) ++ (ascii "TRAILER!!!" ++ [0])).length = 105 := by
    rw [List.length_append, List.length_append, length_magic, hnums, hname]
  have hzeros : zeros 408 = [0] ++ (zeros 3 ++ zeros 404) := rfl
  refine ⟨nums, hnums, ?_⟩
  unfold trailerBody
  dsimp only
  rw [hbody, hlen, List.length_append, hlen, hzeros]
  simp only [List.append_assoc]
  rfl

/-- **The trailer is no entry.**  It begins like one and is long enough for one, but
where the name size belongs stands the beginning of the name. -/
theorem trailerBody_shape {ino : ℕ} (h : ino < 2 ^ 32) :
    magic <+: trailerBody ino ∧ 110 ≤ (trailerBody ino).length ∧
      slice (trailerBody ino) 94 8 = ascii "TRAILER!" := by
  obtain ⟨nums, hnums, hrun⟩ := trailerBody_fields h
  have hpre : (magic ++ nums).length = 94 := by rw [List.length_append, length_magic, hnums]
  have hname : ascii "TRAILER!!!" = ascii "TRAILER!" ++ ascii "!!" := by decide
  rw [hrun]
  refine ⟨?_, ?_, ?_⟩
  · rw [List.append_assoc]
    exact List.prefix_append _ _
  · rw [List.length_append, hpre, List.length_append, length_zeros]
    omega
  · rw [hname, List.append_assoc (ascii "TRAILER!")]
    exact slice_append_middle hpre.symm (by decide)

end Pack

end Cpio
end Twrp

/-
# `insert_devnodes.py`: three nodes behind `./dev`

`entry` writes the compact layout, and `main` walks an archive as if all of it were
laid out that way, four bytes at a time where it finds no header.  On archives of
either layout it still meets every header, and nothing else that looks like one:
where it stands short of a header it stands on four bytes that cannot begin the
magic.  So the three entries go right behind the first directory named `dev`, and
every other byte stays where it is (`main_archive`).
-/

import Twrp.Cpio.Pack
import Twrp.Cpio.Reader
import Twrp.Python.Text

namespace Twrp
namespace Cpio
namespace DevNodes

open Bytes Python

/-- `entry`: one entry, padded as a whole. -/
def entry (name : String) (data : Blob) (mode : ℕ) (rdevMajor rdevMinor : ℕ) : List UInt8 :=
  let data := data.encoded
  let hdr := ascii "070701" ++ fmt08x 0 ++ fmt08x mode ++ fmt08x 0 ++ fmt08x 0 ++ fmt08x 1 ++
    fmt08x 0 ++ fmt08x data.length ++ fmt08x 0 ++ fmt08x 0 ++ fmt08x rdevMajor ++
    fmt08x rdevMinor ++ fmt08x (name.length + 1) ++ fmt08x 0
  hdr ++ encode name ++ [0] ++ data ++ zeros (pad4 (hdr.length + name.length + 1 + data.length))

/-- `find_entry_end`, whose third argument is unused; `none` where `int` raises.  Its
caller has checked that neither number is negative. -/
def findEntryEnd (d : List UInt8) (pos : ℕ) : Option ℕ := do
  let namesize ← int16 (slice d (pos + 94) 8)
  let filesize ← int16 (slice d (pos + 54) 8)
  let total := 110 + namesize.toNat + filesize.toNat
  pure (pos + total + pad4 total)

/-- The names `main` looks for. -/
def devNames : List String := ["./dev", "./dev/", "dev", "dev/"]

/-- The `while` loop of `main` from `pos` on: the offset of the first entry with one
of the names. -/
def findDev (d : List UInt8) (pos : ℕ) : Option ℕ :=
  if _h : pos + 110 ≤ d.length then
    if slice d pos 6 ≠ ascii "070701" then findDev d (pos + 4)
    else
      match int16 (slice d (pos + 94) 8), int16 (slice d (pos + 54) 8) with
      | some namesize, some filesize =>
        if 0 < namesize ∧ namesize ≤ 4096 ∧ 0 ≤ filesize ∧ filesize < 64 * 1024 * 1024 then
          let name := decodeReplace (slice d (pos + 110) (namesize.toNat - 1))
          if name ∈ devNames.map String.toList then some pos
          else
            let total := 110 + namesize.toNat + filesize.toNat
            findDev d (pos + (total + pad4 total))
        else findDev d (pos + 4)
      | _, _ => findDev d (pos + 4)
  else none
termination_by d.length - pos

/-- How a script ends: with a file written, by `sys.exit`, or with an exception. -/
inductive Outcome where
  | wrote (out : List UInt8)
  | exited (message : String)
  | raised
  deriving DecidableEq, Repr

/-- The three entries that `main` inserts. -/
def nodes : List UInt8 :=
  entry "dev/console" (.bytes []) 0o020600 5 1 ++ entry "dev/null" (.bytes []) 0o020666 1 3 ++
    entry "dev/zero" (.bytes []) 0o020666 1 5

/-- `main` on the contents `d` of `src`. -/
def main (d : List UInt8) : Outcome :=
  match findDev d 0 with
  | none => .exited "no ./dev directory entry found in cpio"
  | some devEntry =>
    match findEntryEnd d devEntry with
    | none => .raised
    | some after => .wrote (d.take after ++ nodes ++ d.drop after)

/-! ### What `entry` writes -/

/-- The entry for a valid item; `entry` sets inode number and owner to `0`. -/
def compactEntry (i : Item) (h : i.Valid) : Entry :=
  Entry.pack ⟨0, i.mode, 0, 0, i.rdevMajor, i.rdevMinor, by omega, h.mode_lt, by omega, by omega,
    h.rdevMajor_lt, h.rdevMinor_lt⟩ (ascii i.name) i.data.encoded h.ascii_lt h.data_lt

/-- The entry says what the item does. -/
theorem encodes_compactEntry (i : Item) (h : i.Valid) : Encodes i (compactEntry i h) :=
  ⟨rfl, rfl, HexField.value_ofNat _ h.mode_lt, HexField.value_ofNat _ h.rdevMajor_lt,
    HexField.value_ofNat _ h.rdevMinor_lt⟩

/-- **One entry** is a well-formed entry in the compact layout. -/
theorem entry_eq (i : Item) (h : i.Valid) :
    entry i.name i.data i.mode i.rdevMajor i.rdevMinor = (compactEntry i h).bytes .compact := by
  have hhdr : (compactEntry i h).header = ascii "070701" ++ fmt08x 0 ++ fmt08x i.mode ++ fmt08x 0 ++
      fmt08x 0 ++ fmt08x 1 ++ fmt08x 0 ++ fmt08x i.data.encoded.length ++ fmt08x 0 ++ fmt08x 0 ++
      fmt08x i.rdevMajor ++ fmt08x i.rdevMinor ++ fmt08x (i.name.length + 1) ++ fmt08x 0 := by
    rw [compactEntry, Entry.header_pack, length_ascii]
  have htail : (compactEntry i h).tailPad .compact =
      pad4 (110 + i.name.length + 1 + i.data.encoded.length) := by
    show pad4 (110 + ((ascii i.name).length + 1) + i.data.encoded.length) = _
    rw [length_ascii, ← Nat.add_assoc]
  unfold entry
  simp only [encode_eq_ascii h.isAscii, ← hhdr]
  rw [Entry.length_header, ← htail, List.append_assoc, List.append_assoc, List.append_assoc]
  rfl

/-- The three nodes as items. -/
def nodeItems : List Item :=
  [{ name := "dev/console", data := .bytes [], mode := 0o020600, rdevMajor := 5, rdevMinor := 1 },
    { name := "dev/null", data := .bytes [], mode := 0o020666, rdevMajor := 1, rdevMinor := 3 },
    { name := "dev/zero", data := .bytes [], mode := 0o020666, rdevMajor := 1, rdevMinor := 5 }]

/-- The three nodes as a reader sees them. -/
def nodeRecords : List Record :=
  [⟨[0, 0o020600, 0, 0, 1, 0, 0, 0, 0, 5, 1, 12, 0], ascii "dev/console", []⟩,
    ⟨[0, 0o020666, 0, 0, 1, 0, 0, 0, 0, 1, 3, 9, 0], ascii "dev/null", []⟩,
    ⟨[0, 0o020666, 0, 0, 1, 0, 0, 0, 0, 1, 5, 9, 0], ascii "dev/zero", []⟩]

/-- The items of the script have valid names and numbers. -/
theorem nodeItems_valid : ∀ i ∈ nodeItems, i.Valid := by decide

/-- The three nodes as entries. -/
def nodeEntries : List Entry :=
  nodeItems.attach.map fun i => compactEntry i.1 (nodeItems_valid i.1 i.2)

/-- The contents of a written entry. -/
theorem record_compactEntry (i : Item) (h : i.Valid) :
    (compactEntry i h).record = ⟨[0, i.mode, 0, 0, 1, 0, i.data.encoded.length, 0, 0, i.rdevMajor,
      i.rdevMinor, i.name.length + 1, 0], ascii i.name, i.data.encoded⟩ := by
  simp only [Entry.record, Entry.fields, compactEntry, Entry.pack, List.map_cons, List.map_nil,
    HexField.value_ofNat, length_ascii]

/-- The contents of the inserted entries. -/
theorem map_record_nodeEntries : nodeEntries.map Entry.record = nodeRecords := by
  show [(compactEntry _ _).record, (compactEntry _ _).record, (compactEntry _ _).record] = _
  rw [record_compactEntry, record_compactEntry, record_compactEntry]
  decide

/-- The inserted bytes are these entries, in either layout. -/
theorem nodes_eq (l : Layout) : nodes = archiveBytes (nodeEntries.map fun e => (l, e)) := by
  have hentry : ∀ i (h : i ∈ nodeItems), entry i.name i.data i.mode i.rdevMajor i.rdevMinor =
      (compactEntry i (nodeItems_valid i h)).bytes l := by
    intro i h
    have hdata : ∀ j ∈ nodeItems, j.data.encoded = [] := by decide
    rw [entry_eq i (nodeItems_valid i h), Entry.bytes_of_data_eq_nil _ (hdata i h) l]
  have hnodes : nodes = nodeItems.flatMap fun i =>
      entry i.name i.data i.mode i.rdevMajor i.rdevMinor := by
    simp only [nodes, nodeItems, List.flatMap_cons, List.flatMap_nil, List.append_nil,
      List.append_assoc]
  rw [hnodes, archiveBytes, nodeEntries, List.map_map, List.flatMap_map]
  conv_lhs => rw [← List.attach_map_subtype_val nodeItems, List.flatMap_map]
  exact List.flatMap_congr fun i _ => hentry i.1 i.2

/-! ### The walk over an archive -/

/-- `main` takes the entry for the directory it looks for. -/
def IsDev (e : Entry) : Prop := e.name ∈ devNames.map ascii

instance (e : Entry) : Decidable (IsDev e) := inferInstanceAs (Decidable (_ ∈ _))

/-- An entry within the bounds of `main`: neither its name nor its data is too long. -/
def Fits (e : Entry) : Prop := e.name.length ≤ 4095 ∧ e.data.length < 64 * 1024 * 1024

instance (e : Entry) : Decidable (Fits e) := inferInstanceAs (Decidable (_ ∧ _))

/-- Where no header fits, the search has failed. -/
theorem findDev_of_length_lt {d : List UInt8} {pos : ℕ} (h : d.length < pos + 110) :
    findDev d pos = none := by
  rw [findDev, dif_neg (by omega)]

/-- Where no header stands the walk goes on four bytes further. -/
theorem findDev_skip {d : List UInt8} {pos : ℕ} (h : ¬ magic <+: d.drop pos) :
    findDev d pos = findDev d (pos + 4) := by
  by_cases hlen : pos + 110 ≤ d.length
  · conv_lhs => rw [findDev]
    rw [dif_pos hlen]
    exact if_pos (mt slice_eq_magic_iff.1 h)
  · rw [findDev_of_length_lt (by omega), findDev_of_length_lt (by omega)]

/-- A decoded name is one of the two exactly when the bytes are. -/
theorem mem_devNames_iff (b : List UInt8) :
    decodeReplace b ∈ devNames.map String.toList ↔ b ∈ devNames.map ascii := by
  have hascii : ∀ s ∈ devNames, IsAscii s := by decide
  simp only [List.mem_map]
  refine exists_congr fun s => and_congr_right fun hs => ?_
  rw [eq_comm, decodeReplace_eq_iff (hascii s hs), eq_comm]

section Header

variable {d r : List UInt8} {pos : ℕ} {l : Layout} {e : Entry}

theorem length_of_drop (hd : d.drop pos = e.bytes l ++ r) : pos + 110 ≤ d.length := by
  have hlen := congrArg List.length hd
  rw [List.length_drop, List.length_append, e.length_bytes, Entry.total] at hlen
  omega

/-- A header field is read as a number. -/
theorem int16_field (hd : d.drop pos = e.bytes l ++ r) (i : ℕ) (hi : i < 13) :
    int16 (slice d (pos + (6 + 8 * i)) 8) = some ((e.fields.get ⟨i, hi⟩).value : ℤ) := by
  have hne : (e.fields.get ⟨i, hi⟩).bytes ≠ [] :=
    List.ne_nil_of_length_pos (by rw [HexField.length_eq]; omega)
  rw [← slice_drop, hd, e.slice_field l r i hi, int16_of_hex hne (HexField.hex _)]
  rfl

/-- `namesize`. -/
theorem int16_namesize (hd : d.drop pos = e.bytes l ++ r) :
    int16 (slice d (pos + 94) 8) = some ((e.name.length + 1 : ℕ) : ℤ) := by
  rw [← e.namesize_eq]
  exact int16_field hd 11 (by omega)

/-- `filesize`. -/
theorem int16_filesize (hd : d.drop pos = e.bytes l ++ r) :
    int16 (slice d (pos + 54) 8) = some (e.data.length : ℤ) := by
  rw [← e.filesize_eq]
  exact int16_field hd 6 (by omega)

/-- The pass over the header of an entry. -/
theorem findDev_entry (he : Fits e) (hd : d.drop pos = e.bytes l ++ r) :
    findDev d pos = if IsDev e then some pos else findDev d (pos + (e.total + pad4 e.total)) := by
  have hmagic : slice d pos 6 = ascii "070701" :=
    slice_eq_magic_iff.2 (hd ▸ e.magic_prefix_bytes l r)
  have hname : slice d (pos + 110) e.name.length = e.name := by
    rw [← slice_drop, hd, e.slice_name]
  obtain ⟨h1, h2⟩ := he
  conv_lhs => rw [findDev]
  rw [dif_pos (length_of_drop hd), if_neg (not_not.2 hmagic), int16_namesize hd, int16_filesize hd]
  dsimp only
  rw [if_pos (by omega), Int.toNat_natCast, Int.toNat_natCast, Nat.add_sub_cancel, hname]
  exact if_congr (mem_devNames_iff e.name) rfl rfl

/-- The length that `main` computes for the entry it stops at. -/
theorem findEntryEnd_entry (hd : d.drop pos = e.bytes l ++ r) :
    findEntryEnd d pos = some (pos + (e.total + pad4 e.total)) := by
  rw [findEntryEnd, int16_namesize hd, int16_filesize hd]
  show some (pos + (110 + Int.toNat _ + Int.toNat _) + pad4 (110 + Int.toNat _ + Int.toNat _)) = _
  rw [Int.toNat_natCast, Int.toNat_natCast, Nat.add_assoc pos]
  rfl

/-- **One entry.**  Unless it is the one looked for, the walk comes to what follows. -/
theorem findDev_block (he : Fits e) (hdev : ¬ IsDev e) (hd : d.drop pos = e.bytes l ++ r)
    (hm : magic <+: r) : findDev d pos = findDev d (pos + (e.bytes l).length) := by
  rw [findDev_entry he hd, if_neg hdev]
  rcases e.length_bytes_eq l with hlen | ⟨-, hlen⟩
  · rw [hlen]
  · -- the walk stands four bytes short, on bytes that cannot begin a header
    have hclean : Clean magic ((e.bytes l).drop (e.total + pad4 e.total)) r := by
      have := Block.clean_behind ⟨e, l, 0⟩ hm
      rwa [Block.bytes, zeros_zero, List.append_nil] at this
    have hdrop : d.drop (pos + (e.total + pad4 e.total)) =
        (e.bytes l).drop (e.total + pad4 e.total) ++ r := by
      rw [← List.drop_drop, hd, List.drop_append_of_le_length (by omega)]
    have hne : (e.bytes l).drop (e.total + pad4 e.total) ≠ [] :=
      List.ne_nil_of_length_pos (by rw [List.length_drop]; omega)
    rw [findDev_skip (hdrop ▸ hclean _ List.suffix_rfl hne), hlen, Nat.add_assoc]

end Header

theorem drop_archive {d r : List UInt8} {pos : ℕ} {x : List UInt8} (hd : d.drop pos = x ++ r) :
    d.drop (pos + x.length) = r := by
  rw [← List.drop_drop, hd, List.drop_left]

/-- An archive in front of a header starts with a header. -/
theorem magic_prefix_archive {xs : List (Layout × Entry)} {r : List UInt8} (hm : magic <+: r) :
    magic <+: archiveBytes xs ++ r := by
  cases xs with
  | nil => exact hm
  | cons x xs =>
    rw [archiveBytes_cons, List.append_assoc]
    exact x.2.magic_prefix_bytes _ _

/-- **All entries in front of the one looked for.** -/
theorem findDev_archive {d r : List UInt8} {xs : List (Layout × Entry)} (hfits : ∀ x ∈ xs, Fits x.2)
    (hdev : ∀ x ∈ xs, ¬ IsDev x.2) {pos : ℕ} (hd : d.drop pos = archiveBytes xs ++ r)
    (hm : magic <+: r) : findDev d pos = findDev d (pos + (archiveBytes xs).length) := by
  induction xs generalizing pos with
  | nil => rfl
  | cons x xs ih =>
    obtain ⟨hx, hxs⟩ := List.forall_mem_cons.1 hfits
    obtain ⟨hdx, hdxs⟩ := List.forall_mem_cons.1 hdev
    rw [archiveBytes_cons, List.append_assoc] at hd
    rw [findDev_block hx hdx hd (magic_prefix_archive hm), ih hxs hdxs (drop_archive hd),
      archiveBytes_cons, List.length_append, Nat.add_assoc]

/-- Behind the trailer there is nothing to find. -/
theorem findDev_zeros {d : List UInt8} {pos k : ℕ} (hd : d.drop pos = zeros k) :
    findDev d pos = none := by
  induction k using Nat.strong_induction_on generalizing pos with
  | _ k ih =>
    have hlen := congrArg List.length hd
    rw [List.length_drop, length_zeros] at hlen
    rcases Nat.lt_or_ge k 110 with hk | hk
    · exact findDev_of_length_lt (by omega)
    · have hmagic : ¬ magic <+: d.drop pos := by
        intro hm
        have hmem : (48 : UInt8) ∈ zeros k := hd ▸ hm.subset (by decide)
        exact absurd (eq_zero_of_mem_zeros hmem) (by decide)
      have hnext : d.drop (pos + 4) = zeros (k - 4) := by
        rw [← List.drop_drop, hd, zeros, List.drop_replicate]
        rfl
      rw [findDev_skip hmagic, ih (k - 4) (by omega) hnext]

/-- **The last entry.**  Zero bytes behind it complete no header either. -/
theorem findDev_last {d : List UInt8} {pos k : ℕ} {l : Layout} {e : Entry} (he : Fits e)
    (hdev : ¬ IsDev e) (hd : d.drop pos = e.bytes l ++ zeros k) : findDev d pos = none := by
  have hend : findDev d (pos + (e.bytes l).length) = none := findDev_zeros (drop_archive hd)
  rw [findDev_entry he hd, if_neg hdev]
  rcases e.length_bytes_eq l with hlen | ⟨-, hlen⟩
  · rwa [← hlen]
  · have hdrop : d.drop (pos + (e.total + pad4 e.total)) =
        (e.bytes l).drop (e.total + pad4 e.total) ++ zeros k := by
      rw [← List.drop_drop, hd, List.drop_append_of_le_length (by omega)]
    have hshort : ((e.bytes l).drop (e.total + pad4 e.total)).length = 4 := by
      rw [List.length_drop]
      omega
    have hmagic : ¬ magic <+: d.drop (pos + (e.total + pad4 e.total)) := by
      rw [hdrop]
      intro hm
      -- the fifth byte of the magic would be a zero byte
      have h5 := hm.getElem (show 4 < magic.length by decide)
      rw [List.getElem_append_right (by omega)] at h5
      have hmem : magic[4] ∈ zeros k := by
        rw [h5]
        exact List.getElem_mem _
      exact absurd (eq_zero_of_mem_zeros hmem) (by decide)
    rw [findDev_skip hmagic, Nat.add_assoc, ← hlen]
    exact hend

/-! ### The whole script -/

/-- Behind an entry without data `main` goes on where the next entry begins, whatever
the layout, and the nodes go in there. -/
theorem main_inserts {pre : List (Layout × Entry)} {dev : Layout × Entry}
    (hfpre : ∀ x ∈ pre, Fits x.2) (hpre : ∀ x ∈ pre, ¬ IsDev x.2) (hfdev : Fits dev.2)
    (hdev : IsDev dev.2) (hdata : dev.2.data = []) (tail : List UInt8) :
    main (archiveBytes pre ++ (dev.2.bytes dev.1 ++ tail)) =
      .wrote (archiveBytes (pre ++ [dev]) ++ nodes ++ tail) := by
  have hdrop : (archiveBytes pre ++ (dev.2.bytes dev.1 ++ tail)).drop (archiveBytes pre).length =
      dev.2.bytes dev.1 ++ tail := List.drop_left
  have hfind : findDev (archiveBytes pre ++ (dev.2.bytes dev.1 ++ tail)) 0 =
      some (archiveBytes pre).length := by
    rw [findDev_archive hfpre hpre rfl (dev.2.magic_prefix_bytes _ _), Nat.zero_add,
      findDev_entry hfdev hdrop, if_pos hdev]
  have hfront : archiveBytes (pre ++ [dev]) = archiveBytes pre ++ dev.2.bytes dev.1 := by
    rw [archiveBytes_append, archiveBytes_cons, archiveBytes_nil, List.append_nil]
  -- without data both layouts are as long as `main` takes the entry to be
  have hafter : (archiveBytes pre).length + (dev.2.total + pad4 dev.2.total) =
      (archiveBytes (pre ++ [dev])).length := by
    rw [hfront, List.length_append, dev.2.length_bytes_of_data_eq_nil hdata]
  rw [main, hfind]
  dsimp only
  rw [findEntryEnd_entry hdrop]
  dsimp only
  rw [hafter, ← List.append_assoc, ← hfront, List.take_left, List.drop_left]

/-- The nodes read back as three entries of any layout. -/
theorem readAll_inserted (xs ys : List (Layout × Entry)) (lay : Layout) (rest : List UInt8) :
    readAll (xs.map Prod.fst ++ [lay, lay, lay] ++ ys.map Prod.fst)
        (archiveBytes xs ++ nodes ++ (archiveBytes ys ++ rest)) =
      some (xs.map (fun x => x.2.record) ++ nodeRecords ++ ys.map (fun x => x.2.record), rest) := by
  have hbytes : archiveBytes xs ++ nodes ++ (archiveBytes ys ++ rest) =
      archiveBytes (xs ++ nodeEntries.map (fun e => (lay, e)) ++ ys) ++ rest := by
    rw [nodes_eq lay]
    simp only [archiveBytes_append, List.append_assoc]
  have hlayouts : (nodeEntries.map fun e => (lay, e)).map Prod.fst = [lay, lay, lay] := rfl
  have hrecords :
      (nodeEntries.map fun e => (lay, e)).map (fun x => x.2.record) = nodeRecords := by
    rw [List.map_map, ← map_record_nodeEntries]
    rfl
  have hread := readAll_bytes (xs ++ nodeEntries.map (fun e => (lay, e)) ++ ys) rest
  rw [hbytes]
  simpa only [List.map_append, hlayouts, hrecords] using hread

/-- Without an entry named `dev` the search runs into the end of the archive. -/
theorem main_exits {xs : List (Layout × Entry)} (hfits : ∀ x ∈ xs, Fits x.2)
    (hno : ∀ x ∈ xs, ¬ IsDev x.2) (l : Layout) {last : Entry} (hlast : Fits last)
    (hname : last.name = ascii "TRAILER!!!") (k : ℕ) :
    main (archiveBytes xs ++ (last.bytes l ++ zeros k)) =
      .exited "no ./dev directory entry found in cpio" := by
  have hdrop : (archiveBytes xs ++ (last.bytes l ++ zeros k)).drop (archiveBytes xs).length =
      last.bytes l ++ zeros k := List.drop_left
  have hlastdev : ¬ IsDev last := by
    rw [IsDev, hname]
    decide
  have hfind : findDev (archiveBytes xs ++ (last.bytes l ++ zeros k)) 0 = none := by
    rw [findDev_archive hfits hno rfl (last.magic_prefix_bytes l _), Nat.zero_add,
      findDev_last hlast hlastdev hdrop]
  rw [main, hfind]

/-- **What `main` does to an archive.**  The three nodes go right behind the first
entry named `dev`, nothing else changes, and the result reads back entry by entry;
without such an entry nothing is written. -/
theorem main_archive (xs : List (Layout × Entry)) (hfits : ∀ x ∈ xs, Fits x.2) (l : Layout)
    (last : Entry) (hlast : Fits last) (hname : last.name = ascii "TRAILER!!!") (k : ℕ) :
    (∀ pre dev post, xs = pre ++ dev :: post → (∀ x ∈ pre, ¬ IsDev x.2) → IsDev dev.2 →
      dev.2.data = [] →
      ∃ out, main (archiveBytes xs ++ (last.bytes l ++ zeros k)) = .wrote out ∧
        out = archiveBytes (pre ++ [dev]) ++ nodes ++
          (archiveBytes post ++ (last.bytes l ++ zeros k)) ∧
        ∀ lay, readAll ((pre ++ [dev]).map Prod.fst ++ [lay, lay, lay] ++
            (post.map Prod.fst ++ [l])) out =
          some ((pre ++ [dev]).map (fun x => x.2.record) ++ nodeRecords ++
            (post.map (fun x => x.2.record) ++ [last.record]), zeros k)) ∧
    ((∀ x ∈ xs, ¬ IsDev x.2) → main (archiveBytes xs ++ (last.bytes l ++ zeros k)) =
      .exited "no ./dev directory entry found in cpio") := by
  refine ⟨?_, fun hno => main_exits hfits hno l hlast hname k⟩
  rintro pre dev post rfl hpre hdev hdata
  obtain ⟨hfpre, hfdev, -⟩ : (∀ x ∈ pre, Fits x.2) ∧ Fits dev.2 ∧ ∀ x ∈ post, Fits x.2 := by
    simpa only [List.forall_mem_append, List.forall_mem_cons] using hfits
  have hd : archiveBytes (pre ++ dev :: post) ++ (last.bytes l ++ zeros k) =
      archiveBytes pre ++
        (dev.2.bytes dev.1 ++ (archiveBytes post ++ (last.bytes l ++ zeros k))) := by
    simp only [archiveBytes_append, archiveBytes_cons, List.append_assoc]
  refine ⟨_, ?_, rfl, fun lay => ?_⟩
  · rw [hd, main_inserts hfpre hpre hfdev hdev hdata]
  · have hread := readAll_inserted (pre ++ [dev]) (post ++ [(l, last)]) lay (zeros k)
    rw [archiveBytes_append post, archiveBytes_cons, archiveBytes_nil, List.append_nil,
      List.append_assoc (archiveBytes post)] at hread
    simpa only [List.map_append, List.map_cons, List.map_nil] using hread

/-- A directory named `dev`. -/
def devDirectory : Item := { name := "dev", data := .bytes [], mode := 0o040755 }

/-- A trailer. -/
def trailerItem : Item := { name := "TRAILER!!!", data := .bytes [], mode := 0 }

/-- A file with data, and a link. -/
def initFile : Item := { name := "init", data := .str "#!/bin/sh\n", mode := 0o100755 }
def shellLink : Item := { name := "sh", data := .str "init", mode := 0o120777 }

/-- The hypotheses are satisfiable: a file and a link stand in front of `dev`, in one layout and
in the other, and the same two behind it. -/
theorem main_archive_devDirectory :
    let file := compactEntry initFile (by decide)
    let link := compactEntry shellLink (by decide)
    let dev := compactEntry devDirectory (by decide)
    let last := compactEntry trailerItem (by decide)
    ∃ out, main (archiveBytes [(.compact, file), (.standard, link), (.standard, dev),
        (.standard, file), (.compact, link)] ++ (last.bytes .compact ++ zeros 4)) = .wrote out ∧
      readAll [.compact, .standard, .standard, .standard, .standard, .standard, .standard, .compact,
          .compact] out =
        some ([file.record, link.record, dev.record] ++ nodeRecords ++
          [file.record, link.record, last.record], zeros 4) := by
  intro file link dev last
  have hfits : ∀ x ∈ [(Layout.compact, file), (.standard, link), (.standard, dev),
      (.standard, file), (.compact, link)], Fits x.2 := by decide
  obtain ⟨out, hmain, -, hread⟩ :=
    (main_archive _ hfits .compact last ⟨by decide, by decide⟩ rfl 4).1
      [(.compact, file), (.standard, link)] (.standard, dev) [(.standard, file), (.compact, link)]
      rfl (by decide) (show IsDev dev by decide) rfl
  exact ⟨out, hmain, hread .standard⟩

end DevNodes
end Cpio
end Twrp

/-
# Names that are not ASCII

The name size in a header counts bytes, and both encoders write `len(name) + 1`, which
counts characters.  The two agree exactly on names in ASCII (`length_encode_le_iff`): only
then does a reader find the name, and the entry behind it, where the header says
(`readAll_written_iff`).  No name can save the archive of `pack_cpio.py` as a whole: its
trailer has no name size at all (`readEntry_trailerBody`).
-/

import Twrp.Cpio.Reader
import Twrp.Cpio.Pack
import Twrp.Cpio.DevNodes

namespace Twrp
namespace Cpio

open Bytes

/-- An item whose numbers and lengths fit the format, under any name. -/
structure Item.Encodable (i : Item) : Prop where
  name_lt : (encode i.name).length + 1 < 2 ^ 32
  data_lt : i.data.encoded.length < 2 ^ 32
  mode_lt : i.mode < 2 ^ 32
  uid_lt : i.uid < 2 ^ 32
  gid_lt : i.gid < 2 ^ 32
  rdevMajor_lt : i.rdevMajor < 2 ^ 32
  rdevMinor_lt : i.rdevMinor < 2 ^ 32
  ino_lt : ∀ n ∈ i.ino, n < 2 ^ 32

instance (i : Item) : Decidable i.Encodable :=
  decidable_of_iff ((encode i.name).length + 1 < 2 ^ 32 ∧ i.data.encoded.length < 2 ^ 32 ∧
      i.mode < 2 ^ 32 ∧ i.uid < 2 ^ 32 ∧ i.gid < 2 ^ 32 ∧ i.rdevMajor < 2 ^ 32 ∧
      i.rdevMinor < 2 ^ 32 ∧ ∀ n ∈ i.ino, n < 2 ^ 32)
    ⟨fun ⟨h1, h2, h3, h4, h5, h6, h7, h8⟩ => ⟨h1, h2, h3, h4, h5, h6, h7, h8⟩,
      fun h => ⟨h.1, h.2, h.3, h.4, h.5, h.6, h.7, h.8⟩⟩

/-- The record says what the item says. -/
structure Matches (i : Item) (r : Record) : Prop where
  name : r.name = encode i.name
  data : r.data = i.data.encoded
  mode : r.fields[1]? = some i.mode
  rdevmajor : r.fields[9]? = some i.rdevMajor
  rdevminor : r.fields[10]? = some i.rdevMinor

/-- Read in the layout `l`, the archive is one entry for each item, and `rest`. -/
def ReadsBack (l : Layout) (items : List Item) (d rest : List UInt8) : Prop :=
  ∃ rs, readAll (items.map fun _ => l) d = some (rs, rest) ∧ List.Forall₂ Matches items rs

/-- Read in the standard layout, the archive is one entry for each item, and the trailer. -/
def ReadsToTrailer (items : List Item) (d : List UInt8) : Prop :=
  ∃ rs r rest, readAll (items.map (fun _ => .standard) ++ [.standard]) d = some (rs ++ [r], rest) ∧
    List.Forall₂ Matches items rs ∧ r.name = ascii "TRAILER!!!"

/-! ### Characters and bytes -/

theorem length_encode (s : String) :
    s.length ≤ (encode s).length ∧ ((encode s).length ≤ s.length ↔ IsAscii s) := by
  have hall : ∀ cs : List Char, cs.length ≤ (cs.flatMap String.utf8EncodeChar).length ∧
      ((cs.flatMap String.utf8EncodeChar).length ≤ cs.length ↔ ∀ c ∈ cs, c.toNat < 128) := by
    intro cs
    induction cs with
    | nil => simp
    | cons c cs ih =>
      obtain ⟨hle, hiff⟩ := ih
      have hpos := c.utf8Size_pos
      have hone : c.utf8Size ≤ 1 ↔ c.toNat < 128 := by
        have hval := Char.utf8Size_eq_one_iff (c := c)
        rw [UInt32.le_iff_toNat_le] at hval
        exact ⟨fun h => Nat.lt_succ_of_le (hval.1 (by omega)),
          fun h => (hval.2 (Nat.le_of_lt_succ h)).le⟩
      rw [List.flatMap_cons, List.length_append, String.length_utf8EncodeChar, List.length_cons,
        List.forall_mem_cons, ← hiff, ← hone]
      omega
  have := hall s.toList
  rwa [String.length_toList] at this

/-! ### What is written -/

/-- `b` is what an encoder writes for the item `i`: a well-formed entry if its name is ASCII,
and under any name a header that gives the number of its characters. -/
structure Written (l : Layout) (i : Item) (b : List UInt8) : Prop where
  entry : IsAscii i.name → ∃ e : Entry, b = e.bytes l ∧ Encodes i e
  namesize : ∀ r, hexValue (slice (b ++ r) 94 8) = i.name.length + 1

theorem Item.Encodable.valid {i : Item} (h : i.Encodable) (ha : IsAscii i.name) : i.Valid :=
  ⟨ha, by have := (length_encode i.name).1; have := h.name_lt; omega, h.data_lt, h.mode_lt,
    h.uid_lt, h.gid_lt, h.rdevMajor_lt, h.rdevMinor_lt, h.ino_lt⟩

/-- The name size in a header that was formatted for the name `name`. -/
theorem namesize_header (a : Entry.Attrs) {name : String} (hname : name.length + 1 < 2 ^ 32)
    {size : ℕ} (hsize : size < 2 ^ 32) (x : List UInt8) :
    hexValue (slice (ascii "070701" ++ fmt08x a.ino ++ fmt08x a.mode ++ fmt08x a.uid ++
      fmt08x a.gid ++ fmt08x 1 ++ fmt08x 0 ++ fmt08x size ++ fmt08x 0 ++ fmt08x 0 ++
      fmt08x a.rdevmajor ++ fmt08x a.rdevminor ++ fmt08x (name.length + 1) ++ fmt08x 0 ++ x) 94 8) =
        name.length + 1 := by
  have hheader := Entry.header_pack a (ascii name) (zeros size)
    (by rw [length_ascii]; exact hname) (by rw [length_zeros]; exact hsize)
  simp only [length_ascii, length_zeros] at hheader
  rw [← hheader]
  exact (congrArg hexValue (Entry.slice_header _ 11 (by omega) x)).trans
    ((Entry.namesize_eq _).trans (congrArg (· + 1) (length_ascii name)))

namespace Pack

/-- What `pack_cpio.entry` writes. -/
theorem written_entryBody {i : Item} (h : i.Encodable) {ino : ℕ} (hino : ino < 2 ^ 32) :
    Written .standard i (entryBody i ino) where
  entry := fun ha => ⟨_, entryBody_eq i (h.valid ha) ino hino, encodes_itemEntry ..⟩
  namesize := fun r => by
    have hname : i.name.length + 1 < 2 ^ 32 :=
      lt_of_le_of_lt (Nat.succ_le_succ (length_encode i.name).1) h.name_lt
    unfold entryBody
    dsimp only
    rw [List.append_assoc _ _ r, List.append_assoc _ _ (_ ++ r), List.append_assoc _ _ (_ ++ _),
      List.append_assoc _ [0], List.append_assoc _ (encode i.name)]
    exact namesize_header ⟨ino, i.mode, i.uid, i.gid, i.rdevMajor, i.rdevMinor, hino, h.mode_lt,
      h.uid_lt, h.gid_lt, h.rdevMajor_lt, h.rdevMinor_lt⟩ hname h.data_lt _

end Pack

namespace DevNodes

/-- What `insert_devnodes.entry` writes. -/
theorem written_entry {i : Item} (h : i.Encodable) :
    Written .compact i (entry i.name i.data i.mode i.rdevMajor i.rdevMinor) where
  entry := fun ha => ⟨_, entry_eq i (h.valid ha), encodes_compactEntry i (h.valid ha)⟩
  namesize := fun r => by
    have hname : i.name.length + 1 < 2 ^ 32 :=
      lt_of_le_of_lt (Nat.succ_le_succ (length_encode i.name).1) h.name_lt
    unfold entry
    dsimp only
    rw [List.append_assoc _ _ r, List.append_assoc _ _ (_ ++ r), List.append_assoc _ [0],
      List.append_assoc _ (encode i.name)]
    exact namesize_header ⟨0, i.mode, 0, 0, i.rdevMajor, i.rdevMinor, by omega, h.mode_lt,
      by omega, by omega, h.rdevMajor_lt, h.rdevMinor_lt⟩ hname h.data_lt _

end DevNodes

/-! ### What is read -/

theorem Encodes.matches {i : Item} {e : Entry} (h : Encodes i e) (ha : IsAscii i.name) :
    Matches i e.record where
  name := h.name.trans (encode_eq_ascii ha).symm
  data := h.data
  mode := congrArg some h.mode
  rdevmajor := congrArg some h.rdevmajor
  rdevminor := congrArg some h.rdevminor

/-- A name that is read is no longer than its header says. -/
theorem length_name_lt {l : Layout} {s s' : List UInt8} {r : Record}
    (h : readEntry l s = some (r, s')) : r.name.length < hexValue (slice s 94 8) := by
  unfold readEntry at h
  dsimp only at h
  split_ifs at h with hc
  obtain ⟨rfl, -⟩ := Prod.mk.inj (Option.some.inj h)
  have hpos := hc.2.2.1
  rw [length_slice]
  omega

/-- **A name reads back** only if it has as many bytes as characters. -/
theorem Written.isAscii {l : Layout} {i : Item} {b x s' : List UInt8} {r : Record}
    (hw : Written l i b) (h : readEntry l (b ++ x) = some (r, s')) (hm : Matches i r) :
    IsAscii i.name := by
  have hlen := length_name_lt h
  rw [hw.namesize x, hm.name] at hlen
  exact (length_encode i.name).2.1 (Nat.le_of_lt_succ hlen)

theorem readAll_cons {l : Layout} {ls : List Layout} {d rest : List UInt8} {rs : List Record}
    (h : readAll (l :: ls) d = some (rs, rest)) :
    ∃ r d' rs', readEntry l d = some (r, d') ∧ readAll ls d' = some (rs', rest) ∧
      rs = r :: rs' := by
  simp only [readAll, Option.bind_eq_bind, Option.bind_eq_some_iff, Option.some.injEq,
    Prod.mk.injEq] at h
  obtain ⟨⟨r, d'⟩, hr, ⟨rs', rest'⟩, hrs, rfl, rfl⟩ := h
  exact ⟨r, d', rs', hr, hrs, rfl⟩

section Archive

variable {l : Layout} {items : List Item} {bs : List (List UInt8)}

/-- Names in ASCII read back, with everything else. -/
theorem readsBack_of_isAscii (hw : List.Forall₂ (Written l) items bs)
    (ha : ∀ i ∈ items, IsAscii i.name) (rest : List UInt8) :
    ReadsBack l items (bs.flatten ++ rest) rest := by
  induction hw with
  | nil => exact ⟨[], rfl, .nil⟩
  | @cons i b items bs hib _ ih =>
    obtain ⟨hai, has⟩ := List.forall_mem_cons.1 ha
    obtain ⟨e, rfl, henc⟩ := hib.entry hai
    obtain ⟨rs, hrs, hmatch⟩ := ih has
    refine ⟨e.record :: rs, ?_, .cons (henc.matches hai) hmatch⟩
    rw [List.map_cons, List.flatten_cons, List.append_assoc, readAll, readEntry_bytes]
    exact congrArg (Option.bind · _) hrs

/-- What reads back has names in ASCII, and is followed by what follows the entries. -/
theorem isAscii_of_readAll (hw : List.Forall₂ (Written l) items bs) {x rest : List UInt8}
    {rs : List Record} (hread : readAll (items.map fun _ => l) (bs.flatten ++ x) = some (rs, rest))
    (hmatch : List.Forall₂ Matches items rs) : ∀ i ∈ items, IsAscii i.name := by
  induction hw generalizing rs with
  | nil => exact fun i hi => absurd hi List.not_mem_nil
  | @cons i b items bs hib _ ih =>
    obtain ⟨r, d', rs', hr, hrs, rfl⟩ := readAll_cons hread
    obtain ⟨hm, hms⟩ := List.forall₂_cons.1 hmatch
    rw [List.flatten_cons, List.append_assoc] at hr
    have hai := hib.isAscii hr hm
    obtain ⟨e, rfl, -⟩ := hib.entry hai
    rw [readEntry_bytes] at hr
    obtain ⟨-, rfl⟩ := Prod.mk.inj (Option.some.inj hr)
    exact List.forall_mem_cons.2 ⟨hai, ih hrs hms⟩

/-- **Entries read back exactly when their names are ASCII.** -/
theorem readsBack_iff (hw : List.Forall₂ (Written l) items bs) (rest : List UInt8) :
    ReadsBack l items (bs.flatten ++ rest) rest ↔ ∀ i ∈ items, IsAscii i.name :=
  ⟨fun ⟨_, hread, hmatch⟩ => isAscii_of_readAll hw hread hmatch,
    fun ha => readsBack_of_isAscii hw ha rest⟩

end Archive

/-! ### Whole archives -/

theorem readAll_append (ls ms : List Layout) (d : List UInt8) :
    readAll (ls ++ ms) d =
      (readAll ls d).bind fun x => (readAll ms x.2).bind fun y => some (x.1 ++ y.1, y.2) := by
  induction ls generalizing d with
  | nil => cases h : readAll ms d <;> simp [readAll, h]
  | cons l ls ih =>
    simp only [List.cons_append, readAll, ih, Option.bind_eq_bind, Option.bind_assoc,
      Option.bind_some]

/-- An entry begins with the magic, and with a hundred and ten digits. -/
theorem header_of_readEntry {l : Layout} {s : List UInt8} {x : Record × List UInt8}
    (h : readEntry l s = some x) : magic <+: s ∧ ∀ c ∈ s.take 110, (hexDigit? c).isSome := by
  unfold readEntry at h
  dsimp only at h
  split_ifs at h with hc
  obtain ⟨⟨rest, rfl⟩, hhex, -⟩ := hc
  have hsplit : (magic ++ rest).take 110 = magic ++ slice (magic ++ rest) 6 104 := by
    rw [show 110 = 6 + 104 from rfl, List.take_add, slice, ← length_magic, List.take_left]
  refine ⟨List.prefix_append .., fun c hmem => ?_⟩
  rw [hsplit] at hmem
  rcases List.mem_append.1 hmem with hmem | hmem
  · have hmagic : magic.all fun c => (hexDigit? c).isSome := by decide
    exact List.all_eq_true.1 hmagic c hmem
  · exact List.all_eq_true.1 hhex c hmem

/-- **Nothing in the trailer reads** as an entry.  What begins in front of its name has the
name where an entry has numbers, and behind that there is no magic. -/
theorem readEntry_trailerBody {ino : ℕ} (h : ino < 2 ^ 32) (l : Layout) (k : ℕ) :
    readEntry l ((Pack.trailerBody ino).drop k) = none := by
  obtain ⟨nums, hnums, hrun⟩ := Pack.trailerBody_fields h
  have hpre : (magic ++ nums).length = 94 := by
    rw [List.length_append, length_magic, hnums]
  rw [Option.eq_none_iff_forall_ne_some]
  intro y hy
  obtain ⟨⟨rest, hmagic⟩, hhex⟩ := header_of_readEntry hy
  rcases Nat.lt_or_ge 94 k with hk | hk
  · -- the magic begins with a zero, and there is none from here on
    have hmem : (48 : UInt8) ∈ (Pack.trailerBody ino).drop k := by
      rw [← hmagic]
      exact List.mem_append_left _ (by decide)
    rw [hrun, List.drop_append, List.drop_of_length_le (by omega), List.nil_append] at hmem
    rcases List.mem_append.1 (List.mem_of_mem_drop hmem) with hmem | hmem
    · exact absurd hmem (by decide)
    · exact absurd (eq_zero_of_mem_zeros hmem) (by decide)
  · have hmem : (84 : UInt8) ∈ ((Pack.trailerBody ino).drop k).take 110 := by
      rw [hrun, List.drop_append_of_le_length (by omega), List.take_append]
      refine List.mem_append_right _ ?_
      rw [List.length_drop, hpre]
      obtain ⟨n, hn⟩ : ∃ n, 110 - (94 - k) = n + 1 := ⟨15 + k, by omega⟩
      rw [hn]
      exact List.mem_cons_self ..
    exact absurd (hhex 84 hmem) (by decide)

/-- Reading to the trailer is reading the entries, and one more. -/
theorem ReadsToTrailer.split {items : List Item} {d : List UInt8} (h : ReadsToTrailer items d) :
    ∃ rs rest, readAll (items.map fun _ => .standard) d = some (rs, rest) ∧
      List.Forall₂ Matches items rs ∧ ∃ x, readEntry .standard rest = some x := by
  obtain ⟨rs, r, rest, hread, hmatch, -⟩ := h
  rw [readAll_append] at hread
  obtain ⟨⟨rs', d'⟩, hfront, hback⟩ := Option.bind_eq_some_iff.1 hread
  obtain ⟨⟨rs'', d''⟩, hlast, hsome⟩ := Option.bind_eq_some_iff.1 hback
  obtain ⟨r', d₁, rs₁, hr, hnil, rfl⟩ := readAll_cons hlast
  simp only [readAll, Option.some.injEq, Prod.mk.injEq] at hnil hsome
  obtain ⟨rfl, -⟩ := hnil
  obtain ⟨rfl, -⟩ := List.append_inj' hsome.1 rfl
  exact ⟨rs', d', hfront, hmatch, _, hr⟩

/-- Whatever the entries are, there is no trailer behind them. -/
theorem not_readsToTrailer {items : List Item} {bs : List (List UInt8)}
    (hw : List.Forall₂ (Written .standard) items bs) {ino : ℕ} (hino : ino < 2 ^ 32) :
    ¬ ReadsToTrailer items (bs.flatten ++ Pack.trailerBody ino) := by
  intro h
  obtain ⟨rs, d', hfront, hmatch, x, hx⟩ := h.split
  -- the entries read back, so what is left is the trailer
  obtain ⟨rs', hread, -⟩ := readsBack_of_isAscii hw (isAscii_of_readAll hw hfront hmatch)
    (Pack.trailerBody ino)
  rw [hfront] at hread
  obtain ⟨-, rfl⟩ := Prod.mk.inj (Option.some.inj hread)
  have hnone := readEntry_trailerBody hino .standard 0
  rw [List.drop_zero, hx] at hnone
  exact absurd hnone (by simp)

/-- **What the encoders delimit.**  The entries of both read back exactly when all names
are ASCII, whatever follows them.  With the trailer of `pack_cpio.py` behind them they
never do. -/
theorem selfDelimiting_iff (items : List Item) (h : ∀ i ∈ items, i.Encodable) (c : ℕ)
    (hc : c + Pack.drawn items < 2 ^ 32) :
    ¬ ReadsToTrailer items (Pack.archive items c).1 ∧
      (∀ rest, ReadsBack .standard items ((Pack.entries items c).1.flatten ++ rest) rest ↔
        ∀ i ∈ items, IsAscii i.name) ∧
      ∀ rest, ReadsBack .compact items (items.flatMap (fun i =>
          DevNodes.entry i.name i.data i.mode i.rdevMajor i.rdevMinor) ++ rest) rest ↔
        ∀ i ∈ items, IsAscii i.name := by
  obtain ⟨bs, hbs, hpack⟩ := Pack.entries_forall₂ (fun i hi => (h i hi).ino_lt)
    (fun i hi ino hino => Pack.written_entryBody (h i hi) hino) hc.le
  have hcompact : List.Forall₂ (Written .compact) items (items.map fun i =>
      DevNodes.entry i.name i.data i.mode i.rdevMajor i.rdevMinor) :=
    List.forall₂_map_right_iff.2 (List.forall₂_same.2 fun i hi => DevNodes.written_entry (h i hi))
  refine ⟨?_, fun rest => ?_, fun rest => ?_⟩
  · rw [Pack.archive_eq, hbs]
    exact not_readsToTrailer hpack hc
  · rw [hbs]
    exact readsBack_iff hpack rest
  · rw [List.flatMap_def]
    exact readsBack_iff hcompact rest

/-- A directory, a file with data, a link and a device. -/
def fewItems : List Item :=
  [{ name := "dev/", data := .bytes [], mode := 0o040755 },
    { name := "init", data := .str "#!/bin/sh\n", mode := 0o100755 },
    { name := "sh", data := .str "init", mode := 0o120777 },
    { name := "dev/null", data := .bytes [], mode := 0o020666, rdevMajor := 1, rdevMinor := 3 }]

/-- The hypotheses are satisfiable: their names are ASCII, and both encoders delimit them. -/
theorem selfDelimiting_fewItems :
    ReadsBack .standard fewItems ((Pack.entries fewItems Pack.firstIno).1.flatten ++ []) [] ∧
      ReadsBack .compact fewItems (fewItems.flatMap (fun i =>
        DevNodes.entry i.name i.data i.mode i.rdevMajor i.rdevMinor) ++ []) [] := by
  obtain ⟨-, hpack, hcompact⟩ :=
    selfDelimiting_iff fewItems (by decide) Pack.firstIno (by decide)
  exact ⟨(hpack []).2 (by decide), (hcompact []).2 (by decide)⟩

/-- An empty file of a given name. -/
def emptyFile (name : String) : Item := { name := name, data := .bytes [], mode := 0o100644 }

/-- **One accent.**  The name of the file has two bytes and one character, and neither
encoder's entry reads back. -/
theorem not_readsBack_accent :
    (emptyFile "é").Encodable ∧ Char.ofNat 0 ∉ "é".toList ∧
      ¬ ReadsToTrailer [emptyFile "é"] (Pack.archive [emptyFile "é"] Pack.firstIno).1 ∧
      ¬ ReadsBack .compact [emptyFile "é"] (DevNodes.entry "é" (.bytes []) 0o100644 0 0) [] := by
  have hpack : readAll [.standard, .standard]
      (Pack.archive [emptyFile "é"] Pack.firstIno).1 = none := by decide +kernel
  have hcompact : readAll [.compact] (DevNodes.entry "é" (.bytes []) 0o100644 0 0) = none := by
    decide +kernel
  refine ⟨by decide, by decide, ?_, ?_⟩
  · rintro ⟨rs, r, rest, hread, -⟩
    exact absurd (hpack.symm.trans hread) (by simp)
  · rintro ⟨rs, hread, -⟩
    exact absurd (hcompact.symm.trans hread) (by simp)

end Cpio
end Twrp

/-
# What an archive of `pack_dir` says about the tree

Read back entry by entry, does the archive describe every object and every device once and
nothing else, each with its type, permission bits, contents and path?  Exactly when the
numbers fit and no link leads to a directory (`packDir_decodes_iff`): such a link is among the
`dirnames` of `os.walk`, and is packed as an empty directory.  The archive has no readable
trailer behind its entries, whatever the tree.
-/

import Twrp.Cpio.Names
import Twrp.Cpio.PackDir

namespace Twrp
namespace Cpio

open Bytes

/-! ### What the archive should say -/

/-- What an archive should say about an object.  The name of a directory ends in a slash. -/
def Obj.item (o : Obj) : Item :=
  match o.node with
  | .dir perm => { name := o.path ++ "/", data := .bytes [], mode := dirMode perm }
  | .file perm data => { name := o.path, data := .bytes data, mode := fileMode perm }
  | .link target _ => { name := o.path, data := .str target, mode := linkMode }
  | .device mode major minor =>
    { name := o.path, data := .bytes [], mode := mode, rdevMajor := major, rdevMinor := minor }

/-- A link that leads to a directory. -/
def Obj.LinkToDir (o : Obj) : Prop := ∃ target, o.node = .link target true

instance (o : Obj) : Decidable o.LinkToDir :=
  match h : o.node with
  | .link target true => isTrue ⟨target, h⟩
  | .link _ false => isFalse fun ⟨_, h'⟩ => by simp [h] at h'
  | .dir _ => isFalse fun ⟨_, h'⟩ => by simp [h] at h'
  | .file _ _ => isFalse fun ⟨_, h'⟩ => by simp [h] at h'
  | .device _ _ _ => isFalse fun ⟨_, h'⟩ => by simp [h] at h'

/-- Read in the standard layout, the archive is one entry for each object, in some order, and
none behind them, wherever one starts to read. -/
def Decodes (objs : List Obj) (d : List UInt8) : Prop :=
  ∃ items rest, items.Perm (objs.map Obj.item) ∧ ReadsBack .standard items d rest ∧
    ∀ l k, readEntry l (rest.drop k) = none

/-- And then a trailer. -/
def DecodesToTrailer (objs : List Obj) (d : List UInt8) : Prop :=
  ∃ items, items.Perm (objs.map Obj.item) ∧ ReadsToTrailer items d

/-! ### What it does say -/

theorem S_IMODE_or {fmt : ℕ} (hfmt : fmt &&& 0o7777 = 0) (perm : ℕ) :
    S_IMODE (fmt ||| S_IMODE perm) ||| fmt = fmt ||| S_IMODE perm := by
  have hmode : S_IMODE (fmt ||| S_IMODE perm) = S_IMODE perm := by
    unfold S_IMODE
    rw [Nat.and_or_distrib_right, hfmt, Nat.zero_or, Nat.and_assoc, Nat.and_self]
  rw [hmode, Nat.or_comm]

/-- **Everything else is packed as it is.** -/
theorem packed_eq_item {o : Obj} (h : ¬ o.LinkToDir) : o.packed = o.item := by
  rcases o with ⟨path, perm | ⟨perm, data⟩ | ⟨target, toDir⟩ | ⟨mode, major, minor⟩⟩
  · exact congrArg (Item.mk _ _ · 0 0 0 0 none) (S_IMODE_or (by decide) perm)
  · exact congrArg (Item.mk _ _ · 0 0 0 0 none) (S_IMODE_or (by decide) perm)
  · cases toDir with
    | true => exact absurd ⟨target, rfl⟩ h
    | false => rfl
  · rfl

/-- The mode alone tells a link to a directory from what it is packed as. -/
theorem mode_packed_of_linkToDir {o : Obj} (h : o.LinkToDir) :
    o.item.mode = linkMode ∧ o.packed.mode ≠ linkMode := by
  obtain ⟨target, htarget⟩ := h
  obtain ⟨path, node⟩ := o
  subst htarget
  exact ⟨rfl, show S_IMODE linkMode ||| S_IFDIR ≠ linkMode by decide⟩

theorem isAscii_append {s t : String} (hs : IsAscii s) (ht : IsAscii t) : IsAscii (s ++ t) := by
  intro c hc
  rw [String.toList_append, List.mem_append] at hc
  exact hc.elim (hs c) (ht c)

theorem isAscii_packed {o : Obj} (h : IsAscii o.path) : IsAscii o.packed.name := by
  have hslash : IsAscii (o.path ++ "/") := isAscii_append h (by decide)
  rcases o with ⟨path, perm | ⟨perm, data⟩ | ⟨target, toDir⟩ | ⟨mode, major, minor⟩⟩
  · exact hslash
  · exact h
  · cases toDir
    · exact h
    · exact hslash
  · exact h

/-! ### What can be read -/

/-- A record whose numbers have eight hexadecimal digits. -/
structure Record.Bounded (r : Record) : Prop where
  name_lt : r.name.length + 1 < 2 ^ 32
  data_lt : r.data.length < 2 ^ 32
  field_lt : ∀ i n : ℕ, r.fields[i]? = some n → n < 2 ^ 32

/-- Eight hexadecimal digits are a number of 32 bits. -/
theorem hexValue_slice_lt (s : List UInt8) (i : ℕ) : hexValue (slice s i 8) < 2 ^ 32 := by
  refine lt_of_lt_of_le (hexValue_lt _) ?_
  rw [show (2 : ℕ) ^ 32 = 16 ^ 8 from rfl]
  exact Nat.pow_le_pow_right (by omega) (by rw [length_slice]; omega)

/-- Whatever is read has such numbers. -/
theorem bounded_of_readEntry {l : Layout} {s s' : List UInt8} {r : Record}
    (h : readEntry l s = some (r, s')) : r.Bounded := by
  unfold readEntry at h
  dsimp only at h
  split_ifs at h with hc
  obtain ⟨rfl, -⟩ := Prod.mk.inj (Option.some.inj h)
  have hname := hexValue_slice_lt s 94
  have hdata := hexValue_slice_lt s 54
  have hpos := hc.2.2.1
  refine ⟨?_, ?_, fun i n hn => ?_⟩
  · rw [length_slice]
    omega
  · rw [length_slice]
    omega
  · obtain ⟨j, -, rfl⟩ := List.mem_map.1 (List.mem_of_getElem? hn)
    exact hexValue_slice_lt s _

theorem bounded_of_readAll {ls : List Layout} {s rest : List UInt8} {rs : List Record}
    (h : readAll ls s = some (rs, rest)) : ∀ r ∈ rs, r.Bounded := by
  induction ls generalizing s rs with
  | nil =>
    obtain ⟨rfl, -⟩ := Prod.mk.inj (Option.some.inj h)
    exact fun r hr => absurd hr List.not_mem_nil
  | cons l ls ih =>
    obtain ⟨r, s', rs', hr, hrs, rfl⟩ := readAll_cons h
    exact List.forall_mem_cons.2 ⟨bounded_of_readEntry hr, ih hrs⟩

/-- What is read fits the format. -/
theorem encodable_item {o : Obj} {r : Record} (h : Matches o.item r) (hr : r.Bounded) :
    o.item.Encodable := by
  have huid : o.item.uid = 0 ∧ o.item.gid = 0 ∧ o.item.ino = none := by
    rcases o with ⟨path, perm | ⟨perm, data⟩ | ⟨target, toDir⟩ | ⟨mode, major, minor⟩⟩ <;>
      exact ⟨rfl, rfl, rfl⟩
  obtain ⟨huid, hgid, hino⟩ := huid
  refine ⟨?_, ?_, hr.field_lt _ _ h.mode, by omega, by omega, hr.field_lt _ _ h.rdevmajor,
    hr.field_lt _ _ h.rdevminor, by rw [hino]; exact fun n hn => absurd hn (by simp)⟩
  · rw [← h.name]
    exact hr.name_lt
  · rw [← h.data]
    exact hr.data_lt

/-- A directory fits the format under a path of a file system. -/
theorem encodable_dirItem {path : String} (ha : IsAscii path) (h : path.length < 4096) {mode : ℕ}
    (hmode : S_IMODE mode ||| S_IFDIR < 2 ^ 32) : (dirItem path mode).Encodable where
  name_lt := by
    have hname : IsAscii (path ++ "/") := isAscii_append ha (by decide)
    have hone : "/".length = 1 := by decide
    show (encode (path ++ "/")).length + 1 < 2 ^ 32
    rw [encode_eq_ascii hname, length_ascii, String.length_append]
    omega
  data_lt := show 0 < 2 ^ 32 by decide
  mode_lt := hmode
  uid_lt := show 0 < 2 ^ 32 by decide
  gid_lt := show 0 < 2 ^ 32 by decide
  rdevMajor_lt := show 0 < 2 ^ 32 by decide
  rdevMinor_lt := show 0 < 2 ^ 32 by decide
  ino_lt := fun n hn => absurd hn (by simp [dirItem])

/-- What fits the format as it is fits it as it is packed. -/
theorem encodable_packed {o : Obj} (h : o.item.Encodable) (ha : IsAscii o.path)
    (hpath : o.LinkToDir → o.path.length < 4096) : o.packed.Encodable := by
  by_cases hlink : o.LinkToDir
  · have hlen := hpath hlink
    obtain ⟨target, htarget⟩ := hlink
    obtain ⟨path, node⟩ := o
    subst htarget
    exact encodable_dirItem ha hlen (by decide)
  · rwa [packed_eq_item hlink]

/-- Lists that are matched by the same records have the same modes. -/
theorem modes_eq {is js : List Item} {rs : List Record} (h : List.Forall₂ Matches is rs)
    (h' : List.Forall₂ Matches js rs) : is.map Item.mode = js.map Item.mode := by
  induction h generalizing js with
  | nil => rw [List.forall₂_nil_right_iff.1 h']
  | cons hir _ ih =>
    obtain ⟨j, js, hjr, hjs, rfl⟩ := List.forall₂_cons_right_iff.1 h'
    rw [List.map_cons, List.map_cons, ih hjs, Option.some.inj (hir.mode.symm.trans hjr.mode)]

/-- A predicate that implies another, and holds equally often, is the other. -/
theorem forall_of_countP_eq {α : Type} {p q : α → Bool} {xs : List α}
    (hqp : ∀ x ∈ xs, q x → p x) (h : xs.countP p = xs.countP q) : ∀ x ∈ xs, p x → q x := by
  induction xs with
  | nil => exact fun x hx => absurd hx List.not_mem_nil
  | cons x xs ih =>
    obtain ⟨hx, hxs⟩ := List.forall_mem_cons.1 hqp
    have hle : xs.countP q ≤ xs.countP p := List.countP_mono_left hxs
    rw [List.countP_cons, List.countP_cons] at h
    refine List.forall_mem_cons.2 ⟨fun hp => ?_, ih hxs ?_⟩
    · by_contra hq
      rw [if_pos hp, if_neg hq] at h
      omega
    · by_cases hq : q x = true
      · rw [if_pos hq, if_pos (hx hq)] at h
        omega
      · rw [if_neg hq] at h
        omega

/-! ### Whole archives -/

/-- The layouts of two lists of one length. -/
theorem map_standard_eq {items : List Item} {objs : List Obj} {f : Obj → Item}
    (h : items.Perm (objs.map f)) :
    (items.map fun _ => Layout.standard) = objs.map fun _ => Layout.standard := by
  rw [List.map_const', List.map_const', h.length_eq, List.length_map]

section PackDir

variable {t : Tree} {devs : List Device} {c : ℕ}

/-- No device is a link. -/
theorem forall_linkToDir (h : ∀ o ∈ t.objects ".", o.path.length < 4096) (devs : List Device) :
    ∀ o ∈ objects t devs, o.LinkToDir → o.path.length < 4096 := by
  rintro o ho ⟨target, htarget⟩
  rcases List.mem_append.1 ho with ho | ho
  · obtain ⟨v, -, rfl⟩ := List.mem_map.1 ho
    exact absurd htarget (by simp)
  · exact h o ho

/-- **What a reader finds,** in an archive of objects that fit: what became of them, and
behind it the trailer. -/
theorem readAll_packDir (hname : ∀ o ∈ objects t devs, IsAscii o.path)
    (henc : ∀ o ∈ objects t devs, o.packed.Encodable)
    (hc : c + (objects t devs).length < 2 ^ 32) :
    ∃ items rs, items.Perm ((objects t devs).map Obj.packed) ∧ List.Forall₂ Matches items rs ∧
      readAll ((objects t devs).map fun _ => .standard) (packDir t devs c).1 =
        some (rs, Pack.trailerBody (c + (objects t devs).length)) := by
  obtain ⟨items, bs, hperm, hwritten, hbytes⟩ := packDir_entries
    (fun o ho ino hino => Pack.written_entryBody (henc o ho) hino) hc
  have hascii : ∀ i ∈ items, IsAscii i.name := by
    intro i hi
    obtain ⟨o, ho, rfl⟩ := List.mem_map.1 (hperm.mem_iff.1 hi)
    exact isAscii_packed (hname o ho)
  obtain ⟨rs, hrs, hmatch⟩ := readsBack_of_isAscii hwritten hascii
    (Pack.trailerBody (c + (objects t devs).length))
  exact ⟨items, rs, hperm, hmatch, by rw [hbytes, ← map_standard_eq hperm, hrs]⟩

/-- **What decodes fits,** and no link in it leads to a directory. -/
theorem of_decodes (hname : ∀ o ∈ objects t devs, IsAscii o.path)
    (hpath : ∀ o ∈ objects t devs, o.LinkToDir → o.path.length < 4096)
    (hc : c + (objects t devs).length < 2 ^ 32) {items : List Item} {rs : List Record}
    {rest : List UInt8} (hperm : items.Perm ((objects t devs).map Obj.item))
    (hread : readAll (items.map fun _ => .standard) (packDir t devs c).1 = some (rs, rest))
    (hmatch : List.Forall₂ Matches items rs) :
    (∀ o ∈ objects t devs, o.item.Encodable ∧ ¬ o.LinkToDir) ∧
      rest = Pack.trailerBody (c + (objects t devs).length) := by
  have hbound : ∀ i ∈ items, ∃ r, r.Bounded ∧ Matches i r :=
    forall_mem_of_forall₂ hmatch.flip (bounded_of_readAll hread) fun r i hr hm => ⟨r, hr, hm⟩
  have hitem : ∀ o ∈ objects t devs, o.item.Encodable := by
    intro o ho
    obtain ⟨r, hr, hm⟩ := hbound _ (hperm.mem_iff.2 (List.mem_map_of_mem ho))
    exact encodable_item hm hr
  obtain ⟨items', rs', hperm', hmatch', hread'⟩ := readAll_packDir hname
    (fun o ho => encodable_packed (hitem o ho) (hname o ho) (hpath o ho)) hc
  rw [map_standard_eq hperm, hread'] at hread
  obtain ⟨rfl, rfl⟩ := Prod.mk.inj (Option.some.inj hread)
  refine ⟨fun o ho => ⟨hitem o ho, fun hlink => ?_⟩, rfl⟩
  -- both lists of modes are the modes that are read
  have hmodes : ((objects t devs).map fun o => o.packed.mode).Perm
      ((objects t devs).map fun o => o.item.mode) := by
    have h := (hperm'.map Item.mode).symm.trans
      ((List.Perm.of_eq (modes_eq hmatch' hmatch)).trans (hperm.map Item.mode))
    rwa [List.map_map, List.map_map] at h
  have hcount := hmodes.countP_eq (· == linkMode)
  rw [List.countP_map, List.countP_map] at hcount
  have hall := forall_of_countP_eq (p := fun o : Obj => o.item.mode == linkMode)
    (q := fun o : Obj => o.packed.mode == linkMode) (fun o _ hq => ?_) hcount.symm o ho
  · obtain ⟨hmode, hne⟩ := mode_packed_of_linkToDir hlink
    exact hne (beq_iff_eq.1 (hall (beq_iff_eq.2 hmode)))
  · by_cases hl : o.LinkToDir
    · exact absurd (beq_iff_eq.1 hq) (mode_packed_of_linkToDir hl).2
    · rwa [← packed_eq_item hl]

/-- **When the archive describes the tree.**  Its entries do, once for every object and
every device, exactly when everything fits the format and no link leads to a directory.
Behind them there is never a trailer that can be read. -/
theorem packDir_decodes_iff (t : Tree) (devs : List Device)
    (hname : ∀ o ∈ objects t devs, IsAscii o.path)
    -- `lstat` fails for longer paths
    (hpath : ∀ o ∈ t.objects ".", o.path.length < 4096)
    (c : ℕ) (hc : c + (objects t devs).length < 2 ^ 32) :
    ¬ DecodesToTrailer (objects t devs) (packDir t devs c).1 ∧
      (Decodes (objects t devs) (packDir t devs c).1 ↔
        ∀ o ∈ objects t devs, o.item.Encodable ∧ ¬ o.LinkToDir) := by
  have hlink := forall_linkToDir hpath devs
  refine ⟨?_, ?_, fun h => ?_⟩
  · rintro ⟨items, hperm, htrailer⟩
    obtain ⟨rs, rest, hread, hmatch, x, hx⟩ := htrailer.split
    obtain ⟨-, rfl⟩ := of_decodes hname hlink hc hperm hread hmatch
    have hnone := readEntry_trailerBody hc .standard 0
    rw [List.drop_zero, hx] at hnone
    exact absurd hnone (by simp)
  · rintro ⟨items, rest, hperm, ⟨rs, hread, hmatch⟩, -⟩
    exact (of_decodes hname hlink hc hperm hread hmatch).1
  · have hitem : (objects t devs).map Obj.packed = (objects t devs).map Obj.item :=
      List.map_congr_left fun o ho => packed_eq_item (h o ho).2
    obtain ⟨items, rs, hperm, hmatch, hread⟩ := readAll_packDir hname
      (fun o ho => packed_eq_item (h o ho).2 ▸ (h o ho).1) hc
    exact ⟨items, _, hitem ▸ hperm, ⟨rs, by rw [map_standard_eq hperm, hread], hmatch⟩,
      readEntry_trailerBody hc⟩

end PackDir

/-- A file and a link to it in a directory, and a device. -/
def shellTree : Tree :=
  .dir "bin" 0o755 (.link "ash" "sh" false (.file "sh" 0o755 [35, 33] .empty)) .empty

/-- The null device. -/
def nullDevice : Device := ⟨"null", 0o020666, 1, 3⟩

/-- The hypotheses are satisfiable: a directory with a file and a link, and a device. -/
theorem packDir_decodes_shellTree :
    Decodes (objects shellTree [nullDevice]) (packDir shellTree [nullDevice] Pack.firstIno).1 :=
  (packDir_decodes_iff shellTree [nullDevice] (by decide) (by decide) Pack.firstIno
    (by decide)).2.2 (by decide)

/-- A directory and a link to it. -/
def linkTree : Tree := .link "l" "d" true (.dir "d" 0o755 .empty .empty)

/-- **A link to a directory** is packed as a directory, and nothing in the archive says
where it leads. -/
theorem not_decodes_linkTree :
    (∀ o ∈ objects linkTree [], IsAscii o.path) ∧
      ¬ Decodes (objects linkTree []) (packDir linkTree [] Pack.firstIno).1 := by
  refine ⟨by decide, ?_⟩
  rintro ⟨items, rest, hperm, ⟨rs, hread, hmatch⟩, -⟩
  have h := (of_decodes (by decide) (by decide) (by decide) hperm hread hmatch).1
  exact absurd h (by decide)

end Cpio
end Twrp

/-
# Inode numbers

`entry` draws its number when it is called, and the archive is put in order later.  So the
numbers increase along an archive of `pack_dir` exactly when the calls come in the order of
the sort already (`increasing_inos_iff`), and a directory that is listed in another order
gives another archive exactly when `os.walk` lists the paths in another order
(`packDir_reorder_iff`): the sort hides the order of the listing, the numbers show it.

`os.walk` lists the directories of a directory before its other names, so the order of the
names of a directory shows only among its directories and among its other names.
-/

import Twrp.Cpio.Emitted

namespace Twrp
namespace Cpio

open Bytes Sorting

/-! ### What `os.walk` lists -/

/-- The paths of one round, in the order in which they are packed. -/
def Visit.paths (v : Visit) : List String :=
  v.dirnames.map (fun d => below v.rel d.1) ++ v.filenames.map (fun f => below v.rel f.1)

/-- The paths that `os.walk` lists. -/
def Tree.walkPaths (t : Tree) : List String := t.walk.flatMap Visit.paths

theorem map_fst_items (v : Visit) : v.items.map Prod.fst = v.paths := by
  rw [Visit.items, Visit.paths, List.map_append, List.map_map, List.map_map]
  rfl

theorem map_fst_walk (t : Tree) : (t.walk.flatMap Visit.items).map Prod.fst = t.walkPaths := by
  rw [List.map_flatMap, Tree.walkPaths]
  exact List.flatMap_congr fun v _ => map_fst_items v

theorem map_fst_plan (t : Tree) (devs : List Device) :
    (plan t devs).map Prod.fst = devs.map Device.path ++ t.walkPaths := by
  rw [plan, List.map_append, List.map_map, map_fst_walk]
  rfl

/-! ### The numbers in an archive -/

namespace Pack

/-- Where the number stands in an entry; behind it nothing depends on the number up to the
NUL of the name. -/
theorem entryBody_split (i : Item) :
    ∃ fields, ∀ ino, ∃ rest,
      entryBody i ino = magic ++ (fmt08x ino ++ (fields ++ 0 :: rest)) := by
  refine ⟨fmt08x i.mode ++ (fmt08x i.uid ++ (fmt08x i.gid ++ (fmt08x 1 ++ (fmt08x 0 ++
    (fmt08x i.data.encoded.length ++ (fmt08x 0 ++ (fmt08x 0 ++ (fmt08x i.rdevMajor ++
    (fmt08x i.rdevMinor ++ (fmt08x (i.name.length + 1) ++ (fmt08x 0 ++ encode i.name))))))))))),
    fun ino => ?_⟩
  unfold entryBody magic
  simp only [List.append_assoc, List.cons_append, List.nil_append]
  exact ⟨_, rfl⟩

theorem trailerBody_split (ino : ℕ) :
    ∃ rest, trailerBody ino = magic ++ (fmt08x ino ++ rest) := by
  unfold trailerBody magic
  simp only [List.append_assoc]
  exact ⟨_, rfl⟩

/-- **The number can be read off,** whatever follows the entry: up to the NUL of the name it
moves everything by the number of its digits. -/
theorem entryBody_append_inj {i : Item} {a b : ℕ} {x y : List UInt8}
    (h : entryBody i a ++ x = entryBody i b ++ y) : a = b := by
  obtain ⟨fields, hfields⟩ := entryBody_split i
  obtain ⟨ra, ha⟩ := hfields a
  obtain ⟨rb, hb⟩ := hfields b
  rw [ha, hb] at h
  simp only [List.append_assoc, List.cons_append] at h
  have hdigits := congrArg (List.takeWhile fun c => (hexDigit? c).isSome)
    (List.append_cancel_left h)
  have hrun (n : ℕ) (z : List UInt8) :
      (fmt08x n ++ (fields ++ 0 :: z)).takeWhile (fun c => (hexDigit? c).isSome) =
        fmt08x n ++ fields.takeWhile fun c => (hexDigit? c).isSome := by
    rw [List.takeWhile_append_of_pos fun c hc => isSome_hexDigit?_of_mem_fmt08x hc,
      takeWhile_append_cons (by decide)]
  rw [hrun, hrun] at hdigits
  exact fmt08x_injective (List.append_cancel_right hdigits)

end Pack

/-- The number of an entry. -/
def inoField (b : List UInt8) : ℕ := hexValue (slice b 6 8)

theorem inoField_split {ino : ℕ} (h : ino < 2 ^ 32) (rest : List UInt8) :
    inoField (magic ++ (fmt08x ino ++ rest)) = ino := by
  rw [inoField, slice_append_middle length_magic.symm (length_fmt08x h).symm, hexValue_fmt08x]

theorem inoField_entryBody (i : Item) {ino : ℕ} (h : ino < 2 ^ 32) :
    inoField (Pack.entryBody i ino) = ino := by
  obtain ⟨fields, hfields⟩ := Pack.entryBody_split i
  obtain ⟨rest, hrest⟩ := hfields ino
  rw [hrest, inoField_split h]

theorem inoField_trailerBody {ino : ℕ} (h : ino < 2 ^ 32) :
    inoField (Pack.trailerBody ino) = ino := by
  obtain ⟨rest, hrest⟩ := Pack.trailerBody_split ino
  rw [hrest, inoField_split h]

/-- The pieces of the archive: its entries, and the trailer. -/
def pieces (t : Tree) (devs : List Device) (c : ℕ) : List (List UInt8) :=
  (emitted t devs c).map Call.blob ++ [Pack.trailerBody (c + (objects t devs).length)]

/-- The numbers of the archive, in its order. -/
def inos (t : Tree) (devs : List Device) (c : ℕ) : List ℕ := (pieces t devs c).map inoField

/-- Numbers that are not zero and increase. -/
structure Increasing (ns : List ℕ) : Prop where
  nonzero : ∀ n ∈ ns, n ≠ 0
  strict : ns.Pairwise (· < ·)

section Inos

variable {t : Tree} {devs : List Device} {c : ℕ}

theorem packDir_pieces : (packDir t devs c).1 = (pieces t devs c).flatten := by
  rw [packDir_emitted, pieces, List.flatten_append, List.flatten_singleton, List.flatMap_def]

theorem pairwise_ino_calls : (calls t devs c).Pairwise fun x y => x.ino < y.ino := by
  have h : ((calls t devs c).map Call.ino).Pairwise (· < ·) := by
    rw [map_ino_calls]
    exact List.pairwise_lt_range'
  exact List.pairwise_map.1 h

/-- The number field of every entry holds its number. -/
theorem inos_eq (hc : c + (objects t devs).length < 2 ^ 32) :
    inos t devs c = (emitted t devs c).map Call.ino ++ [c + (objects t devs).length] := by
  have hmap : (emitted t devs c).map (inoField ∘ Call.blob) = (emitted t devs c).map Call.ino := by
    refine List.map_congr_left fun x hx => ?_
    obtain ⟨-, hlt⟩ := ino_mem_emitted hx
    rw [Function.comp_apply, Call.blob, inoField_entryBody x.item (by omega)]
  rw [inos, pieces, List.map_append, List.map_map, List.map_singleton, inoField_trailerBody hc,
    hmap]

/-- **When the numbers increase along the archive:** when the devices and then the paths that
`os.walk` lists come in the order of the sort already. -/
theorem increasing_inos_iff (t : Tree) (devs : List Device)
    -- the counter starts there, and only counts up
    {c : ℕ} (hfirst : Pack.firstIno ≤ c) (hc : c + (objects t devs).length < 2 ^ 32) :
    (packDir t devs c).1 = (pieces t devs c).flatten ∧
      (Increasing (inos t devs c) ↔
        (devs.map Device.path ++ t.walkPaths).Pairwise fun p q => pathKey p ≤ pathKey q) := by
  have hplan : ((devs.map Device.path ++ t.walkPaths).Pairwise fun p q => pathKey p ≤ pathKey q) ↔
      (calls t devs c).Pairwise (KeyLE Call.key) := by
    rw [← map_fst_plan, ← map_named_calls t devs c, List.map_map, List.pairwise_map]
    rfl
  have hstrict : (inos t devs c).Pairwise (· < ·) ↔
      (emitted t devs c).Pairwise fun x y => x.ino < y.ino := by
    rw [inos_eq hc, List.pairwise_append, List.pairwise_map]
    refine ⟨fun h => h.1, fun h => ⟨h, List.pairwise_singleton _ _, fun n hn m hm => ?_⟩⟩
    -- the number of the trailer is drawn last
    obtain ⟨x, hx, rfl⟩ := List.mem_map.1 hn
    rw [List.mem_singleton.1 hm]
    exact (ino_mem_emitted hx).2
  have hnonzero : ∀ n ∈ inos t devs c, n ≠ 0 := by
    have hpos : 0 < c := lt_of_lt_of_le (by decide) hfirst
    intro n hn
    rw [inos_eq hc] at hn
    rcases List.mem_append.1 hn with hn | hn
    · obtain ⟨x, hx, rfl⟩ := List.mem_map.1 hn
      have hle := (ino_mem_emitted hx).1
      omega
    · rw [List.mem_singleton.1 hn]
      omega
  rw [hplan, ← pairwise_sortBy_iff pairwise_ino_calls]
  exact ⟨packDir_pieces, fun h => hstrict.1 h.strict, fun h => ⟨hnonzero, hstrict.2 h⟩⟩

/-- A directory with a file and a link, and a device whose name comes first. -/
def binTree : Tree :=
  .dir "bin" 0o755 (.file "sh" 0o755 [35, 33] (.link "su" "sh" false .empty)) .empty
def adsp : Device := ⟨"adsp", 0o020666, 14, 12⟩

/-- The hypotheses are satisfiable, and the condition is met where the walk follows the names. -/
theorem increasing_inos_binTree : Increasing (inos binTree [adsp] Pack.firstIno) :=
  (increasing_inos_iff binTree [adsp] le_rfl (by decide)).2.2 (by decide)

/-- **A device in a directory** is numbered before it, and stands behind it. -/
theorem not_increasing_inos_devTree :
    (packDir devTree [devNull] Pack.firstIno).1 =
        (pieces devTree [devNull] Pack.firstIno).flatten ∧
      inos devTree [devNull] Pack.firstIno = [300001, 300000, 300002] ∧
      ¬ Increasing (inos devTree [devNull] Pack.firstIno) := by
  have hinos : inos devTree [devNull] Pack.firstIno = [300001, 300000, 300002] := by
    decide +kernel
  refine ⟨packDir_pieces, hinos, fun h => ?_⟩
  have hstrict := h.strict
  rw [hinos] at hstrict
  exact absurd hstrict (by decide)

end Inos

/-! ### Two orders of the same tree -/

/-- One name of a directory, with what it stands for. -/
inductive Child where
  | dir (name : String) (perm : ℕ) (inside : Tree)
  | file (name : String) (perm : ℕ) (data : List UInt8)
  | link (name : String) (target : String) (toDir : Bool)

/-- One more name in front. -/
def Tree.cons : Child → Tree → Tree
  | .dir name perm inside, rest => .dir name perm inside rest
  | .file name perm data, rest => .file name perm data rest
  | .link name target toDir, rest => .link name target toDir rest

/-- The same tree, listed in another order: at every level the names of a directory may come
in any order. -/
inductive Tree.Reorder : Tree → Tree → Prop
  | refl (t : Tree) : Reorder t t
  | inside {t t' : Tree} (name : String) (perm : ℕ) (rest : Tree) (h : Reorder t t') :
      Reorder (.dir name perm t rest) (.dir name perm t' rest)
  | rest {t t' : Tree} (x : Child) (h : Reorder t t') : Reorder (.cons x t) (.cons x t')
  | swap (x y : Child) (t : Tree) : Reorder (.cons x (.cons y t)) (.cons y (.cons x t))
  | trans {t t' t'' : Tree} (h : Reorder t t') (h' : Reorder t' t'') : Reorder t t''

/-- The objects of one name. -/
def Child.objects (rel : String) : Child → List Obj
  | .dir name perm inside => ⟨below rel name, .dir perm⟩ :: inside.objects (below rel name)
  | .file name perm data => [⟨below rel name, .file perm data⟩]
  | .link name target toDir => [⟨below rel name, .link target toDir⟩]

theorem objects_cons (rel : String) (x : Child) (t : Tree) :
    (Tree.cons x t).objects rel = x.objects rel ++ t.objects rel := by
  cases x <;> rfl

/-- **The order of the names does not change the objects.** -/
theorem Tree.Reorder.objects_perm {t t' : Tree} (h : t.Reorder t') (rel : String) :
    (t.objects rel).Perm (t'.objects rel) := by
  induction h generalizing rel with
  | refl t => exact .refl _
  | inside name perm rest _ ih => exact .cons _ ((ih (Cpio.below rel name)).append_right _)
  | rest x _ ih =>
    rw [objects_cons, objects_cons]
    exact (ih rel).append_left _
  | swap x y t =>
    simp only [objects_cons]
    exact List.perm_append_comm_assoc ..
  | trans _ _ ih ih' => exact (ih rel).trans (ih' rel)

/-- **The bytes give the numbers away.**  Entries that ask for the same under different
numbers make different archives. -/
theorem calls_eq_of_bytes {xs ys : List Call} (hnamed : xs.map Call.named = ys.map Call.named)
    {u v : List UInt8} (h : xs.flatMap Call.blob ++ u = ys.flatMap Call.blob ++ v) : xs = ys := by
  induction xs generalizing ys with
  | nil => exact (List.map_eq_nil_iff.1 hnamed.symm).symm
  | cons x xs ih =>
    obtain ⟨y, ys, rfl⟩ := List.exists_cons_of_length_pos (l := ys) (by
      rw [← List.length_map Call.named, ← hnamed]
      simp)
    obtain ⟨hxy, hrest⟩ := List.cons.inj hnamed
    obtain ⟨p, i, a⟩ := x
    obtain ⟨q, j, b⟩ := y
    obtain ⟨rfl, rfl⟩ := Prod.mk.inj hxy
    rw [List.flatMap_cons, List.flatMap_cons, List.append_assoc, List.append_assoc] at h
    obtain rfl : a = b := Pack.entryBody_append_inj h
    rw [ih hrest (List.append_cancel_left h)]

section Reorder

variable {t t' : Tree} (devs : List Device) (c : ℕ)

/-- The walk lists the same, up to its order. -/
theorem Tree.Reorder.walk_perm (h : t.Reorder t') :
    (t.walk.flatMap Visit.items).Perm (t'.walk.flatMap Visit.items) :=
  (items_perm "." t).trans (((h.objects_perm ".").map _).trans (items_perm "." t').symm)

/-- Distinct objects are listed under distinct paths. -/
theorem nodup_walk (hnodup : ((t.objects ".").map Obj.path).Nodup) :
    ((t.walk.flatMap Visit.items).map Prod.fst).Nodup := by
  refine ((items_perm "." t).map Prod.fst).nodup_iff.2 ?_
  rwa [List.map_map]

/-- The entries of both archives ask for the same, in the same order. -/
theorem named_emitted_eq (h : t.Reorder t') (hnodup : ((t.objects ".").map Obj.path).Nodup) :
    (emitted t devs c).map Call.named = (emitted t' devs c).map Call.named := by
  have hkeys : ((t.walk.flatMap Visit.items).map fun x => pathKey x.1).Nodup := by
    have h := (nodup_walk hnodup).map pathKey_injective
    rwa [List.map_map] at h
  rw [map_named_emitted, map_named_emitted, plan, plan]
  exact sortBy_append_congr (sortBy_eq_of_perm h.walk_perm hkeys) _

/-- The calls are told by the paths that `os.walk` lists. -/
theorem plan_eq_iff (h : t.Reorder t') (hnodup : ((t.objects ".").map Obj.path).Nodup) :
    plan t devs = plan t' devs ↔ t.walkPaths = t'.walkPaths := by
  rw [plan, plan, ← map_fst_walk, ← map_fst_walk]
  constructor
  · intro hplan
    rw [List.append_cancel_left hplan]
  · intro hwalk
    rw [eq_of_perm_of_map_eq h.walk_perm (nodup_walk hnodup) hwalk]

/-- **When two orders of the same tree give the same archive:** when `os.walk` lists the same
paths in the same order.  The devices may be any. -/
theorem packDir_reorder_iff (h : t.Reorder t') (hnodup : ((t.objects ".").map Obj.path).Nodup) :
    (packDir t devs c).1 = (packDir t' devs c).1 ↔ t.walkPaths = t'.walkPaths := by
  rw [← plan_eq_iff devs h hnodup]
  constructor
  · intro hbytes
    rw [packDir_emitted, packDir_emitted] at hbytes
    have hemitted : emitted t devs c = emitted t' devs c :=
      calls_eq_of_bytes (named_emitted_eq devs c h hnodup) hbytes
    -- the calls are the entries in the order of their numbers
    have hperm : (calls t devs c).Perm (calls t' devs c) :=
      (emitted_perm t devs c).symm.trans (hemitted ▸ emitted_perm t' devs c)
    have hcalls : calls t devs c = calls t' devs c :=
      eq_of_perm_of_pairwise_lt hperm pairwise_ino_calls pairwise_ino_calls
    rw [← map_named_calls t devs c, hcalls, map_named_calls]
  · intro hplan
    unfold packDir
    rw [hplan]

end Reorder

/-- Two files, in one order and in the other. -/
def twoFiles : Tree := .file "a" 0o644 [] (.file "b" 0o644 [] .empty)
def twoFilesSwapped : Tree := .file "b" 0o644 [] (.file "a" 0o644 [] .empty)

/-- **Two files are enough** for the order of the listing to show. -/
theorem packDir_twoFiles_ne :
    twoFiles.Reorder twoFilesSwapped ∧ ((twoFiles.objects ".").map Obj.path).Nodup ∧
      (packDir twoFiles [] Pack.firstIno).1 ≠ (packDir twoFilesSwapped [] Pack.firstIno).1 :=
  ⟨.swap (.file "a" 0o644 []) (.file "b" 0o644 []) .empty, by decide, by decide +kernel⟩

/-- The hypotheses are satisfiable: a file in front of a directory or behind it. -/
theorem packDir_reorder_fileAndDir :
    (packDir (.file "a" 0o644 [] (.dir "d" 0o755 .empty .empty)) [devNull] Pack.firstIno).1 =
      (packDir (.dir "d" 0o755 .empty (.file "a" 0o644 [] .empty)) [devNull] Pack.firstIno).1 :=
  (packDir_reorder_iff [devNull] Pack.firstIno
    (.swap (.file "a" 0o644 []) (.dir "d" 0o755 .empty) .empty) (by decide)).2 (by decide)

end Cpio
end Twrp

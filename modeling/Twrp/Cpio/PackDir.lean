/-
# `pack_dir` of `pack_cpio.py`

A directory tree, what `os.walk` makes of it, and the archive that `pack_dir` writes: the
devices first and then every name of the walk is turned into an entry, under the inode
number that is next at that moment, and the entries are then put in order of depth and
path.

`os.walk` sorts the names of a directory into two lists by following links, so a link to a
directory is among the `dirnames`, though the walk does not go through it; and what
`pack_dir` does with a name of that list is what it does with a directory.  `plan_perm`
says what becomes of each object, whatever the order of the names: `Obj.packed`.
-/

import Twrp.Cpio.Pack
import Mathlib.Data.List.Perm.Basic
import Mathlib.Data.List.Sort
import Mathlib.Data.Prod.Lex
import Mathlib.Data.String.Basic

namespace Twrp
namespace Cpio

open Bytes

/-! ### Trees -/

def S_IFDIR : ℕ := 0o040000
def S_IFREG : ℕ := 0o100000
def S_IFLNK : ℕ := 0o120000

/-- `stat.S_IMODE`: the permission bits. -/
def S_IMODE (mode : ℕ) : ℕ := mode &&& 0o7777

/-- What a directory holds, name by name, in the order of `os.scandir`.  A link says
whether following it leads to a directory.  Its target is the `str` that `os.readlink` returns
for a target in UTF-8: there is none here for other bytes, which come as lone surrogates, and
for which `data.encode()` in `entry` raises. -/
inductive Tree where
  | empty
  | dir (name : String) (perm : ℕ) (inside rest : Tree)
  | file (name : String) (perm : ℕ) (data : List UInt8) (rest : Tree)
  | link (name : String) (target : String) (toDir : Bool) (rest : Tree)
  deriving DecidableEq, Repr

/-- What `os.lstat`, `os.readlink` and `open` say of a name that is no directory. -/
inductive Leaf where
  | file (mode : ℕ) (data : List UInt8)
  | link (mode : ℕ) (target : String)
  deriving DecidableEq, Repr

/-- `st_mode` of a directory, a regular file and a link. -/
def dirMode (perm : ℕ) : ℕ := S_IFDIR ||| S_IMODE perm
def fileMode (perm : ℕ) : ℕ := S_IFREG ||| S_IMODE perm
def linkMode : ℕ := S_IFLNK ||| 0o777

namespace Tree

/-- The names that `os.walk` lists as directories, with their `st_mode`. -/
def dirnames : Tree → List (String × ℕ)
  | empty => []
  | dir name perm _ rest => (name, dirMode perm) :: rest.dirnames
  | file _ _ _ rest => rest.dirnames
  | link name _ toDir rest => if toDir then (name, linkMode) :: rest.dirnames else rest.dirnames

/-- The other names. -/
def filenames : Tree → List (String × Leaf)
  | empty => []
  | dir _ _ _ rest => rest.filenames
  | file name perm data rest => (name, .file (fileMode perm) data) :: rest.filenames
  | link name target toDir rest =>
    if toDir then rest.filenames else (name, .link linkMode target) :: rest.filenames

end Tree

/-- One round of `os.walk`: `rel` is the path of the directory below the root. -/
structure Visit where
  rel : String
  dirnames : List (String × ℕ)
  filenames : List (String × Leaf)
  deriving DecidableEq, Repr

/-- The path of a name in the directory `rel`. -/
def below (rel name : String) : String := if rel = "." then name else rel ++ "/" ++ name

/-- The rounds for the directories that `t` holds: no link is followed. -/
def Tree.subwalk (rel : String) : Tree → List Visit
  | .empty => []
  | .dir name _ inside rest =>
    ⟨below rel name, inside.dirnames, inside.filenames⟩ ::
      (inside.subwalk (below rel name) ++ rest.subwalk rel)
  | .file _ _ _ rest => rest.subwalk rel
  | .link _ _ _ rest => rest.subwalk rel

/-- `os.walk(root)`, with `relpath` applied to every directory. -/
def Tree.walk (t : Tree) : List Visit := ⟨".", t.dirnames, t.filenames⟩ :: t.subwalk "."

/-! ### The archive -/

/-- A device of the manifest. -/
structure Device where
  path : String
  mode : ℕ
  rdevMajor : ℕ
  rdevMinor : ℕ
  deriving DecidableEq, Repr

/-- The arguments of `entry` for a device. -/
def Device.item (v : Device) : Item :=
  { name := v.path, data := .bytes [], mode := v.mode, rdevMajor := v.rdevMajor
    rdevMinor := v.rdevMinor }

/-- The arguments of `entry` for a name of `dirnames`. -/
def dirItem (path : String) (mode : ℕ) : Item :=
  { name := path ++ "/", data := .bytes [], mode := S_IMODE mode ||| S_IFDIR }

/-- The arguments of `entry` for a name of `filenames`. -/
def leafItem (path : String) : Leaf → Item
  | .link _ target => { name := path, data := .str target, mode := S_IFLNK ||| 0o777 }
  | .file mode data => { name := path, data := .bytes data, mode := S_IMODE mode ||| S_IFREG }

/-- What is packed in one round: the path it is sorted by, and the arguments of `entry`. -/
def Visit.items (v : Visit) : List (String × Item) :=
  v.dirnames.map (fun d => (below v.rel d.1, dirItem (below v.rel d.1) d.2)) ++
    v.filenames.map (fun f => (below v.rel f.1, leafItem (below v.rel f.1) f.2))

/-- Everything that is packed, in the order in which `entry` is called. -/
def plan (t : Tree) (devs : List Device) : List (String × Item) :=
  devs.map (fun v => (v.path, v.item)) ++ t.walk.flatMap Visit.items

/-- What `items` collects: the depth, the path to sort by, and the bytes of the entry. -/
structure Packed where
  depth : ℕ
  path : String
  blob : List UInt8

/-- The key that `items` is sorted by. -/
def Packed.key (x : Packed) : ℕ ×ₗ String := toLex (x.depth, x.path)

instance : DecidableRel fun x y : Packed => x.key ≤ y.key :=
  fun x y => inferInstanceAs (Decidable (x.key ≤ y.key))

/-- `entry`, and the tuple that is appended to `items`. -/
def packOne (x : String × Item) : StateM ℕ Packed := do
  let blob ← Pack.entry x.2
  pure ⟨x.1.toList.count '/', x.1, blob⟩

/-- `pack_dir`: the bytes it writes. -/
def packDir (t : Tree) (devs : List Device) : StateM ℕ (List UInt8) := do
  let items ← (plan t devs).mapM packOne
  let items := items.insertionSort fun x y => x.key ≤ y.key
  let last ← Pack.trailer
  pure (items.flatMap Packed.blob ++ last)

/-! ### The objects -/

/-- What stands at a path: an object of the tree, or a device of the manifest. -/
inductive Node where
  | dir (perm : ℕ)
  | file (perm : ℕ) (data : List UInt8)
  | link (target : String) (toDir : Bool)
  | device (mode rdevMajor rdevMinor : ℕ)
  deriving DecidableEq, Repr

/-- An object at its path. -/
structure Obj where
  path : String
  node : Node
  deriving DecidableEq, Repr

/-- The objects below a directory: what a link points to is not among them. -/
def Tree.objects (rel : String) : Tree → List Obj
  | .empty => []
  | .dir name perm inside rest =>
    ⟨below rel name, .dir perm⟩ :: (inside.objects (below rel name) ++ rest.objects rel)
  | .file name perm data rest => ⟨below rel name, .file perm data⟩ :: rest.objects rel
  | .link name target toDir rest => ⟨below rel name, .link target toDir⟩ :: rest.objects rel

/-- The objects below the root and the devices. -/
def objects (t : Tree) (devs : List Device) : List Obj :=
  devs.map (fun v => ⟨v.path, .device v.mode v.rdevMajor v.rdevMinor⟩) ++ t.objects "."

/-- What becomes of an object: a link to a directory is packed as a directory. -/
def Obj.packed (o : Obj) : Item :=
  match o.node with
  | .dir perm => dirItem o.path (dirMode perm)
  | .file perm data => leafItem o.path (.file (fileMode perm) data)
  | .link target toDir =>
    if toDir then dirItem o.path linkMode else leafItem o.path (.link linkMode target)
  | .device mode major minor => Device.item ⟨o.path, mode, major, minor⟩

/-- One more name among the files. -/
theorem items_cons_perm (rel : String) (ds : List (String × ℕ)) (f : String × Leaf)
    (fs : List (String × Leaf)) :
    (Visit.mk rel ds (f :: fs)).items.Perm
      ((below rel f.1, leafItem (below rel f.1) f.2) :: (Visit.mk rel ds fs).items) :=
  List.perm_middle

/-- **The walk meets every object once,** whatever the order of the names. -/
theorem items_perm (rel : String) (t : Tree) :
    ((Visit.mk rel t.dirnames t.filenames).items ++ (t.subwalk rel).flatMap Visit.items).Perm
      ((t.objects rel).map fun o => (o.path, o.packed)) := by
  induction t generalizing rel with
  | empty => exact .nil
  | dir name perm inside rest ihi ihr =>
    have hcons : (Visit.mk rel (Tree.dir name perm inside rest).dirnames
        (Tree.dir name perm inside rest).filenames).items =
          (below rel name, dirItem (below rel name) (dirMode perm)) ::
            (Visit.mk rel rest.dirnames rest.filenames).items := rfl
    rw [hcons, Tree.objects, Tree.subwalk, List.map_cons, List.map_append, List.flatMap_cons,
      List.flatMap_append, ← List.append_assoc (Visit.items _) (List.flatMap _ _), List.cons_append]
    -- the directory itself, what is inside, and the rest
    refine .cons _ ((List.perm_append_comm_assoc ..).trans ?_)
    exact (ihi (below rel name)).append (ihr rel)
  | file name perm data rest ih =>
    refine ((items_cons_perm rel _ (name, .file (fileMode perm) data) _).append_right _).trans ?_
    exact .cons _ (ih rel)
  | link name target toDir rest ih =>
    cases toDir with
    | true => exact .cons _ (ih rel)
    | false =>
      refine ((items_cons_perm rel _ (name, .link linkMode target) _).append_right _).trans ?_
      exact .cons _ (ih rel)

/-- **What is packed** is what becomes of the objects. -/
theorem plan_perm (t : Tree) (devs : List Device) :
    (plan t devs).Perm ((objects t devs).map fun o => (o.path, o.packed)) := by
  rw [plan, objects, List.map_append, List.map_map]
  exact (List.Perm.refl _).append (items_perm "." t)

/-! ### What is written -/

/-- The tuples for a list of calls, the first of them under the number `c`. -/
def packedFrom (c : ℕ) : List (String × Item) → List Packed
  | [] => []
  | x :: xs => ⟨x.1.toList.count '/', x.1, Pack.entryBody x.2 c⟩ :: packedFrom (c + 1) xs

/-- Calls that all draw their number. -/
theorem mapM_packOne {xs : List (String × Item)} (h : ∀ x ∈ xs, x.2.ino = none) (c : ℕ) :
    (xs.mapM packOne : StateM ℕ _) c = (packedFrom c xs, c + xs.length) := by
  induction xs generalizing c with
  | nil => rfl
  | cons x xs ih =>
    obtain ⟨hx, hxs⟩ := List.forall_mem_cons.1 h
    have hone : packOne x c = (⟨x.1.toList.count '/', x.1, Pack.entryBody x.2 c⟩, c + 1) := by
      unfold packOne Pack.entry
      rw [hx]
      rfl
    have hcons : ((x :: xs).mapM packOne : StateM ℕ _) c =
        ((packOne x c).1 :: ((xs.mapM packOne : StateM ℕ _) (packOne x c).2).1,
          ((xs.mapM packOne : StateM ℕ _) (packOne x c).2).2) := by
      rw [List.mapM_cons]
      rfl
    rw [hcons, hone, ih hxs, packedFrom, List.length_cons, Nat.add_comm xs.length, Nat.add_assoc]

theorem ino_packed (o : Obj) : o.packed.ino = none := by
  unfold Obj.packed
  rcases o with ⟨path, perm | ⟨perm, data⟩ | ⟨target, toDir⟩ | ⟨mode, major, minor⟩⟩
  · rfl
  · rfl
  · cases toDir <;> rfl
  · rfl

theorem ino_plan (t : Tree) (devs : List Device) : ∀ x ∈ plan t devs, x.2.ino = none := by
  intro x hx
  obtain ⟨o, -, rfl⟩ := List.mem_map.1 ((plan_perm t devs).mem_iff.1 hx)
  exact ino_packed o

theorem length_plan (t : Tree) (devs : List Device) :
    (plan t devs).length = (objects t devs).length := by
  rw [(plan_perm t devs).length_eq, List.length_map]

/-- **The archive of a tree:** the entries, sorted, and the trailer under the number
behind theirs. -/
theorem packDir_eq (t : Tree) (devs : List Device) (c : ℕ) :
    (packDir t devs c).1 =
      ((packedFrom c (plan t devs)).insertionSort fun x y => x.key ≤ y.key).flatMap Packed.blob ++
        Pack.trailerBody (c + (objects t devs).length) := by
  have hrun : packDir t devs c =
      (((plan t devs).mapM packOne : StateM ℕ _) c |> fun r =>
        ((r.1.insertionSort fun x y => x.key ≤ y.key).flatMap Packed.blob ++
          Pack.trailerBody r.2, r.2 + 1)) := rfl
  rw [hrun, mapM_packOne (ino_plan t devs), length_plan]

/-- What holds of every body with a number of 32 bits holds of the bodies that are
packed. -/
theorem forall₂_packedFrom {P : Item → List UInt8 → Prop} {xs : List (String × Item)}
    (hP : ∀ x ∈ xs, ∀ ino < 2 ^ 32, P x.2 (Pack.entryBody x.2 ino)) {c : ℕ}
    (hc : c + xs.length ≤ 2 ^ 32) :
    List.Forall₂ (fun y x => P x.2 (Packed.blob y)) (packedFrom c xs) xs := by
  induction xs generalizing c with
  | nil => exact .nil
  | cons x xs ih =>
    obtain ⟨hx, hxs⟩ := List.forall_mem_cons.1 hP
    rw [List.length_cons] at hc
    exact .cons (hx c (by omega)) (ih hxs (by omega))

/-- **The entries of the archive,** in its order, are those of the objects. -/
theorem packDir_entries {P : Item → List UInt8 → Prop} {t : Tree} {devs : List Device}
    (hP : ∀ o ∈ objects t devs, ∀ ino < 2 ^ 32, P o.packed (Pack.entryBody o.packed ino)) {c : ℕ}
    (hc : c + (objects t devs).length < 2 ^ 32) :
    ∃ items bs, items.Perm ((objects t devs).map Obj.packed) ∧ List.Forall₂ P items bs ∧
      (packDir t devs c).1 = bs.flatten ++ Pack.trailerBody (c + (objects t devs).length) := by
  have hplan : ∀ x ∈ plan t devs, ∀ ino < 2 ^ 32, P x.2 (Pack.entryBody x.2 ino) := by
    intro x hx
    obtain ⟨o, ho, rfl⟩ := List.mem_map.1 ((plan_perm t devs).mem_iff.1 hx)
    exact hP o ho
  have hforall := @forall₂_packedFrom P _ hplan c (by rw [length_plan]; omega)
  obtain ⟨ws, hws, hperm⟩ := List.perm_comp_forall₂
    (List.perm_insertionSort (fun x y : Packed => x.key ≤ y.key) _) hforall
  refine ⟨ws.map Prod.snd, _, ?_, ?_, by rw [packDir_eq, List.flatMap_def]⟩
  · have h := (hperm.trans (plan_perm t devs)).map Prod.snd
    rwa [List.map_map] at h
  · exact List.forall₂_map_left_iff.2 (List.forall₂_map_right_iff.2 hws.flip)

end Cpio
end Twrp

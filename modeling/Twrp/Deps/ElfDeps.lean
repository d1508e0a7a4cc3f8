/-
# `elf_deps.py`: which libraries are removable

`main` walks a directory tree, looks up the NEEDED names of its libraries and programs
(`provided`), follows them from a list of root programs (`closure`) and prints every
library that no name it came across asks for.

The files of the tree are known by the paths of `os.walk`, with the root directory in
front.  The search starts from the root programs as they are given, relative to the
tree, and goes on with names under `system/lib64` and `system/lib`, relative as well.
A relative name leads to a file component by component (`Names`), and the search does not
follow it: it compares strings.  So there are two ways to call files, that of the tree
(`byTree`) and that of the walk (`byWalk`), and the script is right only where nothing is
needed, or where what is needed the one way is needed the other way, too (`sound_iff`).

What `elf_needed2` reads from a file is a parameter: a list of names for each path.
-/

import Twrp.Program.Worklist
import Twrp.Python.Path
import Mathlib.Data.Char
import Mathlib.Data.List.Lex
import Mathlib.Data.List.Sort

namespace Twrp
namespace ElfDeps

open Python

/-! ### The script -/

/-- A name in a directory. -/
structure Name where
  chars : List Char
  ne_nil : chars ≠ []
  ne_dot : chars ≠ ['.']
  ne_dots : chars ≠ ['.', '.']
  slash_notMem : '/' ∉ chars

/-- A directory tree as `os.walk` goes through it: the directories, each by the names
that lead to it, with the names of the files in it. -/
abbrev Tree := List (List Name × List Name)

/-- A directory of the tree, or a file of it, with the root in front. -/
def pathOf (root : List Char) (names : List Name) : List Char :=
  names.foldl (fun path name => join path name.chars) root

/-- `os.walk(root)`.  An empty path names no directory. -/
def walk (root : List Char) (tree : Tree) : List (List Char × List Name) :=
  if root = [] then [] else tree.map fun (dirs, files) => (pathOf root dirs, files)

def allFiles (root : List Char) (tree : Tree) : List (List Char) :=
  (walk root tree).flatMap fun (dirpath, files) => files.map fun fn => join dirpath fn.chars

/-- The files that are looked into: libraries, and programs in a directory `bin`. -/
def IsProvided (p : List Char) : Prop :=
  ".so".toList <:+ p ∨ "/bin".toList <:+ dirname p

instance (p : List Char) : Decidable (IsProvided p) :=
  inferInstanceAs (Decidable (_ ∨ _))

section Main

variable (elfNeeded2 : List Char → List (List Char))

/-- The map from the path of a file to its NEEDED names. -/
def provided (files : List (List Char)) : List (List Char × List (List Char)) :=
  (files.filter (IsProvided ·)).map fun p => (p, elfNeeded2 p)

/-- Where a NEEDED name is looked for. -/
def candidates (n : List Char) : List (List Char) :=
  [join "system/lib64".toList n, join "system/lib".toList n]

/-- Only the keys of a map can be looked up. -/
theorem mem_keys_of_isSome_lookup {α β : Type*} [BEq α] [LawfulBEq α] (l : List (α × β)) (x : α)
    (h : (l.lookup x).isSome) : x ∈ l.map Prod.fst := by
  obtain ⟨p, hp, hx⟩ := List.lookup_isSome_iff.1 h
  exact List.mem_map.2 ⟨p, hp, (eq_of_beq hx).symm⟩

/-- `needed_names` at the end of the loop. -/
def closure (roots : List (List Char)) (provided : List (List Char × List (List Char))) :
    List (List Char) :=
  Worklist.run (fun r => provided.lookup r) candidates (provided.map Prod.fst)
    (mem_keys_of_isSome_lookup provided) roots.reverse [] []

/-- What is printed: the number of names, and the removable files with their sizes. -/
structure Report where
  neededClosure : ℕ
  removable : List (List Char × ℕ)

def report (getsize : List Char → ℕ) (root : List Char) (roots : List (List Char)) (tree : Tree) :
    Report :=
  let files := allFiles root tree
  let neededNames := closure roots (provided elfNeeded2 files)
  let removable := (files.insertionSort (· ≤ ·)).filter fun p =>
    decide (".so".toList <:+: p ∧ "/system/lib".toList <:+: p ∧ basename p ∉ neededNames)
  { neededClosure := neededNames.length
    removable := removable.map fun p => (p, getsize p) }

/-- The root programs that are taken when none are given. -/
def defaultRoots : List (List Char) :=
  ["system/bin/recovery", "system/bin/init", "system/bin/adbd", "system/bin/sh",
    "system/bin/toybox", "system/bin/e2fsck", "system/bin/mke2fs", "system/bin/resize2fs",
    "system/bin/fsck.f2fs", "system/bin/mkfs.f2fs", "system/bin/sload_f2fs",
    "system/bin/minadbd", "system/bin/linker64", "system/bin/tune2fs"].map String.toList

/-- `main` on its arguments, the name of the script not among them; `tree` is what
there is under each directory. -/
def main (getsize : List Char → ℕ) (tree : List Char → Tree) : List (List Char) → Report
  | [] => report elfNeeded2 getsize ".".toList defaultRoots (tree ".".toList)
  | [root] => report elfNeeded2 getsize root defaultRoots (tree root)
  | root :: roots :: _ => report elfNeeded2 getsize root (roots.splitOn ',') (tree root)

end Main

/-! ### What the script is for -/

def system : Name := ⟨"system".toList, by decide, by decide, by decide, by decide⟩
def lib64 : Name := ⟨"lib64".toList, by decide, by decide, by decide, by decide⟩
def lib : Name := ⟨"lib".toList, by decide, by decide, by decide, by decide⟩

/-- The directories of the tree. -/
def dirs (tree : Tree) : List (List Name) := tree.map Prod.fst

/-- The files of the tree, each by the names that lead to it. -/
def files (tree : Tree) : List (List Name) :=
  tree.flatMap fun (dirs, files) => files.map fun fn => dirs ++ [fn]

/-- Where components lead through the directories of the tree: an empty one and `.` stay,
`..` leads to the directory above, unless that is outside the tree, and a name one step
down. -/
inductive Leads (tree : Tree) : List Name → List (List Char) → List Name → Prop
  | here {d : List Name} : Leads tree d [] d
  | stay {d f : List Name} {c : List Char} {cs : List (List Char)} (hd : d ∈ dirs tree)
      (hc : c = [] ∨ c = ['.']) (h : Leads tree d cs f) : Leads tree d (c :: cs) f
  | up {d f : List Name} {cs : List (List Char)} (hd : d ∈ dirs tree) (hne : d ≠ [])
      (h : Leads tree d.dropLast cs f) : Leads tree d (['.', '.'] :: cs) f
  | down {d f : List Name} {n : Name} {cs : List (List Char)} (hd : d ∈ dirs tree)
      (h : Leads tree (d ++ [n]) cs f) : Leads tree d (n.chars :: cs) f

/-- The string `r`, taken relative to the tree, is a path of the file `f`. -/
def Names (tree : Tree) (r : List Char) (f : List Name) : Prop :=
  f ∈ files tree ∧ ¬ ['/'] <+: r ∧ Leads tree [] (r.splitOn '/') f

/-- A way to call files: which of them are the root programs, and which a NEEDED name
stands for. -/
structure Naming where
  isRoot : List Name → Prop
  stands : List Char → List Name → Prop

/-- As the tree has it: a root program is where the string given for it leads, and a NEEDED
name is that of a file in `system/lib64` or `system/lib`. -/
def byTree (roots : List (List Char)) (tree : Tree) : Naming where
  isRoot f := ∃ r ∈ roots, Names tree r f
  stands n g := g ∈ files tree ∧
    ∃ dir name, (dir = lib64 ∨ dir = lib) ∧ g = [system, dir, name] ∧ name.chars = n

/-- As the walk has it: by its own strings, root directory included, and only files that are
looked into. -/
def byWalk (root : List Char) (roots : List (List Char)) (tree : Tree) : Naming where
  isRoot f := (f ∈ files tree ∧ IsProvided (pathOf root f)) ∧ pathOf root f ∈ roots
  stands n g := (g ∈ files tree ∧ IsProvided (pathOf root g)) ∧ pathOf root g ∈ candidates n

section Spec

variable (elfNeeded2 : List Char → List (List Char)) (root : List Char)

/-- The files that a chain of NEEDED names leads to, the root programs among them. -/
inductive Reached (naming : Naming) : List Name → Prop
  | root {f : List Name} (h : naming.isRoot f) : Reached naming f
  | step {f g : List Name} {n : List Char} (hf : Reached naming f)
      (hn : n ∈ elfNeeded2 (pathOf root f)) (hg : naming.stands n g) : Reached naming g

/-- One of them asks for the name. -/
def Asked (naming : Naming) (n : List Char) : Prop :=
  ∃ f, Reached elfNeeded2 root naming f ∧ n ∈ elfNeeded2 (pathOf root f)

variable (roots : List (List Char)) (tree : Tree)

/-- A file of `system/lib64` or `system/lib` that a chain of NEEDED names leads to. -/
structure Needed (dir name : Name) : Prop where
  isLib : dir = lib64 ∨ dir = lib
  file : [system, dir, name] ∈ files tree
  asked : Asked elfNeeded2 root (byTree roots tree) name.chars

/-- No library that is needed is printed as removable. -/
def Sound (getsize : List Char → ℕ) : Prop :=
  ∀ dir name, Needed elfNeeded2 root roots tree dir name → ".so".toList <:+ name.chars →
    pathOf root [system, dir, name] ∉
      (report elfNeeded2 getsize root roots tree).removable.map Prod.fst

end Spec

/-! ### Paths of files -/

/-- The path of a file relative to the tree, as it is usually written. -/
def relative (f : List Name) : List Char := ['/'].intercalate (f.map Name.chars)

theorem leads_names {tree : Tree} {d ns : List Name}
    (h : ∀ e, e <+: ns → e ≠ ns → d ++ e ∈ dirs tree) :
    Leads tree d (ns.map Name.chars) (d ++ ns) := by
  induction ns generalizing d with
  | nil =>
    rw [List.append_nil]
    exact .here
  | cons n ns ih =>
    have hd : d ∈ dirs tree := by simpa using h [] List.nil_prefix (by simp)
    have hns : Leads tree (d ++ [n]) (ns.map Name.chars) (d ++ [n] ++ ns) := by
      refine ih fun e he hne => ?_
      rw [← List.append_cons]
      exact h (n :: e) (List.cons_prefix_cons.2 ⟨rfl, he⟩) (by simpa using hne)
    rw [← List.append_cons] at hns
    exact .down hd hns

/-- **The usual path of a file is one of its paths.** -/
theorem names_relative {tree : Tree} {f : List Name} (hf : f ∈ files tree)
    (hdirs : ∀ d, d <+: f → d ≠ f → d ∈ dirs tree) : Names tree (relative f) f := by
  obtain ⟨n, ns, rfl⟩ : ∃ n ns, f = n :: ns := by
    refine List.exists_cons_of_ne_nil ?_
    rintro rfl
    simp [files] at hf
  have hsplit : (relative (n :: ns)).splitOn '/' = (n :: ns).map Name.chars := by
    refine List.splitOn_intercalate '/' (fun cs hcs => ?_) (by simp)
    obtain ⟨m, -, rfl⟩ := List.mem_map.1 hcs
    exact m.slash_notMem
  refine ⟨hf, ?_, ?_⟩
  · rintro ⟨r, hr⟩
    rw [← hr, List.singleton_append, List.splitOn_cons_eq_if_modifyHead, if_pos (by simp),
      List.map_cons] at hsplit
    exact n.ne_nil (List.cons.inj hsplit).1.symm
  · rw [hsplit]
    exact leads_names hdirs

/-- With `./` in front it is another one. -/
theorem Names.dot {tree : Tree} {r : List Char} {f : List Name} (h : Names tree r f)
    (hroot : [] ∈ dirs tree) : Names tree ("./".toList ++ r) f := by
  have hdot : '/' ∉ ['.'] := by decide
  have hsplit : ("./".toList ++ r).splitOn '/' = ['.'] :: r.splitOn '/' :=
    List.splitOn_append_cons_self_of_not_mem hdot r
  obtain ⟨hf, -, hleads⟩ := h
  refine ⟨hf, by simp, ?_⟩
  rw [hsplit]
  exact .stay hroot (.inr rfl) hleads

/-! ### What is printed -/

section Printed

variable {elfNeeded2 : List Char → List (List Char)} {root : List Char}
  {roots : List (List Char)} {tree : Tree}

theorem lookup_provided {fs : List (List Char)} {r : List Char} {found : List (List Char)} :
    (provided elfNeeded2 fs).lookup r = some found ↔
      r ∈ fs ∧ IsProvided r ∧ found = elfNeeded2 r := by
  have hsome : ∀ {found}, (provided elfNeeded2 fs).lookup r = some found →
      r ∈ fs ∧ IsProvided r ∧ found = elfNeeded2 r := by
    intro found h
    obtain ⟨l₁, l₂, hl, -⟩ := List.lookup_eq_some_iff.1 h
    have hmem : (r, found) ∈ provided elfNeeded2 fs :=
      hl ▸ List.mem_append_right _ List.mem_cons_self
    obtain ⟨p, hp, heq⟩ := List.mem_map.1 hmem
    obtain ⟨rfl, rfl⟩ := Prod.mk.inj heq
    exact ⟨List.mem_of_mem_filter hp, by simpa using List.of_mem_filter hp, rfl⟩
  refine ⟨hsome, ?_⟩
  rintro ⟨hr, hprov, rfl⟩
  have hmem : (r, elfNeeded2 r) ∈ provided elfNeeded2 fs :=
    List.mem_map.2 ⟨r, List.mem_filter.2 ⟨hr, by simpa using hprov⟩, rfl⟩
  obtain ⟨found, hfound⟩ := Option.isSome_iff_exists.1
    (List.lookup_isSome_iff.2 ⟨_, hmem, beq_self_eq_true r⟩)
  rw [hfound, (hsome hfound).2.2]

/-- The walk comes across the files of the tree, with the root in front. -/
theorem mem_allFiles_iff {p : List Char} :
    p ∈ allFiles root tree ↔ root ≠ [] ∧ ∃ f ∈ files tree, pathOf root f = p := by
  have hlast : ∀ dirs fn, pathOf root (dirs ++ [fn]) = join (pathOf root dirs) fn.chars := by
    intro dirs fn
    rw [pathOf, List.foldl_append]
    rfl
  rw [allFiles, walk]
  split_ifs with hroot
  · simp [hroot]
  · simp only [files, List.mem_flatMap, List.mem_map, Prod.exists, ne_eq, hroot, not_false_eq_true,
      true_and]
    constructor
    · rintro ⟨dirpath, fs, ⟨dirs, fs, hdirs, heq⟩, fn, hfn, rfl⟩
      obtain ⟨rfl, rfl⟩ := Prod.mk.inj heq
      exact ⟨dirs ++ [fn], ⟨dirs, fs, hdirs, fn, hfn, rfl⟩, hlast dirs fn⟩
    · rintro ⟨f, ⟨dirs, fs, hdirs, fn, hfn, rfl⟩, rfl⟩
      exact ⟨pathOf root dirs, fs, ⟨dirs, fs, hdirs, rfl⟩, fn, hfn, (hlast dirs fn).symm⟩

/-- What can be looked up is a file that is looked into. -/
theorem lookup_allFiles {r : List Char} {found : List (List Char)} (hroot : root ≠ []) :
    (provided elfNeeded2 (allFiles root tree)).lookup r = some found ↔
      ∃ f, (f ∈ files tree ∧ IsProvided (pathOf root f)) ∧ pathOf root f = r ∧
        found = elfNeeded2 (pathOf root f) := by
  rw [lookup_provided, mem_allFiles_iff]
  constructor
  · rintro ⟨⟨-, f, hf, rfl⟩, hprov, rfl⟩
    exact ⟨f, ⟨hf, hprov⟩, rfl, rfl⟩
  · rintro ⟨f, ⟨hf, hprov⟩, rfl, rfl⟩
    exact ⟨⟨hroot, f, hf, rfl⟩, hprov, rfl⟩

/-- A file that a chain in the walk's own names leads to is one that is looked into. -/
theorem Reached.file {f : List Name} (h : Reached elfNeeded2 root (byWalk root roots tree) f) :
    f ∈ files tree ∧ IsProvided (pathOf root f) := by
  cases h with
  | root h => exact h.1
  | step _ _ h => exact h.1

/-- **The search follows the names of the walk.** -/
theorem reach_iff {f : List Name} (hroot : root ≠ [])
    (hf : f ∈ files tree ∧ IsProvided (pathOf root f)) :
    Worklist.Reach (fun r => (provided elfNeeded2 (allFiles root tree)).lookup r) candidates
        roots (pathOf root f) ↔
      Reached elfNeeded2 root (byWalk root roots tree) f := by
  constructor
  · intro h
    generalize hq : pathOf root f = q at h
    induction h generalizing f with
    | start hx => exact .root ⟨hf, hq ▸ hx⟩
    | step _ hv hn hy ih =>
      obtain ⟨g, hg, hgq, rfl⟩ := (lookup_allFiles hroot).1 hv
      exact .step (ih hg hgq) hn ⟨hf, hq ▸ hy⟩
  · intro h
    induction h with
    | root h => exact .start h.2
    | step hg hn h ih =>
      exact .step (ih hg.file) ((lookup_allFiles hroot).2 ⟨_, hg.file, rfl, rfl⟩) hn h.2

/-- **The search collects what is asked for in the names of the walk.** -/
theorem mem_closure_iff (hroot : root ≠ []) {n : List Char} :
    n ∈ closure roots (provided elfNeeded2 (allFiles root tree)) ↔
      Asked elfNeeded2 root (byWalk root roots tree) n := by
  have hstart : ∀ r, r ∈ roots.reverse ↔ r ∈ roots := fun _ => List.mem_reverse
  rw [closure, Worklist.mem_run_iff hstart]
  constructor
  · rintro ⟨r, found, hr, hv, hn⟩
    obtain ⟨f, hf, rfl, rfl⟩ := (lookup_allFiles hroot).1 hv
    exact ⟨f, (reach_iff hroot hf).1 hr, hn⟩
  · rintro ⟨f, hf, hn⟩
    exact ⟨_, _, (reach_iff hroot hf.file).2 hf,
      (lookup_allFiles hroot).2 ⟨f, hf.file, rfl, rfl⟩, hn⟩

/-- The path of a library ends in its names. -/
theorem exists_pathOf_eq (hroot : root ≠ []) (dir name : Name) :
    ∃ c, pathOf root [system, dir, name] =
      c ++ '/' :: system.chars ++ '/' :: dir.chars ++ '/' :: name.chars := by
  obtain ⟨c, hc⟩ := exists_join_eq system.slash_notMem hroot
  refine ⟨c, ?_⟩
  calc pathOf root [system, dir, name]
    _ = join (join (join root system.chars) dir.chars) name.chars := rfl
    _ = join (join (c ++ '/' :: system.chars) dir.chars) name.chars := by rw [hc]
    _ = join (c ++ '/' :: system.chars ++ '/' :: dir.chars) name.chars := by
      rw [join_append system.slash_notMem system.ne_nil dir.slash_notMem]
    _ = c ++ '/' :: system.chars ++ '/' :: dir.chars ++ '/' :: name.chars :=
      join_append dir.slash_notMem dir.ne_nil name.slash_notMem

/-- A library is printed exactly when its name was not collected. -/
theorem mem_removable_iff {getsize : List Char → ℕ} (hroot : root ≠ []) {dir name : Name}
    (hdir : dir = lib64 ∨ dir = lib) (hfile : [system, dir, name] ∈ files tree)
    (hso : ".so".toList <:+ name.chars) :
    pathOf root [system, dir, name] ∈
        (report elfNeeded2 getsize root roots tree).removable.map Prod.fst ↔
      ¬ Asked elfNeeded2 root (byWalk root roots tree) name.chars := by
  obtain ⟨c, hc⟩ := exists_pathOf_eq hroot dir name
  have hbase : basename (pathOf root [system, dir, name]) = name.chars := by
    rw [hc, basename_append name.slash_notMem]
  have hinfix : ".so".toList <:+: pathOf root [system, dir, name] := by
    rw [hc, List.append_cons]
    exact hso.isInfix.trans (List.suffix_append ..).isInfix
  have hlib : "/system/lib".toList <:+: pathOf root [system, dir, name] := by
    rw [hc]
    simp only [List.append_assoc]
    rcases hdir with rfl | rfl
    · exact ⟨c, "64".toList ++ '/' :: name.chars, List.append_assoc ..⟩
    · exact ⟨c, '/' :: name.chars, List.append_assoc ..⟩
  have hmap : ∀ ps : List (List Char), (ps.map fun p => (p, getsize p)).map Prod.fst = ps := by
    intro ps
    rw [List.map_map]
    exact List.map_id _
  rw [report, hmap, List.mem_filter, List.mem_insertionSort, decide_eq_true_iff, hbase,
    ← mem_closure_iff hroot]
  exact ⟨fun h => h.2.2.2, fun h => ⟨mem_allFiles_iff.2 ⟨hroot, _, hfile, rfl⟩, hinfix, hlib, h⟩⟩

end Printed

/-! ### When the script is sound -/

section Sound

variable {elfNeeded2 : List Char → List (List Char)} {getsize : List Char → ℕ}
  {root : List Char} {roots : List (List Char)} {tree : Tree}

theorem sound_iff_of_ne_nil (hroot : root ≠ []) :
    Sound elfNeeded2 root roots tree getsize ↔
      ∀ dir name, Needed elfNeeded2 root roots tree dir name → ".so".toList <:+ name.chars →
        Asked elfNeeded2 root (byWalk root roots tree) name.chars := by
  refine forall₄_congr fun dir name hneeded hso => ?_
  rw [mem_removable_iff hroot hneeded.isLib hneeded.file hso, not_not]

/-- Without a root directory nothing is walked and nothing printed. -/
theorem sound_nil : Sound elfNeeded2 [] roots tree getsize := by
  have hwalk : allFiles [] tree = [] := by
    rw [allFiles, walk, if_pos rfl, List.flatMap_nil]
  intro dir name _ _
  simp [report, hwalk]

/-- When no root program is given by the path it has in the walk, nothing is asked for. -/
theorem not_asked_byWalk (h : ∀ f ∈ files tree, pathOf root f ∉ roots) (n : List Char) :
    ¬ Asked elfNeeded2 root (byWalk root roots tree) n := by
  rintro ⟨f, hf, -⟩
  induction hf with
  | root hf => exact h _ hf.1.1 hf.2
  | step _ _ _ ih => exact ih

theorem closure_eq_nil (hroot : root ≠ []) (h : ∀ f ∈ files tree, pathOf root f ∉ roots) :
    closure roots (provided elfNeeded2 (allFiles root tree)) = [] := by
  refine List.eq_nil_iff_forall_not_mem.2 fun n hn => ?_
  exact not_asked_byWalk h n ((mem_closure_iff hroot).1 hn)

/-- In the working directory every path of the walk begins with `./`. -/
theorem startsWith_dot {f : List Name} (h : f ∈ files tree) :
    "./".toList <+: pathOf ".".toList f := by
  have hkeep : ∀ names path, "./".toList <+: path → "./".toList <+: pathOf path names := by
    intro names
    induction names with
    | nil => exact fun path h => h
    | cons name names ih =>
      intro path h
      have hjoin : "./".toList <+: join path name.chars := by
        rw [join, if_neg (not_startsWith_slash name.slash_notMem)]
        split_ifs <;> exact h.trans (List.prefix_append ..)
      exact ih _ hjoin
  cases f with
  | nil =>
    obtain ⟨⟨dirs, fs⟩, -, hf⟩ := List.mem_flatMap.1 h
    obtain ⟨fn, -, hfn⟩ := List.mem_map.1 hf
    simp at hfn
  | cons name names =>
    have hdot : join ".".toList name.chars = "./".toList ++ name.chars :=
      join_of_not_suffix name.slash_notMem (by decide) (by decide)
    exact hkeep names _ ⟨name.chars, hdot.symm⟩

theorem defaultRoots_notMem : ∀ f ∈ files tree, pathOf ".".toList f ∉ defaultRoots := by
  intro f hf hmem
  have hprefix : ∀ r ∈ defaultRoots, ¬ "./".toList <+: r := by decide
  exact hprefix _ hmem (startsWith_dot hf)

end Sound

/-- **With the default arguments the script is wrong whenever it matters:** it is sound
only where no library is needed. -/
theorem sound_default_iff (elfNeeded2 : List Char → List (List Char)) (getsize : List Char → ℕ)
    (tree : Tree) :
    Sound elfNeeded2 ".".toList defaultRoots tree getsize ↔
      ∀ dir name, Needed elfNeeded2 ".".toList defaultRoots tree dir name →
        ¬ ".so".toList <:+ name.chars := by
  rw [sound_iff_of_ne_nil (by decide)]
  exact forall₄_congr fun dir name _ _ =>
    iff_of_false (not_asked_byWalk defaultRoots_notMem _) not_false

def recovery : Name := ⟨"recovery".toList, by decide, by decide, by decide, by decide⟩
def bin : Name := ⟨"bin".toList, by decide, by decide, by decide, by decide⟩
def libc : Name := ⟨"libc.so".toList, by decide, by decide, by decide, by decide⟩

/-- A recovery program and the one library that it needs. -/
def sampleTree : Tree := [([], []), ([system], []), ([system, bin], [recovery]),
  ([system, lib64], [libc])]

def sampleNeeded (p : List Char) : List (List Char) :=
  if p = "./system/bin/recovery".toList then [libc.chars] else []

theorem names_recovery : Names sampleTree "system/bin/recovery".toList [system, bin, recovery] := by
  have hpath : "system/bin/recovery".toList = relative [system, bin, recovery] := by decide
  rw [hpath]
  refine names_relative (by simp [files, sampleTree]) fun d hd hne => ?_
  have hinits : d ∈ [[], [system], [system, bin], [system, bin, recovery]] :=
    (List.mem_inits ..).2 hd
  simp only [List.mem_cons, List.not_mem_nil, or_false] at hinits
  rcases hinits with rfl | rfl | rfl | rfl
  · simp [dirs, sampleTree]
  · simp [dirs, sampleTree]
  · simp [dirs, sampleTree]
  · exact absurd rfl hne

example : Names sampleTree "./system/bin/recovery".toList [system, bin, recovery] :=
  names_recovery.dot List.mem_cons_self

theorem needed_libc : Needed sampleNeeded ".".toList defaultRoots sampleTree lib64 libc where
  isLib := .inl rfl
  file := by simp [files, sampleTree]
  asked := ⟨_, .root ⟨_, by decide, names_recovery⟩, by decide⟩

end ElfDeps
end Twrp

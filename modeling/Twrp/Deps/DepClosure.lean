/-
# `dep_closure.py`: which libraries no program needs

The script asks `llvm-readelf` for the NEEDED names of every file of `system/bin` and of
`system/lib64`, follows them from the programs and lists the libraries whose names were
not met, less those of an extra list.  A name is followed when there is a file of that
name in `system/lib64`; paths are built with the root directory in front throughout, so
what `elf_deps.py` looks up in vain is found here.

The order in which `queue.pop()` takes the paths and in which Python goes through a set
are left open (`Round`).  `search_correct` holds for all of them: the loop ends, the
closure is what the programs need (`Needed`), and a library is listed exactly when it is
not needed and not kept.

What `llvm-readelf` reads from a file and what `os.path.exists` says are parameters.
-/

import Twrp.Program.Saturation
import Twrp.Deps.ElfDeps
import Mathlib.Algebra.GroupWithZero.Nat

namespace Twrp
namespace DepClosure

open Python
open ElfDeps (Name recovery libc)

/-! ### The script -/

/-- What the script finds at its first argument. -/
structure Root where
  path : List Char
  /-- The names in `system/bin`. -/
  bin : List Name
  /-- The names in `system/lib64`, when it is a directory. -/
  lib64 : Option (List Name)
  /-- The NEEDED names that `llvm-readelf` prints for a path, none when it fails. -/
  needed : List Char → Finset (List Char)
  /-- `os.path.exists`. -/
  pathExists : List Char → Bool
  /-- A NEEDED name is a name, not a path. -/
  slash_notMem : ∀ p, ∀ d ∈ needed p, '/' ∉ d
  /-- There is a file where one was read. -/
  pathExists_of_needed : ∀ p, (needed p).Nonempty → pathExists p

/-- The loop works on the paths still to be looked at and the names met. -/
abbrev State := Saturation.State (List Char) (List Char)

namespace Root

variable (r : Root)

def bindir : List Char := join r.path "system/bin".toList
def libdir : List Char := join r.path "system/lib64".toList

def bins : List (List Char) := r.bin.map fun f => join r.bindir f.chars

/-- The names of the library files. -/
def libNames : List Name := r.lib64.getD []

def libs : List (List Char) := r.libNames.map fun f => join r.libdir f.chars

/-- The NEEDED names of everything that was listed. -/
def depMap : List (List Char × Finset (List Char)) :=
  (r.bins ++ r.libs).map fun p => (p, r.needed p)

/-- `dep_map.get(p, set())`. -/
def deps (p : List Char) : Finset (List Char) := (r.depMap.lookup p).getD ∅

/-- The path that a new name puts on the queue. -/
def next (d : List Char) : Option (List Char) :=
  if r.pathExists (join r.libdir d) then some (join r.libdir d) else none

/-- The queue is a list of the programs, the closure is empty. -/
def start : State := { queue := r.bins, closure := ∅ }

/-- One round of the loop.  The script takes the last path of the queue; here it may be
any. -/
def Round : State → State → Prop := Saturation.Step r.deps r.next

/-- What is printed and what is written to `/tmp/removable_libs.txt`. -/
structure Report where
  closure : ℕ
  printed : List (ℕ × List Char)
  total : ℕ
  written : List (List Char)

/-- The libraries that were not met and are not kept. -/
def removable (keepExtra closure : Finset (List Char)) : List (List Char) :=
  r.libs.filter fun p => decide (basename p ∉ closure ∧ basename p ∉ keepExtra)

/-- What the script reports from its closure. -/
def report (keepExtra : Finset (List Char)) (getsize : List Char → ℕ)
    (closure : Finset (List Char)) : Report :=
  let removable := r.removable keepExtra closure
  { closure := closure.card
    printed := (removable.insertionSort (· ≤ ·)).map fun p => (getsize p / 1024, basename p)
    total := (removable.map getsize).sum
    written := removable }

/-! ### What the script is for -/

/-- The names that a chain of NEEDED names leads to from a program.  It goes on only at
a name for which there is a library. -/
inductive Needed : List Char → Prop
  | program {f : Name} {d : List Char} (hf : f ∈ r.bin)
      (hd : d ∈ r.needed (join r.bindir f.chars)) : Needed d
  | library {f : Name} {d : List Char} (h : Needed f.chars) (hf : f ∈ r.libNames)
      (hd : d ∈ r.needed (join r.libdir f.chars)) : Needed d

/-! ### The paths -/

section Paths

variable {r} {d : List Char}

/-- The two directories differ behind the root. -/
theorem exists_dirs_eq (r : Root) :
    ∃ c, r.bindir = c ++ "system/bin".toList ∧ r.libdir = c ++ "system/lib64".toList := by
  obtain ⟨c, hc⟩ := exists_join_eq_append r.path
  exact ⟨c, hc _ (by decide), hc _ (by decide)⟩

/-- A name in `system/lib64`. -/
theorem join_libdir (hd : '/' ∉ d) : join r.libdir d = r.libdir ++ '/' :: d := by
  obtain ⟨c, -, hc⟩ := exists_dirs_eq r
  rw [hc]
  refine join_of_not_suffix hd (by simp) ?_
  rw [show "system/lib64".toList = "system/".toList ++ "lib64".toList from rfl, ← List.append_assoc]
  exact not_endsWith_slash (by decide) (by decide)

/-- A name in `system/bin`. -/
theorem join_bindir (hd : '/' ∉ d) : join r.bindir d = r.bindir ++ '/' :: d := by
  obtain ⟨c, hc, -⟩ := exists_dirs_eq r
  rw [hc]
  refine join_of_not_suffix hd (by simp) ?_
  rw [show "system/bin".toList = "system/".toList ++ "bin".toList from rfl, ← List.append_assoc]
  exact not_endsWith_slash (by decide) (by decide)

theorem basename_join_libdir (hd : '/' ∉ d) : basename (join r.libdir d) = d := by
  rw [join_libdir hd, basename_append hd]

/-- A path under `system/lib64` is no program. -/
theorem join_libdir_notMem_bins (hd : '/' ∉ d) : join r.libdir d ∉ r.bins := by
  intro hmem
  obtain ⟨f, -, hf⟩ := List.mem_map.1 hmem
  obtain ⟨c, hbin, hlib⟩ := exists_dirs_eq r
  rw [join_bindir f.slash_notMem, join_libdir hd, hbin, hlib, List.append_assoc,
    List.append_assoc, List.append_cancel_left_eq] at hf
  exact absurd hf (by simp)

/-- A path under `system/lib64` is the library of that name, if there is one. -/
theorem join_libdir_mem_libs (hd : '/' ∉ d) :
    join r.libdir d ∈ r.libs ↔ ∃ f ∈ r.libNames, f.chars = d := by
  refine List.mem_map.trans (exists_congr fun f => and_congr_right fun _ => ?_)
  rw [join_libdir f.slash_notMem, join_libdir hd, List.append_cancel_left_eq, List.cons_inj_right]

/-- Only what was listed has an entry in the map. -/
theorem mem_deps_iff {p : List Char} : d ∈ r.deps p ↔ p ∈ r.bins ++ r.libs ∧ d ∈ r.needed p := by
  have hsome : ∀ found, r.depMap.lookup p = some found →
      p ∈ r.bins ++ r.libs ∧ found = r.needed p := by
    intro found h
    obtain ⟨l₁, l₂, hl, -⟩ := List.lookup_eq_some_iff.1 h
    have hmem : (p, found) ∈ r.depMap := hl ▸ List.mem_append_right _ List.mem_cons_self
    obtain ⟨q, hq, heq⟩ := List.mem_map.1 hmem
    obtain ⟨rfl, rfl⟩ := Prod.mk.inj heq
    exact ⟨hq, rfl⟩
  rw [deps]
  cases hlookup : r.depMap.lookup p with
  | some found =>
    obtain ⟨hp, rfl⟩ := hsome found hlookup
    exact ⟨fun hd => ⟨hp, hd⟩, fun h => h.2⟩
  | none =>
    refine ⟨fun hd => absurd hd (Finset.notMem_empty d), fun ⟨hp, _⟩ => ?_⟩
    have hmem : (p, r.needed p) ∈ r.depMap := List.mem_map.2 ⟨p, hp, rfl⟩
    have hfound : (r.depMap.lookup p).isSome :=
      List.lookup_isSome_iff.2 ⟨_, hmem, beq_self_eq_true p⟩
    rw [hlookup] at hfound
    cases hfound

end Paths

/-! ### What the loop finds -/

section Found

variable {r}

/-- The names that can be found are finitely many. -/
def names (r : Root) : Finset (List Char) := (r.bins ++ r.libs).toFinset.biUnion r.needed

theorem deps_subset_names (p : List Char) : r.deps p ⊆ r.names := by
  intro d hd
  obtain ⟨hp, hd⟩ := mem_deps_iff.1 hd
  exact Finset.mem_biUnion.2 ⟨p, List.mem_toFinset.2 hp, hd⟩

/-- What is found was NEEDED somewhere. -/
theorem slash_notMem_of_reach {b : List Char} (h : Saturation.Reach r.deps r.next r.bins b) :
    '/' ∉ b := by
  cases h with
  | start _ hd => exact r.slash_notMem _ _ (mem_deps_iff.1 hd).2
  | step _ _ hd => exact r.slash_notMem _ _ (mem_deps_iff.1 hd).2

/-- The search is after the needed names. -/
theorem reach_iff_needed {d : List Char} :
    Saturation.Reach r.deps r.next r.bins d ↔ r.Needed d := by
  constructor
  · intro h
    induction h with
    | start hx hd =>
      obtain ⟨f, hf, rfl⟩ := List.mem_map.1 hx
      exact .program hf (mem_deps_iff.1 hd).2
    | @step x b d hb hx hd ih =>
      have hslash : '/' ∉ b := slash_notMem_of_reach hb
      obtain rfl : join r.libdir b = x := by
        rw [next] at hx
        split_ifs at hx
        exact Option.some.inj hx
      -- an entry in the map that is no program is a library
      obtain ⟨hlisted, hd⟩ := mem_deps_iff.1 hd
      have hlib : join r.libdir b ∈ r.libs :=
        (List.mem_append.1 hlisted).resolve_left (join_libdir_notMem_bins hslash)
      obtain ⟨f, hf, rfl⟩ := (join_libdir_mem_libs hslash).1 hlib
      exact .library ih hf hd
  · intro h
    induction h with
    | @program f d hf hd =>
      have hbin : join r.bindir f.chars ∈ r.bins := List.mem_map.2 ⟨f, hf, rfl⟩
      exact .start hbin (mem_deps_iff.2 ⟨List.mem_append_left _ hbin, hd⟩)
    | @library f d _ hf hd ih =>
      have hlib : join r.libdir f.chars ∈ r.libs := List.mem_map.2 ⟨f, hf, rfl⟩
      have hnext : r.next f.chars = some (join r.libdir f.chars) :=
        if_pos (r.pathExists_of_needed _ ⟨d, hd⟩)
      exact .step ih hnext (mem_deps_iff.2 ⟨List.mem_append_right _ hlib, hd⟩)

/-- A library is written to the list exactly when it was not met and is not kept. -/
theorem mem_removable_iff {keepExtra closure : Finset (List Char)} {f : Name}
    (hf : f ∈ r.libNames) :
    join r.libdir f.chars ∈ r.removable keepExtra closure ↔
      f.chars ∉ closure ∧ f.chars ∉ keepExtra := by
  have hlib : join r.libdir f.chars ∈ r.libs := List.mem_map.2 ⟨f, hf, rfl⟩
  rw [removable, List.mem_filter, decide_eq_true_iff, basename_join_libdir f.slash_notMem]
  exact and_iff_right hlib

/-- The names printed are those of the libraries written. -/
theorem mem_printed_iff {keepExtra closure : Finset (List Char)} {getsize : List Char → ℕ}
    {f : Name} :
    f.chars ∈ (r.report keepExtra getsize closure).printed.map Prod.snd ↔
      join r.libdir f.chars ∈ (r.report keepExtra getsize closure).written := by
  have hbase : (r.report keepExtra getsize closure).printed.map Prod.snd =
      ((r.removable keepExtra closure).insertionSort (· ≤ ·)).map basename := by
    rw [report, List.map_map]
    rfl
  rw [hbase, List.mem_map, report]
  constructor
  · rintro ⟨p, hp, hbase⟩
    rw [List.mem_insertionSort] at hp
    obtain ⟨g, -, rfl⟩ := List.mem_map.1 (List.mem_of_mem_filter hp)
    rw [basename_join_libdir g.slash_notMem] at hbase
    exact hbase ▸ hp
  · exact fun hp => ⟨_, (List.mem_insertionSort _).2 hp, basename_join_libdir f.slash_notMem⟩

end Found

end Root

/-- **`dep_closure.py` computes exactly the libraries that nothing needs.**  Whatever
order is taken, there is no infinite run, a run can go on until the queue is empty, and
then the closure is the set of needed names, and a library is written to the list and
printed if and only if its name is neither needed nor kept. -/
theorem search_correct (r : Root) (keepExtra : Finset (List Char)) (getsize : List Char → ℕ) :
    (¬ ∃ run : ℕ → State, ∀ n, r.Round (run n) (run (n + 1))) ∧
    ∀ s, Relation.ReflTransGen r.Round r.start s →
      (s.queue ≠ [] → ∃ t, r.Round s t) ∧
      (s.queue = [] →
        (∀ d, d ∈ s.closure ↔ r.Needed d) ∧
        ∀ f ∈ r.libNames,
          (join r.libdir f.chars ∈ (r.report keepExtra getsize s.closure).written ↔
            ¬ r.Needed f.chars ∧ f.chars ∉ keepExtra) ∧
          (f.chars ∈ (r.report keepExtra getsize s.closure).printed.map Prod.snd ↔
            ¬ r.Needed f.chars ∧ f.chars ∉ keepExtra)) := by
  refine ⟨Saturation.no_infinite_run Root.deps_subset_names, fun s hrun =>
    ⟨Saturation.Step.exists_of_ne_nil, fun hqueue => ?_⟩⟩
  have hclosure : ∀ d, d ∈ s.closure ↔ r.Needed d := fun d =>
    (Saturation.mem_closure_iff hrun hqueue).trans Root.reach_iff_needed
  refine ⟨hclosure, fun f hf => ?_⟩
  have hwritten : join r.libdir f.chars ∈ (r.report keepExtra getsize s.closure).written ↔
      ¬ r.Needed f.chars ∧ f.chars ∉ keepExtra := by
    rw [← hclosure]
    exact Root.mem_removable_iff hf
  exact ⟨hwritten, Root.mem_printed_iff.trans hwritten⟩

def libminui : Name := ⟨"libminui.so".toList, by decide, by decide, by decide, by decide⟩
def libspare : Name := ⟨"libspare.so".toList, by decide, by decide, by decide, by decide⟩

/-- A program with two libraries that need each other, and a third one. -/
def sampleNeeded (p : List Char) : Finset (List Char) :=
  if p = "out/system/bin/recovery".toList then {libminui.chars}
  else if p = "out/system/lib64/libminui.so".toList then {libc.chars, "libgone.so".toList}
  else if p = "out/system/lib64/libc.so".toList then {libminui.chars}
  else ∅

def sampleRoot : Root where
  path := "out".toList
  bin := [recovery]
  lib64 := some [libminui, libc, libspare]
  needed := sampleNeeded
  pathExists := (["out/system/bin/recovery", "out/system/lib64/libminui.so",
    "out/system/lib64/libc.so", "out/system/lib64/libspare.so"].map String.toList).contains
  slash_notMem p := by
    unfold sampleNeeded
    split_ifs <;> decide
  pathExists_of_needed p := by
    unfold sampleNeeded
    split_ifs with hprog hui hc
    · subst hprog
      decide
    · subst hui
      decide
    · subst hc
      decide
    · exact fun h => absurd h Finset.not_nonempty_empty

example : (sampleRoot.report ∅ (fun _ => 2048)
    {"libminui.so".toList, "libc.so".toList, "libgone.so".toList}).written =
      ["out/system/lib64/libspare.so".toList] := by decide

end DepClosure
end Twrp

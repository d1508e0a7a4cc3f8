/-
# The entries of an archive, in its order

`pack_dir` numbers its entries as it makes them, and sorts them afterwards.  A `Call` is a
call of `entry` with the number that it draws: `calls` are the calls in the order in which
they are made, `emitted` the same calls in the order in which their entries stand in the
archive (`packDir_emitted`).  The sort compares paths only, so the numbers have no part in
it (`map_named_emitted`).

`trailer` pads itself to a multiple of 512 bytes, without a look at what stands in front of
it.  So the archive ends at the next such boundary only if its entries do
(`endsOnBoundary_iff`).
-/

import Twrp.Program.Sorting
import Twrp.Cpio.PackDir
import Mathlib.Algebra.BigOperators.Group.List.Basic
import Mathlib.Order.Bounds.Basic

namespace Twrp
namespace Cpio

open Bytes Sorting

/-- What a path is sorted by: the number of its slashes, and then the path. -/
def pathKey (p : String) : ℕ ×ₗ String := toLex (p.toList.count '/', p)

theorem pathKey_injective : Function.Injective pathKey := fun _ _ h =>
  congrArg (fun k => (ofLex k).2) h

/-! ### The calls of `entry` -/

/-- A call of `entry`: the path that its result is sorted by, its arguments, and the number
that it draws. -/
structure Call where
  path : String
  item : Item
  ino : ℕ
  deriving DecidableEq, Repr

namespace Call

/-- What is asked for, without the number. -/
def named (x : Call) : String × Item := (x.path, x.item)

/-- What the entry is sorted by. -/
def key (x : Call) : ℕ ×ₗ String := pathKey x.path

/-- The entry that is made. -/
def blob (x : Call) : List UInt8 := Pack.entryBody x.item x.ino

/-- The tuple that is appended to `items`. -/
def packed (x : Call) : Packed := ⟨x.path.toList.count '/', x.path, x.blob⟩

end Call

/-- The calls in their order, the first of them under the number `c`. -/
def calls (t : Tree) (devs : List Device) (c : ℕ) : List Call :=
  ((plan t devs).zipIdx c).map fun x => ⟨x.1.1, x.1.2, x.2⟩

/-- The calls in the order of their entries in the archive. -/
def emitted (t : Tree) (devs : List Device) (c : ℕ) : List Call :=
  sortBy Call.key (calls t devs c)

/-- The tuples are those of the calls. -/
theorem packedFrom_eq (xs : List (String × Item)) (c : ℕ) :
    packedFrom c xs =
      ((xs.zipIdx c).map fun x => (⟨x.1.1, x.1.2, x.2⟩ : Call)).map Call.packed := by
  induction xs generalizing c with
  | nil => rfl
  | cons x xs ih =>
    rw [packedFrom, ih, List.zipIdx_cons, List.map_cons, List.map_cons]
    rfl

section Emitted

variable (t : Tree) (devs : List Device) (c : ℕ)

/-- **The archive:** the entries of the calls, sorted, and the trailer under the next number. -/
theorem packDir_emitted :
    (packDir t devs c).1 =
      (emitted t devs c).flatMap Call.blob ++ Pack.trailerBody (c + (objects t devs).length) := by
  have hsort : (emitted t devs c).map Call.packed =
      (packedFrom c (plan t devs)).insertionSort fun x y => x.key ≤ y.key := by
    rw [packedFrom_eq]
    exact map_sortBy Call.packed Packed.key (calls t devs c)
  rw [packDir_eq, ← hsort, List.flatMap_map]
  rfl

theorem emitted_perm : (emitted t devs c).Perm (calls t devs c) := sortBy_perm _ _

theorem pairwise_emitted : (emitted t devs c).Pairwise (KeyLE Call.key) := pairwise_sortBy _ _

theorem map_named_calls : (calls t devs c).map Call.named = plan t devs := by
  rw [calls, List.map_map]
  exact List.zipIdx_map_fst c (plan t devs)

/-- **The numbers are drawn one after the other.** -/
theorem map_ino_calls :
    (calls t devs c).map Call.ino = List.range' c (objects t devs).length := by
  rw [calls, List.map_map, ← length_plan]
  exact List.zipIdx_map_snd c (plan t devs)

/-- **The order of the entries** is that of their paths: the numbers have no part in it. -/
theorem map_named_emitted :
    (emitted t devs c).map Call.named = sortBy (fun x => pathKey x.1) (plan t devs) := by
  rw [← map_named_calls t devs c]
  exact map_sortBy Call.named (fun x => pathKey x.1) (calls t devs c)

/-- Every object has its entry. -/
theorem exists_emitted {o : Obj} (h : o ∈ objects t devs) :
    ∃ x ∈ emitted t devs c, x.named = (o.path, o.packed) := by
  have hplan : (o.path, o.packed) ∈ (calls t devs c).map Call.named := by
    rw [map_named_calls]
    exact (plan_perm t devs).mem_iff.2 (List.mem_map_of_mem h)
  obtain ⟨x, hx, hnamed⟩ := List.mem_map.1 hplan
  exact ⟨x, (emitted_perm t devs c).mem_iff.2 hx, hnamed⟩

/-- Every entry is that of an object. -/
theorem exists_object {x : Call} (h : x ∈ emitted t devs c) :
    ∃ o ∈ objects t devs, x.named = (o.path, o.packed) := by
  have hplan : x.named ∈ plan t devs := by
    rw [← map_named_calls t devs c]
    exact List.mem_map_of_mem ((emitted_perm t devs c).mem_iff.1 h)
  obtain ⟨o, ho, heq⟩ := List.mem_map.1 ((plan_perm t devs).mem_iff.1 hplan)
  exact ⟨o, ho, heq.symm⟩

variable {t devs c}

/-- The numbers are drawn from an interval. -/
theorem ino_mem_emitted {x : Call} (h : x ∈ emitted t devs c) :
    c ≤ x.ino ∧ x.ino < c + (objects t devs).length := by
  have hmem : x.ino ∈ (calls t devs c).map Call.ino :=
    List.mem_map_of_mem ((emitted_perm t devs c).mem_iff.1 h)
  rw [map_ino_calls] at hmem
  exact List.mem_range'_1.1 hmem

end Emitted

/-! ### The end of the archive -/

namespace Pack

/-- How many digits `fmt08x` writes. -/
def width (n : ℕ) : ℕ := max 8 (Nat.log 16 n + 1)

theorem length_fmt08x_eq (n : ℕ) : (fmt08x n).length = width n := by
  rw [fmt08x, List.length_map, length_toDigits, width]

/-- The length of an entry, from its arguments: the header and the name, and then the data,
each padded to a multiple of four. -/
def size (i : Item) (ino : ℕ) : ℕ :=
  let numbers := [ino, i.mode, i.uid, i.gid, 1, 0, i.data.encoded.length, 0, 0, i.rdevMajor,
    i.rdevMinor, i.name.length + 1, 0]
  let named := 6 + (numbers.map width).sum + (encode i.name).length + 1
  let whole := named + pad4 named + i.data.encoded.length
  whole + pad4 whole

theorem length_entryBody (i : Item) (ino : ℕ) : (entryBody i ino).length = size i ino := by
  have hmagic : (ascii "070701").length = 6 := length_magic
  unfold entryBody size
  simp only [List.length_append, hmagic, length_fmt08x_eq, length_zeros, List.length_singleton,
    List.map_cons, List.map_nil, List.sum_cons, List.sum_nil, Nat.add_zero, ← Nat.add_assoc]

/-- The trailer as an entry: padded to a multiple of four. -/
def trailerEntry (ino : ℕ) : List UInt8 :=
  let body := ascii "070701" ++ fmt08x ino ++ fmt08x 0o755 ++ fmt08x 0 ++ fmt08x 0 ++ fmt08x 1 ++
    fmt08x 0 ++ fmt08x 0 ++ fmt08x 0 ++ fmt08x 0 ++ fmt08x 11 ++ fmt08x 0 ++
    (ascii "TRAILER!!!" ++ [0])
  body ++ zeros (pad4 body.length)

/-- `trailer` pads the trailer to a multiple of 512, by its own length alone. -/
theorem trailerBody_eq (ino : ℕ) :
    trailerBody ino =
      trailerEntry ino ++ zeros ((512 - (trailerEntry ino).length % 512) % 512) := rfl

end Pack

/-- The archive `d` consists of its entries, the trailer entry and zero bytes, and its length
is the least multiple of 512 that holds the entries and the trailer entry. -/
structure EndsOnBoundary (entries last d : List UInt8) : Prop where
  shape : ∃ k, d = entries ++ last ++ zeros k
  least : IsLeast {n | 512 ∣ n ∧ (entries ++ last).length ≤ n} d.length

/-- **A last piece that is padded on its own** ends on a boundary only behind pieces that
end on one. -/
theorem endsOnBoundary_padded (entries last : List UInt8) :
    EndsOnBoundary entries last
        (entries ++ (last ++ zeros ((512 - last.length % 512) % 512))) ↔
      512 ∣ entries.length := by
  have hlen : (entries ++ (last ++ zeros ((512 - last.length % 512) % 512))).length =
      entries.length + (last.length + (512 - last.length % 512) % 512) := by
    rw [List.length_append, List.length_append, length_zeros]
  constructor
  · intro h
    have hdvd : 512 ∣ (entries ++ (last ++ zeros ((512 - last.length % 512) % 512))).length :=
      h.least.1.1
    rw [hlen] at hdvd
    omega
  · intro h
    refine ⟨⟨_, (List.append_assoc ..).symm⟩, ⟨?_, ?_⟩, ?_⟩
    · rw [hlen]
      omega
    · rw [hlen, List.length_append]
      omega
    · rintro m ⟨hm, hle⟩
      rw [List.length_append] at hle
      rw [hlen]
      omega

/-- **When the archive ends on a 512-byte boundary** as `trailer` promises: when the lengths
of its entries add up to a multiple of 512. -/
theorem endsOnBoundary_iff (t : Tree) (devs : List Device) (c : ℕ) :
    EndsOnBoundary ((emitted t devs c).flatMap Call.blob)
        (Pack.trailerEntry (c + (objects t devs).length)) (packDir t devs c).1 ↔
      512 ∣ ((calls t devs c).map fun x => Pack.size x.item x.ino).sum := by
  have hsum : ((emitted t devs c).flatMap Call.blob).length =
      ((calls t devs c).map fun x => Pack.size x.item x.ino).sum := by
    rw [List.length_flatMap]
    simp only [Call.blob, Pack.length_entryBody]
    exact ((emitted_perm t devs c).map _).sum_eq
  rw [packDir_emitted, Pack.trailerBody_eq, endsOnBoundary_padded, hsum]

/-- A directory for devices, and the null device in it. -/
def devTree : Tree := .dir "dev" 0o755 .empty .empty
def devNull : Device := ⟨"dev/null", 0o020666, 1, 3⟩

/-- A single empty file. -/
def initTree : Tree := .file "init" 0o755 [] .empty

/-- **One entry is enough** to miss the boundary: 116 bytes and a trailer of 512. -/
theorem not_endsOnBoundary_initTree :
    (packDir initTree [] Pack.firstIno).1.length = 628 ∧
      ¬ EndsOnBoundary ((emitted initTree [] Pack.firstIno).flatMap Call.blob)
        (Pack.trailerEntry (Pack.firstIno + (objects initTree []).length))
        (packDir initTree [] Pack.firstIno).1 := by
  have hlen : (packDir initTree [] Pack.firstIno).1.length = 628 := by decide +kernel
  refine ⟨hlen, fun h => ?_⟩
  have hdvd := h.least.1.1
  rw [hlen] at hdvd
  exact absurd hdvd (by decide)

end Cpio
end Twrp

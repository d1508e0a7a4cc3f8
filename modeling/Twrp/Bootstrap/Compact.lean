/-
# Unpacking what `insert_devnodes.entry` encodes

The compact layout is the one `unpack_cpio` assumes, and its scan for the next
header takes any number of NULs behind an entry.  So unpacking inverts encoding:
every entry is met, in order, with its own data, and the calls are the ones the
items describe (`unpackCpio_compact`).  What the items describe is nothing where
the code has no branch: a FIFO or a socket is passed over.
-/

import Twrp.Bootstrap.Items
import Twrp.Cpio.DevNodes

namespace Twrp
namespace Bootstrap

open Bytes Interaction Cpio

/-- An archive of the compact encoder: each item with some NULs behind it, then the
last entry and anything. -/
def compactArchive (xs : List (Item × ℕ)) (last : Item) (x : Buf) : Buf :=
  xs.flatMap (fun y => DevNodes.entry y.1.name y.1.data y.1.mode y.1.rdevMajor y.1.rdevMinor ++
    zeros y.2) ++
  (DevNodes.entry last.name last.data last.mode last.rdevMajor last.rdevMinor ++ x)

/-- The entries of a compact archive as blocks. -/
theorem compactArchive_eq {xs : List (Item × ℕ)} (h : ∀ y ∈ xs, y.1.Valid) {last : Item}
    (hlast : last.Valid) (x : Buf) :
    ∃ bs, List.Forall₂ (fun i b => Encodes i b.entry ∧ b.layout = .compact) (xs.map Prod.fst) bs ∧
      compactArchive xs last x = bs.flatMap Block.bytes ++
        ((DevNodes.compactEntry last hlast).bytes .compact ++ x) := by
  rw [compactArchive, DevNodes.entry_eq last hlast]
  induction xs with
  | nil => exact ⟨[], .nil, rfl⟩
  | cons y xs ih =>
    obtain ⟨hy, hxs⟩ := List.forall_mem_cons.1 h
    obtain ⟨bs, hbs, heq⟩ := ih hxs
    refine ⟨⟨DevNodes.compactEntry y.1 hy, .compact, y.2⟩ :: bs,
      .cons ⟨DevNodes.encodes_compactEntry y.1 hy, rfl⟩ hbs, ?_⟩
    rw [List.flatMap_cons, List.append_assoc, heq, DevNodes.entry_eq y.1 hy, List.flatMap_cons]
    simp only [Block.bytes, List.append_assoc]

/-- **The walk over a compact archive** stops at every entry and ends at the trailer. -/
theorem walk_compactArchive {xs : List (Item × ℕ)} (h : ∀ y ∈ xs, Plain y.1) {last : Item}
    (hlast : last.Valid) (hname : last.name = "TRAILER!!!") (x : Buf) :
    ∃ stops, List.Forall₂ (fun i e => Plain i ∧ StopOf .compact i e) (xs.map Prod.fst) stops ∧
      walk 0 (compactArchive xs last x) = (stops, 0) := by
  obtain ⟨bs, hbs, heq⟩ := compactArchive_eq (fun y hy => (h y hy).toValid) hlast x
  have hplain : ∀ i ∈ xs.map Prod.fst, Plain i := by
    intro i hi
    obtain ⟨y, hy, rfl⟩ := List.mem_map.1 hi
    exact h y hy
  have hord : ∀ b ∈ bs, Ordinary b.entry :=
    forall_mem_of_forall₂ hbs hplain fun i b hi hib => hi.ordinary hib.1
  have htrailer := walk_trailer
    (show (DevNodes.compactEntry last hlast).name = _ from congrArg ascii hname) .compact
  have hlen := length_entry_append (DevNodes.compactEntry last hlast) .compact x
  refine ⟨blockStops 0 bs, (List.forall₂_and_left _ _).2 ⟨hplain, stopOf_blockStops hbs 0⟩, ?_⟩
  rw [heq, walk_blocks hord (Entry.magic_prefix_bytes _ _ _) (by unfold Entry.total at hlen; omega),
    htrailer, List.append_nil]

/-- **Unpacking inverts the compact encoder,** whatever NULs stand between the
entries: the run succeeds, its creating calls are those of the items, and when no
`open` and no `write` of a file is refused the files hold the data that was encoded. -/
theorem unpackCpio_compact {σ : Type} (kernel : σ → Call → ℤ × σ) (s : σ) (logfd : ℤ) (root : Buf)
    (xs : List (Item × ℕ)) (h : ∀ y ∈ xs, Plain y.1) (last : Item) (hlast : last.Valid)
    (hname : last.name = "TRAILER!!!") (x : Buf) :
    codeOf kernel s logfd root (compactArchive xs last x) = some 0 ∧
      creating (traceOf kernel s logfd root (compactArchive xs last x)) =
        (xs.map Prod.fst).flatMap (itemCalls root) ∧
      (fileRefusals false (traceOf kernel s logfd root (compactArchive xs last x)) = [] →
        files none (traceOf kernel s logfd root (compactArchive xs last x)) =
          (xs.map Prod.fst).flatMap (itemFiles root)) := by
  obtain ⟨stops, hstops, hwalk⟩ := walk_compactArchive h hlast hname x
  refine ⟨by rw [codeOf_eq, hwalk], ?_, fun hacc => ?_⟩
  · rw [creating_traceOf, hwalk]
    exact (flatMap_eq_of_forall₂ (fun i e hie => (hie.2.createCalls_eq hie.1).symm) hstops).symm
  · rw [(files_traceOf_iff kernel s logfd root _).2 hacc, hwalk, eq_comm,
      flatMap_eq_flatMap_iff (fun i e hie => hie.2.files_eq_iff hie.1) hstops]
    exact fun _ _ _ => Or.inl rfl

/-- A directory, a file in it and a device node, with NULs behind the first two. -/
def smallTree : List (Item × ℕ) :=
  [({ name := "etc", data := .bytes [], mode := 0o040755 }, 3),
    ({ name := "etc/rc", data := .str "start\n", mode := 0o100644 }, 1),
    ({ name := "null", data := .bytes [], mode := 0o020666, rdevMajor := 1, rdevMinor := 3 }, 0)]

/-- The hypotheses are satisfiable: a small tree, and zeros behind the trailer. -/
theorem unpackCpio_compact_smallTree :
    files none (traceOf obligingKernel () (-1) (ascii ".")
      (compactArchive smallTree DevNodes.trailerItem (zeros 5))) =
        [(ascii "./etc/rc", ascii "start\n")] :=
  (unpackCpio_compact obligingKernel () (-1) (ascii ".") smallTree (by decide) DevNodes.trailerItem
    (by decide) rfl (zeros 5)).2.2 (by decide +kernel)

/-- A FIFO. -/
def fifo : Item := { name := "pipe", data := .bytes [], mode := 0o010644 }

/-- A FIFO is passed over: only the directory above it is asked for. -/
theorem unpackCpio_compact_fifo :
    Plain fifo ∧
    codeOf obligingKernel () (-1) (ascii ".") (compactArchive [(fifo, 0)] DevNodes.trailerItem []) =
      some 0 ∧
    creating (traceOf obligingKernel () (-1) (ascii ".")
      (compactArchive [(fifo, 0)] DevNodes.trailerItem [])) = [.mkdir (ascii ".") 0o755] := by
  decide +kernel

end Bootstrap
end Twrp

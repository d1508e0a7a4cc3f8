/-
# Unpacking what `pack_cpio.py` packs

The cursor follows the archive of `pack_cpio.entry` exactly, and every creating
call comes out as packed.  Two things do not survive.

* The standard layout pads the name, and `unpack_cpio` does not know that, so file
  contents and symlink targets arrive shifted unless the name happens to end on a
  multiple of four: `unpackCpio_contents_iff`.
* The trailer is not well formed, so `unpack_cpio` rejects every such archive with
  "bad namesize", after it has unpacked all of it: `unpackCpio_packed`.
-/

import Twrp.Bootstrap.Items

namespace Twrp
namespace Bootstrap

open Bytes Interaction Cpio

/-! ### The walk over a packed archive -/

/-- A packed entry as a block. -/
def standardBlock (e : Entry) : Block := ⟨e, .standard, 0⟩

theorem flatMap_standardBlock (es : List Entry) :
    (es.map standardBlock).flatMap Block.bytes = es.flatMap (Entry.bytes · .standard) := by
  rw [List.flatMap_map]
  exact List.flatMap_congr fun e _ => List.append_nil _

/-- The malformed trailer ends the walk with "bad namesize". -/
theorem walk_trailerBody {ino : ℕ} (h : ino < 2 ^ 32) (p : ℕ) :
    walk p (Pack.trailerBody ino) = ([], -2) := by
  obtain ⟨hm, hlen, hname⟩ := Pack.trailerBody_shape h
  have hns : field (Pack.trailerBody ino) 94 = 0 ∨ 1024 ≤ field (Pack.trailerBody ino) 94 := by
    rw [field_eq, hname]
    decide
  rw [walk_header hlen hm, if_pos hns]

/-- **The walk over a packed archive** stops at every entry and ends with `-2`. -/
theorem walk_archive {items : List Item} (h : ∀ i ∈ items, Plain i) {c : ℕ}
    (hc : c + Pack.drawn items < 2 ^ 32) :
    ∃ es, (Pack.entries items c).1 = es.map (Entry.bytes · .standard) ∧
      List.Forall₂ Encodes items es ∧
      walk 0 (Pack.archive items c).1 = (blockStops 0 (es.map standardBlock), -2) := by
  obtain ⟨es, hes, henc, harch⟩ := Pack.archive_run (fun i hi => (h i hi).toValid) hc.le
  refine ⟨es, congrArg Prod.fst hes, henc, ?_⟩
  obtain ⟨hm, hlen, -⟩ := Pack.trailerBody_shape hc
  have hord : ∀ b ∈ es.map standardBlock, Ordinary b.entry := by
    intro b hb
    obtain ⟨e, he, rfl⟩ := List.mem_map.1 hb
    exact forall_mem_of_forall₂ henc h (fun i e hi hie => hi.ordinary hie) e he
  rw [harch, ← flatMap_standardBlock, walk_blocks hord hm hlen, walk_trailerBody hc,
    List.append_nil]

theorem stopOf_archive {items : List Item} {es : List Entry} (h : ∀ i ∈ items, Plain i)
    (henc : List.Forall₂ Encodes items es) :
    List.Forall₂ (fun i e => Plain i ∧ StopOf .standard i e) items
      (blockStops 0 (es.map standardBlock)) := by
  refine (List.forall₂_and_left _ _).2 ⟨h, stopOf_blockStops ?_ 0⟩
  rw [List.forall₂_map_right_iff]
  exact henc.imp fun i e hie => ⟨hie, rfl⟩

/-! ### Contents -/

/-- The item's name ends on a multiple of four, so no padding follows it. -/
def Aligned (i : Item) : Prop := (110 + (i.name.length + 1)) % 4 = 0

/-- The items whose contents survive: padding behind the name is harmless in front
of a file of zeros and in front of an empty symlink. -/
def Survives (i : Item) : Prop :=
  (itemKind i = .reg → Aligned i ∨ ∀ b ∈ i.data.encoded, b = 0) ∧
    (itemKind i = .link → Aligned i ∨ i.data.encoded = [])

instance (i : Item) : Decidable (Aligned i) := inferInstanceAs (Decidable (_ = _))

instance decidableSurvives (i : Item) : Decidable (Survives i) :=
  inferInstanceAs (Decidable (_ ∧ _))

/-- **Contents of a packed archive.**  When no `open` and no `write` of a file is
refused, the files and the symlinks come out as packed if and only if each of them
has a name that ends on a multiple of four, or data that hides the shift. -/
theorem unpackCpio_contents_iff {σ : Type} (kernel : σ → Call → ℤ × σ) (s : σ) (logfd : ℤ)
    (root : Buf) (items : List Item) (h : ∀ i ∈ items, Plain i) (c : ℕ)
    (hc : c + Pack.drawn items < 2 ^ 32)
    (hacc : fileRefusals false (traceOf kernel s logfd root (Pack.archive items c).1) = []) :
    (files none (traceOf kernel s logfd root (Pack.archive items c).1) =
        items.flatMap (itemFiles root) ∧
      symlinks (creating (traceOf kernel s logfd root (Pack.archive items c).1)) =
        items.flatMap (itemLinks root)) ↔ ∀ i ∈ items, Survives i := by
  obtain ⟨es, -, henc, hwalk⟩ := walk_archive h hc
  have hstops := stopOf_archive h henc
  have hlinks : ∀ stops : List Stop, symlinks (stops.flatMap (createCalls root)) =
      stops.flatMap fun e => symlinks (createCalls root e) := fun stops => by
    rw [symlinks, List.filterMap_flatMap]
    rfl
  rw [(files_traceOf_iff kernel s logfd root _).2 hacc, creating_traceOf, hwalk, hlinks, eq_comm,
    flatMap_eq_flatMap_iff (fun i e hie => hie.2.files_eq_iff hie.1) hstops, eq_comm,
    flatMap_eq_flatMap_iff (fun i e hie => hie.2.links_eq_iff hie.1) hstops]
  simp only [Layout.gap, pad4_eq_zero_iff, Survives, Aligned, forall₂_and]

/-- A file that comes out as packed: `110 + 2` header and name bytes need no padding. -/
def alignedFile : Item := { name := "a", data := .bytes [120], mode := 0o100644 }

/-- A file that does not: one byte of padding follows its name. -/
def shiftedFile : Item := { name := "ab", data := .bytes [120], mode := 0o100644 }

/-- A directory, a file whose name ends on a multiple of four, a link, and a device. -/
def alignedItems : List Item :=
  [{ name := "etc/", data := .bytes [], mode := 0o040755 }, alignedFile,
    { name := "shell", data := .str "a", mode := 0o120777 },
    { name := "null", data := .bytes [], mode := 0o020666, rdevMajor := 1, rdevMinor := 3 }]

/-- The hypotheses are satisfiable: the file and the link have names of such a length. -/
theorem unpackCpio_contents_alignedItems :
    files none (traceOf obligingKernel () (-1) (ascii ".")
        (Pack.archive alignedItems Pack.firstIno).1) = [(ascii "./a", [120])] ∧
      symlinks (creating (traceOf obligingKernel () (-1) (ascii ".")
        (Pack.archive alignedItems Pack.firstIno).1)) = [(ascii "a", ascii "./shell")] :=
  (unpackCpio_contents_iff obligingKernel () (-1) (ascii ".") alignedItems (by decide)
    Pack.firstIno (by decide) (by decide +kernel)).2 (by decide)

/-- Padding behind the name arrives as the file's contents. -/
theorem unpackCpio_contents_shiftedFile :
    Plain shiftedFile ∧
    fileRefusals false (traceOf obligingKernel () (-1) (ascii ".")
      (Pack.archive [shiftedFile] Pack.firstIno).1) = [] ∧
    files none (traceOf obligingKernel () (-1) (ascii ".")
      (Pack.archive [shiftedFile] Pack.firstIno).1) ≠
        [shiftedFile].flatMap (itemFiles (ascii ".")) := by
  decide +kernel

/-! ### Headers -/

/-- The offsets at which consecutive pieces start. -/
def starts (p : ℕ) : List Buf → List ℕ
  | [] => []
  | b :: bs => p :: starts (p + b.length) bs

/-- A run that follows the archive: it is accepted, the cursor stops exactly where
the entries start, and the creating calls are those the items describe. -/
def Follows (root : Buf) (items : List Item) (c : ℕ) (d : Buf) (code : Option ℤ) (t : Trace) :
    Prop :=
  code = some 0 ∧ (walk 0 d).1.map Stop.off = starts 0 (Pack.entries items c).1 ∧
    (creating t).map Call.shape = (items.flatMap (itemCalls root)).map Call.shape

theorem length_starts (p : ℕ) (bs : List Buf) : (starts p bs).length = bs.length := by
  induction bs generalizing p with
  | nil => rfl
  | cons b bs ih => rw [starts, List.length_cons, ih, List.length_cons]

theorem starts_blockStops (p : ℕ) (es : List Entry) :
    (blockStops p (es.map standardBlock)).map Stop.off =
      starts p (es.map (Entry.bytes · .standard)) := by
  induction es generalizing p with
  | nil => rfl
  | cons e es ih =>
    have hlen : (standardBlock e).bytes.length = (e.bytes .standard).length :=
      congrArg List.length (List.append_nil _)
    rw [List.map_cons, blockStops, List.map_cons, hlen, ih]
    rfl

/-- **The walk itself is right.**  On every packed archive the cursor stops exactly
where the entries start, and the creating calls are those of the items but for the
targets of symlinks.  Only then comes the trailer, and the archive is rejected. -/
theorem unpackCpio_packed {σ : Type} (kernel : σ → Call → ℤ × σ) (s : σ) (logfd : ℤ) (root : Buf)
    {items : List Item} (h : ∀ i ∈ items, Plain i) {c : ℕ} (hc : c + Pack.drawn items < 2 ^ 32) :
    codeOf kernel s logfd root (Pack.archive items c).1 = some (-2) ∧
      (walk 0 (Pack.archive items c).1).1.map Stop.off = starts 0 (Pack.entries items c).1 ∧
      (creating (traceOf kernel s logfd root (Pack.archive items c).1)).map Call.shape =
        (items.flatMap (itemCalls root)).map Call.shape := by
  obtain ⟨es, hes, henc, hwalk⟩ := walk_archive h hc
  refine ⟨by rw [codeOf_eq, hwalk], by rw [hwalk, hes, starts_blockStops], ?_⟩
  rw [creating_traceOf, hwalk, List.map_flatMap, List.map_flatMap]
  exact (flatMap_eq_of_forall₂ (fun i e hie => (hie.2.shapes_eq hie.1).symm)
    (stopOf_archive h henc)).symm

/-- **No packed archive is followed to a success.**  The trailer is malformed, so
either it is reached and rejected, or an entry whose name reads as the trailer's
stood in for it and was lost. -/
theorem unpackCpio_not_follows {σ : Type} (kernel : σ → Call → ℤ × σ) (s : σ) (logfd : ℤ)
    (root : Buf) (items : List Item) (h : ∀ i ∈ items, i.Valid ∧ i.name.length ≤ 1022) (c : ℕ)
    (hc : c + Pack.drawn items < 2 ^ 32) :
    ¬ Follows root items c (Pack.archive items c).1
      (codeOf kernel s logfd root (Pack.archive items c).1)
      (traceOf kernel s logfd root (Pack.archive items c).1) := by
  rintro ⟨hcode, hstops, -⟩
  obtain ⟨es, hes, henc, harch⟩ := Pack.archive_run (fun i hi => (h i hi).1) hc.le
  obtain ⟨hm, hlen, -⟩ := Pack.trailerBody_shape hc
  rw [codeOf_eq, Option.some.injEq] at hcode
  rw [harch, ← flatMap_standardBlock] at hcode hstops
  by_cases hord : ∀ b ∈ es.map standardBlock, Ordinary b.entry
  · rw [walk_blocks hord hm hlen, walk_trailerBody hc] at hcode
    exact absurd hcode (show ¬ (-2 : ℤ) = 0 by decide)
  · have hname : ∀ e ∈ es, e.name.length ≤ 1022 := forall_mem_of_forall₂ henc h fun i e hi hie => by
      rw [hie.name, length_ascii]
      exact hi.2
    have hshort : ∀ b ∈ es.map standardBlock, b.entry.name.length ≤ 1022 := by
      intro b hb
      obtain ⟨e, he, rfl⟩ := List.mem_map.1 hb
      exact hname e he
    obtain ⟨pre, b, post, hbs, hwalk⟩ := walk_blocks_of_not_ordinary hshort hord hm hlen 0
    have hlens := congrArg List.length hstops
    have hcount := congrArg List.length hbs
    rw [hwalk, hes, List.length_map, length_blockStops, length_starts, List.length_map] at hlens
    rw [List.length_map, List.length_append, List.length_cons] at hcount
    omega

/-- A directory and a device node, packed. -/
def nodeItems : List Item :=
  [{ name := "dev/", data := .bytes [], mode := 0o040755 },
    { name := "dev/null", data := .bytes [], mode := 0o020666, rdevMajor := 1, rdevMinor := 3 }]

/-- The hypotheses are satisfiable: a directory, a device and a file with data, into a kernel
that does everything. -/
theorem unpackCpio_not_follows_nodeItems :
    ¬ Follows (ascii ".") (nodeItems ++ [shiftedFile]) Pack.firstIno
      (Pack.archive (nodeItems ++ [shiftedFile]) Pack.firstIno).1
      (codeOf obligingKernel () (-1) (ascii ".")
        (Pack.archive (nodeItems ++ [shiftedFile]) Pack.firstIno).1)
      (traceOf obligingKernel () (-1) (ascii ".")
        (Pack.archive (nodeItems ++ [shiftedFile]) Pack.firstIno).1) :=
  unpackCpio_not_follows obligingKernel () (-1) (ascii ".") _ (by decide) Pack.firstIno (by decide)

/-- Packed, the two nodes are created, and then the archive is rejected. -/
theorem unpackCpio_nodeItems_rejected :
    (∀ i ∈ nodeItems, Plain i) ∧
    ¬ Follows (ascii ".") nodeItems Pack.firstIno (Pack.archive nodeItems Pack.firstIno).1
      (codeOf obligingKernel () (-1) (ascii ".") (Pack.archive nodeItems Pack.firstIno).1)
      (traceOf obligingKernel () (-1) (ascii ".") (Pack.archive nodeItems Pack.firstIno).1) := by
  have hcode : codeOf obligingKernel () (-1) (ascii ".") (Pack.archive nodeItems Pack.firstIno).1 =
      some (-2) := by decide +kernel
  refine ⟨by decide, fun h => ?_⟩
  have := h.1
  rw [hcode] at this
  exact absurd this (by decide)

end Bootstrap
end Twrp

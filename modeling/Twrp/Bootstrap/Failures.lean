/-
# Failures of the kernel

The header of `bootstrap.c` promises that failures power off, and `main` does so
when `unpack_cpio` returns anything but `0`.  The return code, though, is the one of
the walk, and the walk never looks at an answer of the kernel: a refused `open`, a
full disk in the middle of a file or a refused `mknod` are passed over in silence.
So only an archive of nothing but directories is safe from that, and of any other a
run that returns `0` has created everything exactly when nothing was refused
(`unpackCpio_complete_iff`).
-/

import Twrp.Bootstrap.Compact

namespace Twrp
namespace Bootstrap

open Bytes Interaction Cpio

/-- The calls that create a symlink or a device node. -/
def Call.isNode : Call → Bool
  | .symlink .. | .mknod .. => true
  | _ => false

/-- Everything in front of the trailer was created: the files were opened and took
all of their data, and no symlink and no device node was refused. -/
def Complete (root d : Buf) (t : Trace) : Prop :=
  files none t = (walk 0 d).1.flatMap (expectedFiles root) ∧ ∀ x ∈ t, x.1.isNode → x.2 = 0

/-- The kernel refused no `open` or `write` of a file and no `symlink` or `mknod`. -/
def NothingRefused (t : Trace) : Prop :=
  fileRefusals false t = [] ∧ ∀ x ∈ t, x.1.isNode → x.2 = 0

/-- A kernel that refuses every call. -/
def refusingKernel (s : Unit) (_ : Call) : ℤ × Unit := (-1, s)

theorem files_of_refused {t : Trace} (h : ∀ x ∈ t, x.2 = -1) : files none t = [] := by
  induction t with
  | nil => rfl
  | cons x t ih =>
    obtain ⟨c, r⟩ := x
    obtain ⟨rfl, ht⟩ := List.forall_mem_cons.1 h
    cases c <;> exact ih ht

/-- A stop that calls for more than directories. -/
def Stop.needsKernel (e : Stop) : Prop :=
  kind e.mode = .reg ∨ kind e.mode = .link ∨ kind e.mode = .dev

theorem mem_creating {t : Trace} {c : Call} :
    c ∈ creating t ↔ c.creates ∧ ∃ x ∈ t, x.1 = c := by
  rw [creating, List.mem_filter, List.mem_map, and_comm]

/-- The node calls of a stop that needs none are none. -/
theorem isNode_of_mem_createCalls {root : Buf} {e : Stop} {c : Call} (hc : c ∈ createCalls root e)
    (hn : c.isNode) : e.needsKernel := by
  rcases List.mem_append.1 hc with hc | hc
  · obtain ⟨p, -, rfl⟩ := List.mem_map.1 hc
    exact absurd hn Bool.false_ne_true
  · unfold nodeCalls at hc
    cases hk : kind e.mode <;> rw [hk] at hc
    case dir =>
      rw [List.mem_singleton.1 hc] at hn
      exact absurd hn Bool.false_ne_true
    case other => exact absurd hc List.not_mem_nil
    case reg => exact Or.inl hk
    case link => exact Or.inr (Or.inl hk)
    case dev => exact Or.inr (Or.inr hk)

/-- A symlink and a device node are asked for by their own calls. -/
theorem exists_isNode (root : Buf) {e : Stop} (hk : kind e.mode = .link ∨ kind e.mode = .dev) :
    ∃ c ∈ createCalls root e, c.creates ∧ c.isNode := by
  rcases hk with hk | hk
  · refine ⟨.symlink (cstr (e.data.take 1023)) (fullPath root e), List.mem_append_right _ ?_, rfl,
      rfl⟩
    rw [nodeCalls, hk]
    exact List.mem_singleton_self _
  · refine ⟨.mknod (fullPath root e) e.mode (makedev e.rdevmaj e.rdevmin),
      List.mem_append_right _ ?_, rfl, rfl⟩
    rw [nodeCalls, hk]
    exact List.mem_singleton_self _

section Run

variable {σ : Type} (kernel : σ → Call → ℤ × σ) (s : σ) (logfd : ℤ) (root d : Buf)

/-- **One run.**  It is complete whenever it returns `0` if and only if the archive
is rejected or nothing was refused. -/
theorem complete_traceOf_iff :
    (codeOf kernel s logfd root d = some 0 → Complete root d (traceOf kernel s logfd root d)) ↔
      (walk 0 d).2 ≠ 0 ∨ NothingRefused (traceOf kernel s logfd root d) := by
  rw [codeOf_eq, Option.some.injEq, Complete, files_traceOf_iff, NothingRefused]
  exact imp_iff_not_or

/-- With nothing but directories there is nothing to be refused. -/
theorem complete_of_directories (h : ∀ e ∈ (walk 0 d).1, ¬ e.needsKernel) :
    Complete root d (traceOf kernel s logfd root d) := by
  constructor
  · have hnil : (walk 0 d).1.flatMap (expectedFiles root) = [] :=
      List.flatMap_eq_nil_iff.2 fun e he => if_neg fun hk => h e he (Or.inl hk)
    have hlen := length_files_traceOf kernel s logfd root d
    rw [hnil, List.length_nil] at hlen
    rw [hnil]
    exact List.eq_nil_of_length_eq_zero (Nat.le_zero.1 hlen)
  · intro x hx hn
    have hcr : x.1.creates := by
      cases hx1 : x.1 <;> rw [hx1] at hn <;> first | rfl | exact absurd hn Bool.false_ne_true
    have hmem := mem_creating.2 ⟨hcr, x, hx, rfl⟩
    rw [creating_traceOf] at hmem
    obtain ⟨e, he, hc⟩ := List.mem_flatMap.1 hmem
    exact absurd (isNode_of_mem_createCalls hc hn) (h e he)

end Run

/-- Where the archive is accepted, a kernel that refuses everything leaves out every
file, symlink and device node. -/
theorem not_complete_refusingKernel {logfd : ℤ} {root d : Buf} {e : Stop} (he : e ∈ (walk 0 d).1)
    (hk : e.needsKernel) : ¬ Complete root d (traceOf refusingKernel () logfd root d) := by
  have hans : ∀ x ∈ traceOf refusingKernel () logfd root d, x.2 = -1 :=
    Prog.exec_answers (fun _ => -1) (unpackCpio logfd d root) ()
  rintro ⟨hfiles, hnodes⟩
  rcases hk with hk | hk
  · rw [files_of_refused hans, eq_comm, List.flatMap_eq_nil_iff] at hfiles
    have := hfiles e he
    rw [expectedFiles, if_pos hk] at this
    exact absurd this (List.cons_ne_nil _ _)
  · obtain ⟨c, hc, hcr, hn⟩ := exists_isNode root hk
    have hmem : c ∈ creating (traceOf refusingKernel () logfd root d) := by
      rw [creating_traceOf]
      exact List.mem_flatMap.2 ⟨e, he, hc⟩
    obtain ⟨-, x, hx, rfl⟩ := mem_creating.1 hmem
    have h0 := hnodes x hx hn
    rw [hans x hx] at h0
    exact absurd h0 (by decide)

/-- **Success and completeness.**  That a run which returns `0` has created everything, whatever
the kernel answers, is so if and only if the archive is rejected or asks for directories only;
and of a single run it is so if and only if the archive is rejected or nothing was refused. -/
theorem unpackCpio_complete_iff (logfd : ℤ) (root d : Buf) :
    ((∀ (σ : Type) (kernel : σ → Call → ℤ × σ) (s : σ),
      codeOf kernel s logfd root d = some 0 → Complete root d (traceOf kernel s logfd root d)) ↔
        (walk 0 d).2 ≠ 0 ∨ ∀ e ∈ (walk 0 d).1, ¬ e.needsKernel) ∧
    ∀ (σ : Type) (kernel : σ → Call → ℤ × σ) (s : σ),
      (codeOf kernel s logfd root d = some 0 → Complete root d (traceOf kernel s logfd root d)) ↔
        (walk 0 d).2 ≠ 0 ∨ NothingRefused (traceOf kernel s logfd root d) := by
  refine ⟨⟨fun h => ?_, ?_⟩, fun σ kernel s => complete_traceOf_iff kernel s logfd root d⟩
  · by_contra hno
    obtain ⟨h0, hex⟩ := not_or.1 hno
    push Not at hex
    obtain ⟨e, he, hk⟩ := hex
    refine not_complete_refusingKernel he hk (h Unit refusingKernel () ?_)
    rw [codeOf_eq, not_not.1 h0]
  · rintro (h | h) σ kernel s hcode
    · rw [codeOf_eq, Option.some.injEq] at hcode
      exact absurd hcode h
    · exact complete_of_directories kernel s logfd root d h

/-- A kernel that refuses everything: the small tree is "unpacked" with success, and
its file is missing. -/
theorem unpackCpio_complete_smallTree :
    codeOf refusingKernel () (-1) (ascii ".")
      (compactArchive smallTree DevNodes.trailerItem []) = some 0 ∧
    ¬ Complete (ascii ".") (compactArchive smallTree DevNodes.trailerItem [])
      (traceOf refusingKernel () (-1) (ascii ".")
        (compactArchive smallTree DevNodes.trailerItem [])) := by
  have hfiles : files none (traceOf refusingKernel () (-1) (ascii ".")
      (compactArchive smallTree DevNodes.trailerItem [])) ≠
      (walk 0 (compactArchive smallTree DevNodes.trailerItem [])).1.flatMap
        (expectedFiles (ascii ".")) := by decide +kernel
  exact ⟨by decide +kernel, fun h => hfiles h.1⟩

end Bootstrap
end Twrp

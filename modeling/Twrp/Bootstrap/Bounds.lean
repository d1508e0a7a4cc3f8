/-
# `unpack_cpio` is bounded on every input

A program over the arrays of `Bootstrap.Memory` faults where the C code would read outside
the buffer, store outside an array, or look for the NUL of a string that has none.  None
of this happens, for any buffer and whatever the arrays held before: `pass_wp` for one
pass of the loop, wherever the cursor stands, and `unpackCpio_bounded` for the whole run,
which is over after at most one pass for each byte of the buffer.
-/

import Twrp.Bootstrap.Compact
import Twrp.Bootstrap.Memory

namespace Twrp
namespace Bootstrap

open Bytes Interaction Cpio

/-- The return codes of `unpack_cpio`. -/
def returnCodes : List ℤ := [0, -1, -2, -3, -4]

/-- A pass from `p` ends the loop with a return code, or moves the cursor forward. -/
def Pass.Advances (p : ℕ) : Pass → Prop
  | .done rc => rc ∈ returnCodes
  | .next q => p < q

theorem finish_done_wp {logfd rc : ℤ} (h : rc ∈ returnCodes) (m : Stack) (p : ℕ) :
    (finish logfd rc >>= fun rc => Prog.ret (Pass.done rc, m)).wp fun _ r => r.1.Advances p := by
  refine Prog.wp_bind.2 ((finish_wp logfd rc).mono ?_)
  rintro t rc' ⟨-, rfl⟩
  exact h

/-- **One pass** stays inside the buffer and the arrays, whatever the arrays hold and
wherever the cursor stands, and it ends the loop or moves the cursor forward. -/
theorem pass_wp (logfd : ℤ) (root : CString) {d : Buf} (hd : d.length < 2 ^ 64) (m : Stack)
    (p : ℕ) : (pass logfd root d m p).wp fun _ r => r.1.Advances p := by
  by_cases hp : p + 110 ≤ d.length
  swap
  · rw [pass_end logfd root m hp]
    exact finish_done_wp (by decide) m p
  by_cases hm : magic <+: d.drop p
  · obtain ⟨m', hpass⟩ := pass_header logfd root hd m hp hm
    rw [hpass]
    dsimp only
    split_ifs with h1 h2 h3
    · exact finish_done_wp (by decide) m' p
    · exact finish_done_wp (by decide) m' p
    · exact finish_done_wp (by decide) m' p
    · have hadv := advance_pos (d.drop p)
      refine Prog.wp_bind.2 ((visit_wp (inBuf_stopAt hp h2)).mono fun _ _ _ => ?_)
      exact show p < p + advance (d.drop p) by omega
  · rw [pass_resync logfd root m hp hm]
    cases hs : seek magic 110 (d.drop (p + 1)) with
    | none => exact finish_done_wp (by decide) m p
    | some s' =>
      have hle := (seek_spec hs).1.length_le
      rw [List.length_drop] at hle
      exact show p < d.length - s'.length by omega

theorem walk_mem_returnCodes (p : ℕ) (s : Buf) : (walk p s).2 ∈ returnCodes := by
  fun_induction walk p s with
  | case4 _ _ _ _ _ _ _ _ ih => exact ih
  | case6 _ _ _ _ _ _ ih => exact ih
  | _ => decide

/-- **`unpack_cpio` is bounded and ends.**  For every buffer and whatever the arrays held:
no pass reads or stores outside, or reads an array that is not terminated; each pass ends
the loop or moves the cursor forward; no sum of lengths wraps; and within one pass for each
byte of the buffer, and one, the loop returns one of the codes. -/
theorem unpackCpio_bounded (logfd : ℤ) (root : CString) (d : Buf) (hd : d.length < 2 ^ 64) :
    (∀ m p, (pass logfd root d m p).wp fun _ r => r.1.Advances p) ∧
      (∀ namesize filesize, (size namesize filesize).toNat = total namesize filesize ∧
        (padded (size namesize filesize)).toNat =
          total namesize filesize + pad4 (total namesize filesize)) ∧
      ∀ m, (loop logfd root d (d.length + 1) m 0).wp fun _ r =>
        ∃ rc ∈ returnCodes, r = some rc := by
  refine ⟨pass_wp logfd root hd, fun ns fs => ⟨toNat_size ns fs, toNat_padded ns fs⟩, fun m => ?_⟩
  rw [loop_eq logfd root hd m (by omega)]
  refine Prog.wp_bind.2 ((unpackCpio_runs logfd d root.bytes).mono ?_)
  rintro t rc ⟨rfl, -⟩
  exact ⟨_, walk_mem_returnCodes 0 d, rfl⟩

/-- The root that `main` passes. -/
def here : CString := ⟨ascii ".", by decide⟩

/-- An array full of NULs. -/
def blank (n : ℕ) : CArray n := ⟨zeros n, length_zeros n⟩

def blankStack : Stack := ⟨blank 1024, blank 2048, blank 1024, blank 1024⟩

/-- The hypothesis is satisfiable: an archive of a directory, a file and a device, and arrays
full of NULs; the first pass reads a header and a name. -/
theorem unpackCpio_bounded_smallTree :
    let d := compactArchive smallTree Cpio.DevNodes.trailerItem []
    ((pass (-1) here d blankStack 0).wp fun _ r => r.1.Advances 0) ∧
      (loop (-1) here d (d.length + 1) blankStack 0).wp fun _ r =>
        ∃ rc ∈ returnCodes, r = some rc := by
  intro d
  have hd : d.length < 2 ^ 64 := by decide +kernel
  clear_value d
  obtain ⟨hpass, -, hloop⟩ := unpackCpio_bounded (-1) here d hd
  exact ⟨hpass blankStack 0, hloop blankStack⟩

end Bootstrap
end Twrp

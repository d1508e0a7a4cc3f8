/-
# Cutting the archive short and reading past it

The bootstrapper reads a partition into memory and unpacks what it got, so the
buffer may end too early (a short `read`) or go on after the archive (the rest of
the partition).  The walk reads its buffer from the front, and every test against
the end of the buffer fails closed, which gives two facts about `walk`: more bytes
never take back a stop (`walk_prefix`), and once the trailer is reached they change
nothing at all (`walk_append`).  The rest follows: the archive has a length
below which every cut is rejected, and from which on no cut is noticed.
-/

import Twrp.Bootstrap.Compact
import Mathlib.Order.Nat

namespace Twrp
namespace Bootstrap

open Bytes Interaction Cpio

/-! ### Reading a longer buffer -/

/-- A field of the header does not depend on what follows it. -/
theorem field_append {s : Buf} {i : ℕ} (h : i + 8 ≤ s.length) (x : Buf) :
    field (s ++ x) i = field s i := by
  rw [field, slice_append_left h, field]

/-- Nor does the way over the entry. -/
theorem advance_append {s : Buf} (h : 110 ≤ s.length) (x : Buf) : advance (s ++ x) = advance s := by
  rw [advance, field_append (by omega), field_append (by omega), advance]

/-- Nor does the name of an entry that is there. -/
theorem rawName_append {s : Buf} (h : total (field s 94) (field s 54) ≤ s.length) (x : Buf) :
    rawName (s ++ x) = rawName s := by
  unfold total at h
  rw [rawName, field_append (by omega), slice_append_left (by omega), rawName]

/-- Nor does the stop at it. -/
theorem stopAt_append {s : Buf} (h : total (field s 94) (field s 54) ≤ s.length) (p : ℕ) (x : Buf) :
    stopAt p (s ++ x) = stopAt p s := by
  have hname := rawName_append h x
  unfold total at h
  simp only [stopAt, hname, field_append (show 14 + 8 ≤ s.length by omega),
    field_append (show 54 + 8 ≤ s.length by omega), field_append (show 78 + 8 ≤ s.length by omega),
    field_append (show 86 + 8 ≤ s.length by omega), field_append (show 94 + 8 ≤ s.length by omega),
    slice_append_left (show 110 + (field s 94).toNat + (field s 54).toNat ≤ s.length by omega)]

/-- Nor does the magic. -/
theorem magic_prefix_append_iff {s : Buf} (h : 110 ≤ s.length) (x : Buf) :
    magic <+: s ++ x ↔ magic <+: s :=
  ⟨fun hp => List.prefix_of_prefix_length_le hp (List.prefix_append s x)
      (by rw [length_magic]; omega),
    fun hp => hp.trans (List.prefix_append s x)⟩

/-- The resync scan of a longer buffer finds the same header. -/
theorem walk_append_of_seek {p : ℕ} {s s' : Buf} (h : 110 ≤ s.length) (hm : ¬ magic <+: s)
    (hs : seek magic 110 s.tail = some s') (x : Buf) :
    walk p (s ++ x) = walk (p + (s.length - s'.length)) (s' ++ x) := by
  have hne : s ≠ [] := List.ne_nil_of_length_pos (by omega)
  have hseek : seek magic 110 (s ++ x).tail = some (s' ++ x) := by
    rw [List.tail_append_of_ne_nil hne]
    exact seek_append (by omega) (by rw [length_magic]; omega) hs x
  have hlen : (s ++ x).length - (s' ++ x).length = s.length - s'.length := by
    rw [List.length_append, List.length_append, Nat.add_sub_add_right]
  rw [walk_of_seek_eq_some (by rw [List.length_append]; omega)
    (mt (magic_prefix_append_iff h x).1 hm) hseek, hlen]

/-- The pass over a complete header of a longer buffer. -/
theorem walk_append_of_header {p : ℕ} {s : Buf} (h : 110 ≤ s.length) (hm : magic <+: s)
    (hns : ¬ (field s 94 = 0 ∨ 1024 ≤ field s 94))
    (hlen : ¬ s.length < total (field s 94) (field s 54)) (x : Buf) :
    walk p (s ++ x) =
      if rawName s = ascii "TRAILER!!!" then ([], 0)
      else (stopAt p s :: (walk (p + advance s) ((s ++ x).drop (advance s))).1,
        (walk (p + advance s) ((s ++ x).drop (advance s))).2) := by
  have hlen' : (s ++ x).length = s.length + x.length := List.length_append
  rw [walk_header (by omega) ((magic_prefix_append_iff h x).2 hm), field_append (by omega),
    field_append (by omega), if_neg hns, if_neg (by omega), rawName_append (by omega),
    stopAt_append (by omega), advance_append h]

/-- **More bytes never take back a stop.** -/
theorem walk_prefix (p : ℕ) (s x : Buf) : (walk p s).1 <+: (walk p (s ++ x)).1 := by
  fun_induction walk p s with
  | case1 | case2 | case3 | case5 | case7 => exact List.nil_prefix
  | case4 p s h hm hns hlen hname r ih =>
    rw [walk_append_of_header h hm hns hlen, if_neg hname]
    refine List.cons_prefix_cons.2 ⟨rfl, ?_⟩
    rcases Nat.le_total (advance s) s.length with hadv | hadv
    · rw [List.drop_append_of_le_length hadv]
      exact ih
    · show (walk _ (s.drop (advance s))).1 <+: _
      rw [List.drop_eq_nil_of_le hadv, walk_of_length_lt (by simp)]
      exact List.nil_prefix
  | case6 p s h hm s' hseek ih =>
    rw [walk_append_of_seek h hm hseek]
    exact ih

/-- **Behind the trailer nothing matters.** -/
theorem walk_append {p : ℕ} {s : Buf} (h0 : (walk p s).2 = 0) (x : Buf) :
    walk p (s ++ x) = walk p s := by
  fun_induction walk p s with
  | case1 | case2 | case5 | case7 => simp at h0
  | case3 p s h hm hns hlen hname =>
    rw [walk_append_of_header h hm hns hlen, if_pos hname]
  | case4 p s h hm hns hlen hname r ih =>
    -- the walk goes on behind this entry, so the entry and its padding are all there
    have hadv : advance s ≤ s.length := by
      by_contra hlt
      have : walk (p + advance s) (s.drop (advance s)) = ([], -4) := by
        rw [List.drop_eq_nil_of_le (by omega), walk_of_length_lt (by simp)]
      have : (walk (p + advance s) (s.drop (advance s))).2 = 0 := h0
      simp_all
    rw [walk_append_of_header h hm hns hlen, if_neg hname, List.drop_append_of_le_length hadv,
      ih h0]
  | case6 p s h hm s' hseek ih =>
    rw [walk_append_of_seek h hm hseek]
    exact ih h0

/-! ### Runs of the program -/

/-- What one run shows: its creating calls and its return code. -/
def observed {σ : Type} (kernel : σ → Call → ℤ × σ) (s : σ) (logfd : ℤ) (root d : Buf) :
    List Call × Option ℤ :=
  (creating (traceOf kernel s logfd root d), codeOf kernel s logfd root d)

/-- What is seen of a run is what the walk says. -/
theorem observed_eq {σ : Type} (kernel : σ → Call → ℤ × σ) (s : σ) (logfd : ℤ) (root d : Buf) :
    observed kernel s logfd root d =
      ((walk 0 d).1.flatMap (createCalls root), some (walk 0 d).2) := by
  rw [observed, creating_traceOf, codeOf_eq]

/-- **Truncation is always detected, and trailing bytes never matter.**  An accepted
archive is accepted with anything behind it, with the same run; and it has a length
`n` such that every cut at `n` or later gives the same run, while every cut before
`n` is rejected after a prefix of its calls. -/
theorem unpackCpio_truncation {σ : Type} (kernel : σ → Call → ℤ × σ) (s : σ) (logfd : ℤ)
    (root d : Buf) (h0 : (observed kernel s logfd root d).2 = some 0) :
    (∀ x, observed kernel s logfd root (d ++ x) = observed kernel s logfd root d) ∧
    ∃ n ≤ d.length, ∀ m ≤ d.length,
      (n ≤ m → observed kernel s logfd root (d.take m) = observed kernel s logfd root d) ∧
      (m < n → (∃ rc ≠ 0, (observed kernel s logfd root (d.take m)).2 = some rc) ∧
        (observed kernel s logfd root (d.take m)).1 <+: (observed kernel s logfd root d).1) := by
  simp only [observed_eq, Option.some.injEq] at h0 ⊢
  have hex : ∃ n, (walk 0 (d.take n)).2 = 0 := ⟨d.length, by rwa [List.take_length]⟩
  refine ⟨fun x => by rw [walk_append h0], Nat.find hex,
    Nat.find_min' hex (by rwa [List.take_length]), fun m hm => ⟨fun hn => ?_, fun hn => ⟨?_, ?_⟩⟩⟩
  · -- the shortest accepted prefix decides both runs
    have hfirst := walk_append (Nat.find_spec hex)
    have hcut : d.take m = d.take (Nat.find hex) ++ (d.take m).drop (Nat.find hex) := by
      conv_lhs => rw [← List.take_append_drop (Nat.find hex) (d.take m), List.take_take,
        Nat.min_eq_left hn]
    have hall : walk 0 d = walk 0 (d.take (Nat.find hex)) := by
      conv_lhs => rw [← List.take_append_drop (Nat.find hex) d]
      exact hfirst _
    rw [hcut, hfirst, hall]
  · exact ⟨_, Nat.find_min hex hn, rfl⟩
  · have hpre := walk_prefix 0 (d.take m) (d.drop m)
    rw [List.take_append_drop] at hpre
    obtain ⟨rest, hrest⟩ := hpre
    rw [← hrest, List.flatMap_append]
    exact List.prefix_append _ _

/-- The hypothesis is satisfiable: a directory, a file and a device are unpacked as before with
zeros behind them, and a cut inside the header of the device is rejected. -/
theorem unpackCpio_truncation_smallTree :
    let d := compactArchive smallTree DevNodes.trailerItem []
    observed obligingKernel () (-1) (ascii ".") (d ++ zeros 5) =
        observed obligingKernel () (-1) (ascii ".") d ∧
      (∃ rc ≠ 0, (observed obligingKernel () (-1) (ascii ".") (d.take 300)).2 = some rc) ∧
      (observed obligingKernel () (-1) (ascii ".") (d.take 300)).1 <+:
        (observed obligingKernel () (-1) (ascii ".") d).1 := by
  intro d
  have h0 : (observed obligingKernel () (-1) (ascii ".") d).2 = some 0 := by
    rw [observed_eq]
    decide +kernel
  obtain ⟨hext, n, -, hcut⟩ := unpackCpio_truncation obligingKernel () (-1) (ascii ".") d h0
  obtain ⟨hsame, hshort⟩ := hcut 300 (by decide +kernel)
  have hn : 300 < n := by
    by_contra hle
    have hcode := (congrArg Prod.snd (hsame (Nat.not_lt.1 hle))).trans h0
    rw [observed_eq] at hcode
    exact absurd hcode (by decide +kernel)
  exact ⟨hext _, hshort hn⟩

end Bootstrap
end Twrp

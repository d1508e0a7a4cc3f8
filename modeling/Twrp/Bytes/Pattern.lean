/-
# Looking for a marker in a byte stream

A reader that has lost its place looks for the next occurrence of a marker `w`,
one element at a time, and gives up when fewer than `n` elements are left
(`seek w n`).  When does it stop exactly where a writer put a marker?  When no
earlier position matches, and for a marker that never overlaps itself
(`Unbordered`) that follows from what lies in between: a gap shorter than the
marker, and behind it any filler whose elements the marker does not contain.
-/

import Mathlib.Data.Nat.Notation
import Mathlib.Data.List.Infix
import Mathlib.Order.Basic

namespace Bytes

variable {α : Type*}

/-- `w` has no proper border: no proper suffix of `w` is also a prefix of it, so
two occurrences of `w` in one list never overlap. -/
def Unbordered (w : List α) : Prop :=
  ∀ k < w.length, 0 < k → w.drop k ≠ w.take (w.length - k)

instance [DecidableEq α] (w : List α) : Decidable (Unbordered w) :=
  inferInstanceAs (Decidable (∀ k < w.length, _))

/-- No position inside `junk` starts an occurrence of `w` in `junk ++ rest`. -/
def Clean (w junk rest : List α) : Prop :=
  ∀ t, t <:+ junk → t ≠ [] → ¬ w <+: t ++ rest

theorem clean_nil (w rest : List α) : Clean w [] rest :=
  fun _ ht hne => absurd (List.suffix_nil.1 ht) hne

theorem Clean.of_suffix {w j t rest : List α} (h : Clean w j rest) (ht : t <:+ j) :
    Clean w t rest :=
  fun u hu hne => h u (hu.trans ht) hne

theorem Clean.append {w j k rest : List α} (hj : Clean w j (k ++ rest)) (hk : Clean w k rest) :
    Clean w (j ++ k) rest := by
  rintro t ⟨p, hp⟩ hne hpre
  rcases List.append_eq_append_iff.1 hp with ⟨u, hu, rfl⟩ | ⟨u, -, hu⟩
  · rcases eq_or_ne u [] with rfl | hu0
    · exact hk k List.suffix_rfl hne hpre
    · rw [List.append_assoc] at hpre
      exact hj u ⟨p, hu.symm⟩ hu0 hpre
  · exact hk t ⟨u, hu.symm⟩ hne hpre

/-- **An unbordered marker is not found early across a short gap.** -/
theorem Unbordered.clean {w junk rest : List α} (hw : Unbordered w) (hrest : w <+: rest)
    (hlen : junk.length < w.length) : Clean w junk rest := by
  intro t ht hne hpre
  have htlen : t.length < w.length := lt_of_le_of_lt ht.length_le hlen
  refine hw t.length htlen (List.length_pos_iff.2 hne) ?_
  rw [List.prefix_iff_eq_take] at hpre hrest
  calc w.drop t.length
      = ((t ++ rest).take w.length).drop t.length := by rw [← hpre]
    _ = rest.take (w.length - t.length) := by rw [List.drop_take, List.drop_left]
    _ = w.take (w.length - t.length) := by
        have := congrArg (List.take (w.length - t.length)) hrest
        rw [List.take_take, Nat.min_eq_left (Nat.sub_le ..)] at this
        exact this.symm

/-- **Nor across a short gap followed by a filler** whose elements the marker does
not contain. -/
theorem Unbordered.clean_fill {w junk fill rest : List α} (hw : Unbordered w) (hrest : w <+: rest)
    (hlen : junk.length < w.length) (hfill : ∀ x ∈ fill, x ∉ w) : Clean w (junk ++ fill) rest := by
  cases fill with
  | nil =>
    rw [List.append_nil]
    exact hw.clean hrest hlen
  | cons z fs =>
    rintro t ⟨p, hp⟩ hne hpre
    rcases List.append_eq_append_iff.1 hp with ⟨u, hu, rfl⟩ | ⟨u, -, hu⟩
    · -- the filler's first element lies inside the occurrence
      have hlt : u.length < w.length := by
        rw [hu, List.length_append] at hlen
        omega
      have hmem : w[u.length] = z := by simpa using hpre.getElem hlt
      exact hfill z (List.mem_cons_self ..) (hmem ▸ List.getElem_mem hlt)
    · -- the occurrence starts with an element of the filler
      obtain ⟨y, v, rfl⟩ := List.exists_cons_of_ne_nil hne
      cases w with
      | nil => exact absurd hlen (Nat.not_lt_zero _)
      | cons x w =>
        rw [List.cons_append, List.cons_prefix_cons] at hpre
        refine hfill y ?_ (hpre.1 ▸ List.mem_cons_self ..)
        rw [hu]
        exact List.mem_append_right u (List.mem_cons_self ..)

section Seek

variable [DecidableEq α]

/-- The first suffix that starts with `w` and still has `n` elements. -/
def seek (w : List α) (n : ℕ) : List α → Option (List α)
  | [] => none
  | x :: xs =>
    if n ≤ (x :: xs).length then
      if w <+: x :: xs then some (x :: xs) else seek w n xs
    else none

variable {w : List α} {n : ℕ}

/-- A marker in place is found in place. -/
theorem seek_of_prefix {s : List α} (hn0 : 0 < n) (hw : w <+: s) (hn : n ≤ s.length) :
    seek w n s = some s := by
  cases s with
  | nil => exact absurd hn (by simp; omega)
  | cons x xs => rw [seek, if_pos hn, if_pos hw]

/-- **The search stops at the marker behind a clean gap.** -/
theorem seek_clean {junk rest : List α} (hn0 : 0 < n) (hc : Clean w junk rest) (hw : w <+: rest)
    (hn : n ≤ rest.length) : seek w n (junk ++ rest) = some rest := by
  induction junk with
  | nil => exact seek_of_prefix hn0 hw hn
  | cons x xs ih =>
    have hx : ¬ w <+: x :: (xs ++ rest) := hc (x :: xs) List.suffix_rfl (by simp)
    rw [List.cons_append, seek, if_pos (by simp; omega), if_neg hx]
    exact ih (hc.of_suffix (List.suffix_cons x xs))

/-- What the search returns is a suffix that starts with the marker. -/
theorem seek_spec {s s' : List α} (h : seek w n s = some s') :
    s' <:+ s ∧ w <+: s' ∧ n ≤ s'.length := by
  induction s with
  | nil => exact absurd h (by simp [seek])
  | cons x xs ih =>
    rw [seek] at h
    split_ifs at h with hn hw
    · obtain rfl := Option.some.inj h
      exact ⟨List.suffix_rfl, hw, hn⟩
    · obtain ⟨h1, h2⟩ := ih h
      exact ⟨h1.trans (List.suffix_cons x xs), h2⟩

/-- Elements behind a match do not move it. -/
theorem seek_append {s s' : List α} (hn0 : 0 < n) (hwn : w.length ≤ n) (h : seek w n s = some s')
    (x : List α) : seek w n (s ++ x) = some (s' ++ x) := by
  induction s with
  | nil => exact absurd h (by simp [seek])
  | cons y ys ih =>
    rw [seek] at h
    split_ifs at h with hn hw
    · obtain rfl := Option.some.inj h
      exact seek_of_prefix hn0 (hw.trans (List.prefix_append _ x)) (by simp at hn ⊢; omega)
    · have hw' : ¬ w <+: y :: (ys ++ x) := fun hp =>
        hw (List.prefix_of_prefix_length_le hp (List.prefix_append (y :: ys) x) (by omega))
      rw [List.cons_append, seek, if_pos (by simp at hn ⊢; omega), if_neg hw']
      exact ih h

/-- What is only found with more elements behind has those elements in reach. -/
theorem length_lt_of_seek_append {s x t : List α} (hn0 : 0 < n) (hwn : w.length ≤ n)
    (hs : seek w n s = none) (hx : seek w n (s ++ x) = some t) : t.length < n + x.length := by
  induction s with
  | nil =>
    have := (seek_spec hx).1.length_le
    rw [List.nil_append] at this
    omega
  | cons y ys ih =>
    by_cases hn : n ≤ (y :: ys).length
    · rw [seek, if_pos hn] at hs
      split_ifs at hs with hw
      have hw' : ¬ w <+: y :: (ys ++ x) := fun hp =>
        hw (List.prefix_of_prefix_length_le hp (List.prefix_append (y :: ys) x) (by omega))
      rw [List.cons_append, seek, if_pos (by simp at hn ⊢; omega), if_neg hw'] at hx
      exact ih hs hx
    · have := (seek_spec hx).1.length_le
      rw [List.length_append] at this
      omega

/-- The first occurrence of `w` in `junk ++ rest` that starts inside `junk`. -/
def occurrence (w : List α) : List α → List α → Option (List α)
  | [], _ => none
  | x :: xs, rest => if w <+: x :: xs ++ rest then some (x :: xs ++ rest) else occurrence w xs rest

/-- A gap without an occurrence is clean. -/
theorem clean_of_occurrence_eq_none {junk rest : List α} (h : occurrence w junk rest = none) :
    Clean w junk rest := by
  induction junk with
  | nil => exact clean_nil w rest
  | cons x xs ih =>
    rw [occurrence] at h
    split_ifs at h with hw
    intro t ht hne
    rcases List.suffix_cons_iff.1 ht with rfl | ht
    · exact hw
    · exact ih h t ht hne

/-- Up to its first occurrence a gap is clean. -/
theorem occurrence_spec {junk rest s : List α} (h : occurrence w junk rest = some s) :
    ∃ u t, junk = u ++ t ∧ t ≠ [] ∧ s = t ++ rest ∧ w <+: s ∧ Clean w u s := by
  induction junk with
  | nil => exact absurd h (by simp [occurrence])
  | cons x xs ih =>
    rw [occurrence] at h
    split_ifs at h with hw
    · obtain rfl := Option.some.inj h
      exact ⟨[], x :: xs, rfl, List.cons_ne_nil x xs, rfl, hw, clean_nil w _⟩
    · obtain ⟨u, t, rfl, hne, rfl, hpre, hclean⟩ := ih h
      refine ⟨x :: u, t, rfl, hne, rfl, hpre, fun v hv hv0 => ?_⟩
      rcases List.suffix_cons_iff.1 hv with rfl | hv
      · rwa [List.cons_append, ← List.append_assoc]
      · exact hclean v hv hv0

theorem seek_of_length_lt {s : List α} (h : s.length < n) : seek w n s = none := by
  cases s with
  | nil => rfl
  | cons x xs => rw [seek, if_neg (by omega)]

end Seek

end Bytes

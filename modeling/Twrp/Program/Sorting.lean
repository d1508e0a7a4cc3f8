/-
# Sorting by a key

`list.sort(key=...)` puts a list in order of a key and leaves what has the same key as it
was: `sortBy`.  The sort sees nothing but the keys, so it commutes with every function that
keeps them (`map_sortBy`), and a list of distinct keys is sorted in one way only, however it
was shuffled (`sortBy_eq_of_perm`).  What was numbered in front of the sort keeps its numbers
in order only where there was nothing to sort (`pairwise_sortBy_iff`).
-/

import Mathlib.Data.List.Sort
import Mathlib.Data.List.Nodup

namespace Sorting

variable {α β κ : Type*} [LinearOrder κ]

/-- The order of the keys. -/
def KeyLE (key : α → κ) (x y : α) : Prop := key x ≤ key y

instance (key : α → κ) : DecidableRel (KeyLE key) :=
  fun x y => inferInstanceAs (Decidable (key x ≤ key y))

instance (key : α → κ) : Std.Total (KeyLE key) := ⟨fun _ _ => le_total _ _⟩

instance (key : α → κ) : IsTrans α (KeyLE key) := ⟨fun _ _ _ => le_trans⟩

/-- A list in order of its keys. -/
def sortBy (key : α → κ) (xs : List α) : List α := xs.insertionSort (KeyLE key)

variable (key : α → κ)

theorem sortBy_perm (xs : List α) : (sortBy key xs).Perm xs := List.perm_insertionSort _ xs

theorem pairwise_sortBy (xs : List α) : (sortBy key xs).Pairwise (KeyLE key) :=
  List.pairwise_insertionSort _ xs

/-- **The sort sees nothing but the keys.** -/
theorem map_sortBy (f : α → β) (key : β → κ) (xs : List α) :
    (sortBy (fun x => key (f x)) xs).map f = sortBy key (xs.map f) :=
  List.map_insertionSort (KeyLE fun x => key (f x)) (KeyLE key) f xs fun _ _ _ _ => Iff.rfl

variable {key}

/-- Of lists that are sorted to the same, so are all longer ones. -/
theorem sortBy_append_congr {ys zs : List α} (h : sortBy key ys = sortBy key zs) (xs : List α) :
    sortBy key (xs ++ ys) = sortBy key (xs ++ zs) := by
  induction xs with
  | nil => exact h
  | cons x xs ih =>
    unfold sortBy at ih ⊢
    rw [List.cons_append, List.cons_append, List.insertionSort_cons, List.insertionSort_cons, ih]

/-- **Distinct keys are sorted in one way only.** -/
theorem sortBy_eq_of_perm {xs ys : List α} (h : xs.Perm ys) (hnodup : (xs.map key).Nodup) :
    sortBy key xs = sortBy key ys := by
  refine List.Perm.eq_of_pairwise (fun x y hx hy hxy hyx => ?_) (pairwise_sortBy key xs)
    (pairwise_sortBy key ys) ((sortBy_perm key xs).trans (h.trans (sortBy_perm key ys).symm))
  exact List.inj_on_of_nodup_map hnodup ((sortBy_perm key xs).mem_iff.1 hx)
    (h.mem_iff.2 ((sortBy_perm key ys).mem_iff.1 hy)) (le_antisymm hxy hyx)

/-- A list of distinct keys is told from its permutations by the keys. -/
theorem eq_of_perm_of_map_eq {f : α → β} {xs ys : List α} (h : xs.Perm ys)
    (hnodup : (xs.map f).Nodup) (hmap : xs.map f = ys.map f) : xs = ys := by
  refine List.ext_getElem h.length_eq fun i hi hi' => ?_
  have hget := List.getElem_of_eq hmap (by rwa [List.length_map])
  rw [List.getElem_map, List.getElem_map] at hget
  exact List.inj_on_of_nodup_map hnodup (List.getElem_mem hi)
    (h.mem_iff.2 (List.getElem_mem hi')) hget

/-- A list that is numbered in its order is told from its permutations by the numbers. -/
theorem eq_of_perm_of_pairwise_lt {number : α → ℕ} {xs ys : List α} (h : xs.Perm ys)
    (hxs : xs.Pairwise fun x y => number x < number y)
    (hys : ys.Pairwise fun x y => number x < number y) : xs = ys :=
  List.Perm.eq_of_pairwise (fun _ _ _ _ hxy hyx => absurd hxy (Nat.lt_asymm hyx)) hxs hys h

/-- **Numbers that were given in front of the sort** are in order behind it exactly when
there was nothing to sort. -/
theorem pairwise_sortBy_iff {number : α → ℕ} {xs : List α}
    (h : xs.Pairwise fun x y => number x < number y) :
    (sortBy key xs).Pairwise (fun x y => number x < number y) ↔ xs.Pairwise (KeyLE key) := by
  constructor
  · intro hsort
    rw [← eq_of_perm_of_pairwise_lt (sortBy_perm key xs) hsort h]
    exact pairwise_sortBy key xs
  · intro hkey
    rwa [sortBy, hkey.insertionSort_eq]

/-- In a sorted list, what has a smaller key stands in front. -/
theorem mem_before_of_lt {before after : List α} {x y : α}
    (h : (before ++ x :: after).Pairwise (KeyLE key)) (hy : y ∈ before ++ x :: after)
    (hlt : key y < key x) : y ∈ before := by
  rcases List.mem_append.1 hy with hy | hy
  · exact hy
  · obtain ⟨hx, -⟩ := List.pairwise_cons.1 (List.pairwise_append.1 h).2.1
    rcases List.mem_cons.1 hy with rfl | hy
    · exact absurd hlt (lt_irrefl _)
    · exact absurd hlt (not_lt_of_ge (hx y hy))

end Sorting

/-
# Copies that overlap themselves

A dictionary coder of the Lempel–Ziv family repeats what it has written: `n` more
elements, each equal to the one `off` places back.  When `off < n` the copy reads what
it has just written, so a block copy is not the same thing, and a decoder that copies
eight or sixteen elements at a time has to step back further than `off` to be right.

`copyMatch h off n` is the plain meaning, one element after the other.  The offset `0`
is no back-reference; here it stands for `n` default elements, the element a read past
the end of a list gives.  What a faster copy needs is that the result is its own copy
over every multiple of the offset (`getElem?_copyMatch_back`).  `Agree m t n` says that
a buffer `m` holds the first `n` elements of `t`.
-/

import Mathlib.Data.Nat.Notation
import Mathlib.Data.List.TakeDrop
import Mathlib.Algebra.Order.Group.Nat

namespace Lz

variable {α : Type*}

/-! ### The plain copy -/

section Copy

variable [Inhabited α]

/-- `n` more elements, each the one `off` places back; default elements for the offset `0`. -/
def copyMatch (h : List α) (off : ℕ) : ℕ → List α
  | 0 => h
  | n + 1 => copyMatch h off n ++ [(copyMatch h off n).getD (h.length + n - off) default]

@[simp] theorem copyMatch_zero (h : List α) (off : ℕ) : copyMatch h off 0 = h := rfl

/-- A copy adds as many elements as are copied. -/
@[simp] theorem length_copyMatch (h : List α) (off n : ℕ) :
    (copyMatch h off n).length = h.length + n := by
  induction n with
  | zero => rfl
  | succ n ih =>
    rw [copyMatch, List.length_append, ih, List.length_singleton]
    omega

/-- What stands in front of everything the copy reads does not matter. -/
theorem copyMatch_append (d h : List α) {off : ℕ} (hoff : off ≤ h.length) (n : ℕ) :
    copyMatch (d ++ h) off n = d ++ copyMatch h off n := by
  induction n with
  | zero => rfl
  | succ n ih =>
    have hpos : (d ++ h).length + n - off = d.length + (h.length + n - off) := by
      rw [List.length_append]
      omega
    rw [copyMatch, ih, hpos, List.getD_eq_getElem?_getD, List.getElem?_append_right (by omega),
      Nat.add_sub_cancel_left, ← List.getD_eq_getElem?_getD, List.append_assoc, copyMatch]

/-- A longer copy begins with the shorter one. -/
theorem take_copyMatch (h : List α) (off : ℕ) {m n : ℕ} (hmn : m ≤ n) :
    (copyMatch h off n).take (h.length + m) = copyMatch h off m := by
  induction n, hmn using Nat.le_induction with
  | base => rw [List.take_of_length_le (length_copyMatch h off m).le]
  | succ n hmn ih =>
    rw [copyMatch, List.take_append_of_le_length (by rw [length_copyMatch]; omega), ih]

/-- The old elements stay. -/
theorem getElem?_copyMatch_of_lt {h : List α} {off n j : ℕ} (hj : j < h.length) :
    (copyMatch h off n)[j]? = h[j]? := by
  have htake := take_copyMatch h off (Nat.zero_le n)
  rw [copyMatch_zero, Nat.add_zero] at htake
  conv_rhs => rw [← htake]
  rw [List.getElem?_take_of_lt hj]

/-- Each new element is the one `off` back. -/
theorem getElem?_copyMatch {h : List α} {off n j : ℕ} (hoff : 0 < off) (hoffh : off ≤ h.length)
    (hj : h.length ≤ j) (hjn : j < h.length + n) :
    (copyMatch h off n)[j]? = (copyMatch h off n)[j - off]? := by
  obtain ⟨k, rfl⟩ := Nat.exists_eq_add_of_le hj
  have hk : (copyMatch h off n).take (h.length + (k + 1)) = copyMatch h off (k + 1) :=
    take_copyMatch h off (by omega)
  have hlen : h.length + k - off < (copyMatch h off k).length := by
    rw [length_copyMatch]
    omega
  rw [← List.getElem?_take_of_lt (show h.length + k < h.length + (k + 1) by omega), hk,
    ← List.getElem?_take_of_lt (show h.length + k - off < h.length + (k + 1) by omega), hk,
    copyMatch, List.getElem?_append_right (by rw [length_copyMatch]),
    List.getElem?_append_left hlen, length_copyMatch, Nat.sub_self, List.getElem?_cons_zero,
    List.getD_eq_getElem?_getD, List.getElem?_eq_getElem hlen, Option.getD_some]

/-- With the offset `0` each new element is the default one. -/
theorem getElem?_copyMatch_zero {h : List α} {n j : ℕ} (hj : h.length ≤ j)
    (hjn : j < h.length + n) : (copyMatch h 0 n)[j]? = some default := by
  obtain ⟨k, rfl⟩ := Nat.exists_eq_add_of_le hj
  have hk : (copyMatch h 0 n).take (h.length + (k + 1)) = copyMatch h 0 (k + 1) :=
    take_copyMatch h 0 (by omega)
  rw [← List.getElem?_take_of_lt (show h.length + k < h.length + (k + 1) by omega), hk, copyMatch,
    List.getElem?_append_right (by rw [length_copyMatch]), length_copyMatch, Nat.sub_self,
    List.getElem?_cons_zero, List.getD_eq_getElem?_getD,
    List.getElem?_eq_none (by rw [length_copyMatch]; omega), Option.getD_none]

/-- The element any number of offsets back is the same, as long as it is one of those the
copy reads. -/
theorem getElem?_copyMatch_mul {h : List α} {off n : ℕ} (hoff : 0 < off) (hoffh : off ≤ h.length)
    (k : ℕ) {j : ℕ} (hj : h.length + k * off ≤ j + off) (hjn : j < h.length + n) :
    (copyMatch h off n)[j]? = (copyMatch h off n)[j - k * off]? := by
  induction k generalizing j with
  | zero => rw [Nat.zero_mul, Nat.sub_zero]
  | succ k ih =>
    rw [Nat.succ_mul] at hj ⊢
    rw [getElem?_copyMatch hoff hoffh (by omega) hjn, ih (j := j - off) (by omega) (by omega),
      Nat.sub_sub, Nat.add_comm off]

/-- **The copy is its own copy over every multiple of the offset,** as long as what is read
is among the elements the plain copy reads; for the offset `0`, over every distance that
stays inside the new elements. -/
theorem getElem?_copyMatch_back {h : List α} {off n D j : ℕ} (hoffh : off ≤ h.length)
    (hD : off = 0 ∨ off ∣ D) (hj : h.length + D ≤ j + off) (hjn : j < h.length + n) :
    (copyMatch h off n)[j]? = (copyMatch h off n)[j - D]? := by
  rcases Nat.eq_zero_or_pos off with rfl | hoff
  · rw [getElem?_copyMatch_zero (by omega) hjn, getElem?_copyMatch_zero (by omega) (by omega)]
  · obtain ⟨k, rfl⟩ := hD.resolve_left hoff.ne'
    rw [Nat.mul_comm] at hj ⊢
    exact getElem?_copyMatch_mul hoff hoffh k hj hjn

/-- A back-reference whose elements have been compared continues the list it points into. -/
theorem copyMatch_take {t : List α} {off p n : ℕ} (hoff : 0 < off) (hoffp : off ≤ p)
    (hpn : p + n ≤ t.length) (ht : ∀ j, p ≤ j → j < p + n → t[j]? = t[j - off]?) :
    copyMatch (t.take p) off n = t.take (p + n) := by
  have hlen : (t.take p).length = p := by
    rw [List.length_take]
    omega
  induction n with
  | zero => rfl
  | succ n ih =>
    have hj : p + n < t.length := by omega
    have hback := ht (p + n) (by omega) (by omega)
    rw [List.getElem?_eq_getElem hj] at hback
    rw [copyMatch, ih (by omega) fun j h1 h2 => ht j h1 (by omega), hlen, ← Nat.add_assoc,
      List.take_add_one, List.getElem?_eq_getElem hj, Option.toList_some,
      List.getD_eq_getElem?_getD, List.getElem?_take_of_lt (by omega), ← hback, Option.getD_some]

end Copy

/-! ### Buffers that hold a prefix -/

/-- The buffer `m` holds the first `n` elements of `t`. -/
def Agree (m t : List α) (n : ℕ) : Prop := ∀ j < n, m[j]? = t[j]?

namespace Agree

variable {m t : List α} {n k : ℕ}

theorem refl (m : List α) (n : ℕ) : Agree m m n := fun _ _ => rfl

theorem mono (h : Agree m t n) (hk : k ≤ n) : Agree m t k := fun j hj => h j (by omega)

/-- What agrees up to `n` has the same beginning. -/
theorem take_eq (h : Agree m t n) : m.take n = t.take n := by
  refine List.ext_getElem? fun j => ?_
  rcases Nat.lt_or_ge j n with hj | hj
  · rw [List.getElem?_take_of_lt hj, List.getElem?_take_of_lt hj, h j hj]
  · rw [List.getElem?_eq_none (by rw [List.length_take]; omega),
      List.getElem?_eq_none (by rw [List.length_take]; omega)]

end Agree

end Lz

/-
# Byte strings: slices, fills and splices

The programs of this development read and write flat byte buffers at computed
offsets.  A buffer is a list of bytes, an offset is a natural number, and the
three operations everything else is made of are `slice d i n` (the `n` bytes at
offset `i`, fewer where the buffer ends first), `zeros n` and `splice d i j x`
(the bytes from `i` to `j` replaced by `x`, whatever the length of `x`).

The lemmas say how a slice sees an append, a prefix and a splice, so that
a reader of a concatenated format never has to unfold `List.drop`.
-/

import Mathlib.Data.Nat.Notation
import Mathlib.Data.List.TakeDrop
import Mathlib.Data.List.Flatten
import Mathlib.Data.List.Forall2
import Mathlib.Algebra.Order.Group.Nat

namespace Bytes

variable {α : Type*}

/-- The `n` elements from offset `i` on; fewer when the buffer ends first. -/
def slice (d : List α) (i n : ℕ) : List α := (d.drop i).take n

/-- `n` zero bytes. -/
def zeros (n : ℕ) : List UInt8 := List.replicate n 0

/-- The elements from `i` up to `j` replaced by `x`.  Offsets past the end are
clamped to it, so the buffer grows when the range does not lie inside it. -/
def splice (d : List α) (i j : ℕ) (x : List α) : List α :=
  d.take i ++ x ++ d.drop (max i j)

/-- The distance from `n` up to the next multiple of `4`. -/
def pad4 (n : ℕ) : ℕ := (4 - n % 4) % 4

/-! ### Slices -/

@[simp] theorem slice_zero (d : List α) (n : ℕ) : slice d 0 n = d.take n := rfl

/-- A slice is as long as it is asked to be, as far as the list goes. -/
@[simp] theorem length_slice (d : List α) (i n : ℕ) :
    (slice d i n).length = min n (d.length - i) := by
  simp [slice]

/-- A slice of the rest is a slice. -/
@[simp] theorem slice_drop (d : List α) (p i n : ℕ) : slice (d.drop p) i n = slice d (p + i) n := by
  simp [slice]

/-- A slice without its front is a slice. -/
theorem drop_slice (d : List α) (i n k : ℕ) : (slice d i n).drop k = slice d (i + k) (n - k) := by
  rw [slice, slice, List.drop_take, List.drop_drop]

/-- A slice that ends in the first part. -/
theorem slice_append_left {a b : List α} {i n : ℕ} (h : i + n ≤ a.length) :
    slice (a ++ b) i n = slice a i n := by
  rw [slice, List.drop_append_of_le_length (by omega),
    List.take_append_of_le_length (by rw [List.length_drop]; omega), slice]

/-- A slice that begins in the second part. -/
theorem slice_append_right {a b : List α} {i n : ℕ} (h : a.length ≤ i) :
    slice (a ++ b) i n = slice b (i - a.length) n := by
  rw [slice, slice, List.drop_append, List.drop_eq_nil_of_le h, List.nil_append]

/-- The slice that covers exactly the middle of a concatenation. -/
theorem slice_append_middle {a b c : List α} {i n : ℕ} (hi : i = a.length) (hn : n = b.length) :
    slice (a ++ (b ++ c)) i n = b := by
  subst hi hn
  rw [slice_append_right le_rfl, Nat.sub_self, slice_zero, List.take_left]

/-- A buffer of equally long pieces: the slice of piece `i` is piece `i`. -/
theorem slice_flatMap {β : Type*} {xs : List β} {f : β → List α} {k : ℕ}
    (hf : ∀ x ∈ xs, (f x).length = k) (i : ℕ) (hi : i < xs.length) :
    slice (xs.flatMap f) (k * i) k = f xs[i] := by
  induction xs generalizing i with
  | nil => exact absurd hi (Nat.not_lt_zero i)
  | cons x xs ih =>
    have hx : (f x).length = k := hf x (List.mem_cons_self ..)
    rw [List.flatMap_cons]
    cases i with
    | zero =>
      rw [slice_append_left (by omega), Nat.mul_zero, slice_zero, ← hx, List.take_length]
      rfl
    | succ i =>
      rw [slice_append_right (by rw [hx]; exact Nat.le_mul_of_pos_right k (Nat.succ_pos i)), hx,
        Nat.mul_succ, Nat.add_sub_cancel]
      exact ih (fun y hy => hf y (List.mem_cons_of_mem x hy)) i (Nat.lt_of_succ_lt_succ hi)

/-- What holds of every element of a list carries over to the related elements. -/
theorem forall_mem_of_forall₂ {β γ : Type*} {R : β → γ → Prop} {P : β → Prop} {Q : γ → Prop}
    {xs : List β} {ys : List γ} (h : List.Forall₂ R xs ys) (hx : ∀ x ∈ xs, P x)
    (hQ : ∀ x y, P x → R x y → Q y) : ∀ y ∈ ys, Q y := by
  induction h with
  | nil => exact fun y hy => absurd hy List.not_mem_nil
  | cons hxy _ ih =>
    obtain ⟨hP, hxs⟩ := List.forall_mem_cons.1 hx
    exact List.forall_mem_cons.2 ⟨hQ _ _ hP hxy, ih hxs⟩

/-- Related elements of the form `f y`, collected. -/
theorem forall₂_exists_map {β γ δ : Type*} {f : γ → δ} {R : β → γ → Prop} {xs : List β}
    {zs : List δ} (h : List.Forall₂ (fun x z => ∃ y, z = f y ∧ R x y) xs zs) :
    ∃ ys, zs = ys.map f ∧ List.Forall₂ R xs ys := by
  induction h with
  | nil => exact ⟨[], rfl, .nil⟩
  | cons hxz _ ih =>
    obtain ⟨y, rfl, hR⟩ := hxz
    obtain ⟨ys, rfl, hRs⟩ := ih
    exact ⟨y :: ys, rfl, .cons hR hRs⟩

/-- Lists that correspond element by element spell the same. -/
theorem flatMap_eq_of_forall₂ {β γ : Type*} {R : β → γ → Prop} {f : β → List α} {g : γ → List α}
    (hR : ∀ x y, R x y → f x = g y) {xs : List β} {ys : List γ} (h : List.Forall₂ R xs ys) :
    xs.flatMap f = ys.flatMap g := by
  induction h with
  | nil => rfl
  | cons hxy _ ih => rw [List.flatMap_cons, List.flatMap_cons, hR _ _ hxy, ih]

/-- **Comparing two concatenations piece by piece.**  When corresponding pieces are
equally long, the whole agrees exactly when every pair of pieces does. -/
theorem flatMap_eq_flatMap_iff {β γ : Type*} {R : β → γ → Prop} {P : β → Prop} {f : β → List α}
    {g : γ → List α} (hR : ∀ x y, R x y → (f x).length = (g y).length ∧ (f x = g y ↔ P x))
    {xs : List β} {ys : List γ} (h : List.Forall₂ R xs ys) :
    xs.flatMap f = ys.flatMap g ↔ ∀ x ∈ xs, P x := by
  induction h with
  | nil => simp
  | @cons x y xs ys hxy _ ih =>
    obtain ⟨hlen, hiff⟩ := hR x y hxy
    rw [List.flatMap_cons, List.flatMap_cons, List.forall_mem_cons, ← hiff, ← ih]
    constructor
    · exact fun heq => List.append_inj heq hlen
    · rintro ⟨h1, h2⟩
      rw [h1, h2]

/-- An element of a slice is one of the list. -/
theorem getElem?_slice {d : List α} {i n j : ℕ} (h : j < n) : (slice d i n)[j]? = d[i + j]? := by
  rw [slice, List.getElem?_take_of_lt h, List.getElem?_drop]

/-- Two slices agree exactly when they agree byte by byte. -/
theorem slice_eq_iff {d e : List α} {i j n : ℕ} :
    slice d i n = slice e j n ↔ ∀ k < n, d[i + k]? = e[j + k]? := by
  constructor
  · intro heq k hk
    rw [← getElem?_slice hk, heq, getElem?_slice hk]
  · intro heq
    refine List.ext_getElem? fun k => ?_
    rcases Nat.lt_or_ge k n with hk | hk
    · rw [getElem?_slice hk, getElem?_slice hk, heq k hk]
    · rw [List.getElem?_eq_none (by rw [length_slice]; omega),
        List.getElem?_eq_none (by rw [length_slice]; omega)]

/-! ### Fills and padding -/

@[simp] theorem length_zeros (n : ℕ) : (zeros n).length = n := List.length_replicate

@[simp] theorem zeros_zero : zeros 0 = [] := rfl

theorem zeros_add (m n : ℕ) : zeros (m + n) = zeros m ++ zeros n :=
  List.replicate_append_replicate.symm

/-- Zeros are zero. -/
theorem eq_zero_of_mem_zeros {n : ℕ} {b : UInt8} (h : b ∈ zeros n) : b = 0 :=
  List.eq_of_mem_replicate h

/-- The padding is at most three bytes. -/
theorem pad4_lt (n : ℕ) : pad4 n < 4 := Nat.mod_lt _ (by omega)

/-- Padding reaches a multiple of `4`. -/
theorem add_pad4_mod (n : ℕ) : (n + pad4 n) % 4 = 0 := by
  unfold pad4
  omega

/-- A multiple of four needs no padding. -/
theorem pad4_eq_zero_iff {n : ℕ} : pad4 n = 0 ↔ n % 4 = 0 := by
  unfold pad4
  omega

/-- Whole multiples of `4` do not count. -/
theorem pad4_add_of_mod {m : ℕ} (h : m % 4 = 0) (n : ℕ) : pad4 (m + n) = pad4 n := by
  unfold pad4
  omega

/-- **Rounding two parts apart against rounding them together.**  Padding `m`
and then `n` to `4` takes as many bytes as padding `m + n`, or four more. -/
theorem pad4_split (m n : ℕ) :
    m + pad4 m + (n + pad4 n) = m + n + pad4 (m + n) ∨
      m + pad4 m + (n + pad4 n) = m + n + pad4 (m + n) + 4 := by
  unfold pad4
  omega

/-! ### Splices -/

/-- Replacing a range that lies inside the buffer by as many bytes keeps the
length. -/
theorem length_splice {d x : List α} {i j : ℕ} (hij : i ≤ j) (hj : j ≤ d.length)
    (hx : x.length = j - i) : (splice d i j x).length = d.length := by
  simp only [splice, List.length_append, List.length_take, List.length_drop, hx]
  omega

/-- Replacing exactly the middle of a concatenation. -/
theorem splice_append_middle {a b c x : List α} {i j : ℕ} (hi : i = a.length)
    (hj : j = a.length + b.length) : splice (a ++ (b ++ c)) i j x = a ++ (x ++ c) := by
  subst hi hj
  rw [splice, Nat.max_eq_right (Nat.le_add_right ..), List.take_left, ← List.append_assoc a b c,
    ← List.length_append, List.drop_left, List.append_assoc]

/-- Below the range nothing changes. -/
theorem getElem?_splice_of_lt {d x : List α} {i j k : ℕ} (hi : i ≤ d.length) (hk : k < i) :
    (splice d i j x)[k]? = d[k]? := by
  rw [splice, List.append_assoc, List.getElem?_append_left (by rw [List.length_take]; omega),
    List.getElem?_take_of_lt hk]

/-- Past the range nothing changes, when it is replaced by as many bytes. -/
theorem getElem?_splice_of_ge {d x : List α} {i j k : ℕ} (hij : i ≤ j) (hi : i ≤ d.length)
    (hx : x.length = j - i) (hk : j ≤ k) : (splice d i j x)[k]? = d[k]? := by
  have hlen : (d.take i ++ x).length = j := by
    rw [List.length_append, List.length_take, hx]
    omega
  rw [splice, List.getElem?_append_right (by omega), hlen, Nat.max_eq_right hij,
    List.getElem?_drop, Nat.add_sub_cancel' hk]

/-- Inside the range stand the new bytes. -/
theorem getElem?_splice_of_mem {d x : List α} {i j k : ℕ} (hi : i ≤ d.length) (hk : i ≤ k)
    (hkx : k < i + x.length) : (splice d i j x)[k]? = x[k - i]? := by
  have hlen : (d.take i).length = i := by
    rw [List.length_take]
    omega
  rw [splice, List.append_assoc, List.getElem?_append_right (by omega), hlen,
    List.getElem?_append_left (by omega)]

/-- The slice of the range itself is what was put there. -/
theorem slice_splice_self {d x : List α} {i j : ℕ} (hi : i ≤ d.length) :
    slice (splice d i j x) i x.length = x := by
  have hlen : (d.take i).length = i := by
    rw [List.length_take]
    omega
  rw [splice, List.append_assoc, slice_append_middle hlen.symm rfl]

end Bytes

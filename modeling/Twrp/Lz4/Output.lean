/-
# `lz4.c`: what the compressor writes

`Wrote J x m op` says that the output so far is `x`: it stands at the front of `dst`, and the
cursor is behind it.  What is in `dst` behind the cursor does not matter, so a write that is
longer than what counts, as the copies of literals and the words of `255` are, is a write and
a step back (`Wrote.of_append`).  Each part of a sequence is one lemma: the token with the
literal length, the literals, and the match length, which changes the token once more.
-/

import Twrp.Lz.Encoder
import Twrp.Lz4.Copies
import Twrp.Lz4.Search

namespace Twrp
namespace Lz4

open Bytes Lz

theorem oend_buffers (J : Job) : J.buffers.oend = J.dstSize := Nat.zero_add _

/-- The output up to `op` is `x`. -/
structure Wrote (J : Job) (x : List UInt8) (m : Mem) (op : ℕ) : Prop where
  size : m.length = J.dstSize
  length_eq : x.length = op
  take_eq : m.take op = x

variable {J : Job} {x y : List UInt8} {m : Mem} {op n k : ℕ}

namespace Wrote

theorem nil (hm : m.length = J.dstSize) : Wrote J [] m 0 := ⟨hm, rfl, rfl⟩

theorem le (h : Wrote J x m op) : op ≤ J.dstSize := by
  have := h.size
  have := congrArg List.length h.take_eq
  rw [List.length_take, h.length_eq] at this
  omega

/-- What has been written last can be left out again. -/
theorem of_append (h : Wrote J (x ++ y) m n) (hx : x.length = op) : Wrote J x m op := by
  have hn := h.length_eq
  rw [List.length_append] at hn
  refine ⟨h.size, hx, ?_⟩
  rw [← Nat.min_eq_left (show op ≤ n by omega), ← List.take_take, h.take_eq, List.take_left' hx]

/-- **A write at the cursor.** -/
theorem store (h : Wrote J x m op) (bs : List UInt8) (hend : op + bs.length ≤ J.dstSize) :
    ∃ m', Lz4.store J.buffers m op bs = some m' ∧ Wrote J (x ++ bs) m' (op + bs.length) := by
  have hsize := h.size
  have hle : J.buffers.oend ≤ m.length := by rw [oend_buffers, hsize]
  have hstart : J.buffers.start ≤ op := Nat.zero_le op
  obtain ⟨r, rfl⟩ : ∃ r, m = x ++ r := ⟨m.drop op, by
    conv_lhs => rw [← List.take_append_drop op m, h.take_eq]⟩
  rw [List.length_append, h.length_eq] at hsize
  have hlen : (r.take bs.length).length = bs.length := by
    rw [List.length_take]
    omega
  have hsplice : splice (x ++ r) op (op + bs.length) bs = x ++ (bs ++ r.drop bs.length) := by
    conv_lhs => rw [← List.take_append_drop bs.length r]
    rw [splice_append_middle h.length_eq.symm (by rw [h.length_eq, hlen])]
  refine ⟨_, if_pos ⟨hstart, by rw [oend_buffers]; exact hend, hle⟩, ?_, ?_, ?_⟩
  · rw [hsplice, List.length_append, List.length_append, List.length_drop, h.length_eq]
    omega
  · rw [List.length_append, h.length_eq]
  · rw [hsplice, ← List.append_assoc, List.take_left']
    rw [List.length_append, h.length_eq]

end Wrote

/-! ### The literals -/

theorem putRun_spec (fuel : ℕ) (h : Wrote J x m op) (hend : op + n / 255 + 1 ≤ J.dstSize)
    (hfuel : n < 255 * fuel) : ∃ m', putRun J fuel m op n = some (op + n / 255 + 1, m') ∧
      Wrote J (x ++ (List.replicate (n / 255) 255 ++ [UInt8.ofNat (n % 255)])) m'
        (op + n / 255 + 1) := by
  induction fuel generalizing x m op n with
  | zero => omega
  | succ fuel ih =>
    rw [putRun]
    split_ifs with h255
    · obtain ⟨m₁, h1, hm1⟩ := h.store [255] (show op + 1 ≤ J.dstSize by omega)
      obtain ⟨m₂, h2, hm2⟩ := ih (n := n - 255) hm1
        (show op + 1 + (n - 255) / 255 + 1 ≤ J.dstSize by omega) (by omega)
      have hop : op + 1 + (n - 255) / 255 = op + n / 255 := by omega
      have hrep : n / 255 = (n - 255) / 255 + 1 := by omega
      simp only [List.length_singleton, hop] at h2 hm2
      refine ⟨m₂, by rw [h1, Option.bind_some, h2], ?_⟩
      rwa [List.append_assoc, List.singleton_append, ← List.cons_append, ← List.replicate_succ,
        ← hrep, show (n - 255) % 255 = n % 255 by omega] at hm2
    · obtain ⟨m₁, h1, hm1⟩ := h.store [UInt8.ofNat n] (show op + 1 ≤ J.dstSize by omega)
      have hdiv : n / 255 = 0 := Nat.div_eq_of_lt (by omega)
      refine ⟨m₁, by rw [h1, Option.map_some, hdiv, Nat.add_zero], ?_⟩
      rwa [hdiv, List.replicate_zero, List.nil_append, Nat.mod_eq_of_lt (by omega), Nat.add_zero]

/-- **The token and the length of `n` literals.** -/
theorem putLiteralLength_spec (h : Wrote J x m op) (hend : op + 1 + (n + 240) / 255 ≤ J.dstSize) :
    ∃ m', putLiteralLength J m op n = some (op + 1 + (n + 240) / 255, m') ∧
      Wrote J (x ++ tokenByte n 0 :: lengthBytes n) m' (op + 1 + (n + 240) / 255) := by
  rw [putLiteralLength]
  split_ifs with h15
  · obtain ⟨m₁, h1, hm1⟩ := h.store [UInt8.ofNat (15 <<< 4)] (show op + 1 ≤ J.dstSize by omega)
    obtain ⟨m₂, h2, hm2⟩ := putRun_spec (n := n - 15) (n - 15 + 1) hm1
      (show op + 1 + (n - 15) / 255 + 1 ≤ J.dstSize by omega) (by omega)
    have hop : op + 1 + (n - 15) / 255 + 1 = op + 1 + (n + 240) / 255 := by omega
    simp only [List.length_singleton, hop] at h2 hm2
    refine ⟨m₂, by rw [h1, Option.bind_some, h2], ?_⟩
    rw [List.append_assoc, List.singleton_append, ← lengthBytes_of_le h15] at hm2
    rwa [tokenByte, Nat.min_eq_right h15]
  · obtain ⟨m₁, h1, hm1⟩ := h.store [UInt8.ofNat (n <<< 4)] (show op + 1 ≤ J.dstSize by omega)
    have hdiv : (n + 240) / 255 = 0 := Nat.div_eq_of_lt (by omega)
    refine ⟨m₁, by rw [h1, Option.map_some, hdiv, Nat.add_zero], ?_⟩
    rwa [tokenByte, Nat.min_eq_left (by omega), lengthBytes_of_lt (by omega), hdiv, Nat.add_zero,
      Nat.add_zero, Nat.mul_comm, show n * 16 = n <<< 4 from (Nat.shiftLeft_eq n 4).symm]

/-- **The literals** are copied eight bytes at a time, with room for it on both sides. -/
theorem putLiterals_spec (h : Wrote J x m op) {anchor : ℕ} (hend : op + max (n + 7) 8 ≤ J.dstSize)
    (hin : anchor + max (n + 7) 8 ≤ J.iend) :
    ∃ m', wildCopy8 J.buffers m op (.src anchor) (op + n) = some m' ∧
      Wrote J (x ++ slice J.src anchor n) m' (op + n) := by
  have hsize : m.length = J.buffers.oend := h.size.trans (oend_buffers J).symm
  have hoend := oend_buffers J
  have hiend : J.buffers.iend = J.iend := rfl
  have hiend' : J.iend = J.src.length := rfl
  obtain ⟨m', hcopy, hm'⟩ := wildCopy8_spec (e := op + n)
    (feeds_literals (w := 8) hsize (by omega) (Nat.zero_le op)
      (show anchor ≤ J.buffers.iend by omega))
    le_rfl (holds_literals anchor hsize (by omega)) (by omega) (by omega)
  refine ⟨m', hcopy, hm'.length_eq.trans hoend, ?_, ?_⟩
  · rw [List.length_append, h.length_eq, length_slice]
    omega
  · have := take_of_literals hsize (by omega) hm'
    rwa [h.take_eq] at this

/-- The last literals are copied at once. -/
theorem putLast_spec (h : Wrote J x m op) {anchor : ℕ} (hend : op + n ≤ J.dstSize)
    (hin : anchor + n ≤ J.iend) :
    ∃ m', memcpy J.buffers m op (.src anchor) n = some m' ∧
      Wrote J (x ++ slice J.src anchor n) m' (op + n) := by
  have hsize : m.length = J.buffers.oend := h.size.trans (oend_buffers J).symm
  have hoend := oend_buffers J
  have hiend : J.buffers.iend = J.iend := rfl
  have hiend' : J.iend = J.src.length := rfl
  obtain ⟨m', hcopy, hm'⟩ := (feeds_literals (w := n) hsize (by omega) (Nat.zero_le op)
    (show anchor ≤ J.buffers.iend by omega)).copy (holds_literals anchor hsize (by omega)) le_rfl
      (by omega)
  refine ⟨m', hcopy, hm'.length_eq.trans hoend, ?_, ?_⟩
  · rw [List.length_append, h.length_eq, length_slice]
    omega
  · have := take_of_literals hsize (by omega) hm'
    rwa [h.take_eq] at this

/-! ### The match -/

theorem tokenByte_add (lits : ℕ) (hk : k < 16) :
    tokenByte lits 0 + UInt8.ofNat k = tokenByte lits k := by
  refine UInt8.toNat_inj.1 ?_
  rw [UInt8.toNat_add, toNat_tokenByte (by omega), toNat_tokenByte hk, toNat_ofNat (by omega)]
  omega

/-- The token of a sequence gets its low half. -/
theorem addToToken_spec {lits token : ℕ} (h : Wrote J (x ++ tokenByte lits 0 :: y) m op)
    (hx : x.length = token) (hk : k < 16) :
    ∃ m', addToToken J m token k = some m' ∧ Wrote J (x ++ tokenByte lits k :: y) m' op := by
  have hsize := h.size
  have hlen := h.length_eq
  have hle := h.le
  obtain ⟨r, rfl⟩ : ∃ r, m = x ++ ([tokenByte lits 0] ++ (y ++ r)) := ⟨m.drop op, by
    conv_lhs => rw [← List.take_append_drop op m, h.take_eq]
    rw [List.append_assoc, List.cons_append, List.singleton_append]⟩
  have hget : (x ++ ([tokenByte lits 0] ++ (y ++ r)))[token]? = some (tokenByte lits 0) := by
    rw [List.getElem?_append_right hx.le, hx, Nat.sub_self]
    rfl
  have hstore : Lz4.store J.buffers (x ++ ([tokenByte lits 0] ++ (y ++ r))) token
      [tokenByte lits k] = some (x ++ ([tokenByte lits k] ++ (y ++ r))) := by
    rw [List.length_append, List.length_cons] at hlen
    rw [Lz4.store, if_pos ⟨Nat.zero_le token, by rw [oend_buffers, List.length_singleton]; omega,
      by rw [oend_buffers, hsize]⟩]
    exact congrArg some (splice_append_middle hx.symm (by rw [hx]; rfl))
  refine ⟨_, by rw [addToToken, hget, Option.bind_some, tokenByte_add lits hk, hstore], ?_, ?_, ?_⟩
  · rw [← hsize]
    simp only [List.length_append, List.length_singleton]
  · rw [← hlen]
    simp only [List.length_append, List.length_cons]
  · rw [← List.append_assoc [tokenByte lits k] y r, ← List.append_assoc x, List.take_left']
    · rfl
    · rw [← hlen]
      simp only [List.length_append, List.length_cons, List.length_nil]
      omega

theorem replicate_four (k : ℕ) : List.replicate (k + 4) (255 : UInt8) =
    List.replicate k 255 ++ [255, 255, 255, 255] := by
  rw [List.replicate_add]
  rfl

/-- The words of `255`: the last four are not counted yet. -/
theorem putWords_spec (fuel : ℕ) (h : Wrote J (x ++ List.replicate (k + 4) 255) m (op + 4))
    (hend : op + n / 255 + 4 ≤ J.dstSize) (hfuel : n < 1020 * fuel) :
    ∃ q m', putWords J fuel m op n = some (op + 4 * q, n - 1020 * q, m') ∧ 1020 * q ≤ n ∧
      n < 1020 * q + 1020 ∧
      Wrote J (x ++ List.replicate (k + 4 * q + 4) 255) m' (op + 4 * q + 4) := by
  induction fuel generalizing k m op n with
  | zero => omega
  | succ fuel ih =>
    rw [putWords]
    split_ifs with hlt
    · obtain ⟨m₁, h1, hm1⟩ := h.store [255, 255, 255, 255]
        (show op + 4 + 4 ≤ J.dstSize by omega)
      rw [List.append_assoc, ← replicate_four] at hm1
      obtain ⟨q, m₂, h2, hq, hq', hm2⟩ := ih (k := k + 4) (n := n - 1020) hm1 (by omega) (by omega)
      refine ⟨q + 1, m₂, ?_, by omega, by omega, ?_⟩
      · rw [h1, Option.bind_some, h2, show op + 4 + 4 * q = op + 4 * (q + 1) by omega,
          show n - 1020 - 1020 * q = n - 1020 * (q + 1) by omega]
      · rwa [show k + 4 + 4 * q + 4 = k + 4 * (q + 1) + 4 by omega,
          show op + 4 + 4 * q + 4 = op + 4 * (q + 1) + 4 by omega] at hm2
    · exact ⟨0, m, rfl, by omega, by omega, h⟩

/-- **The match length:** the low half of the token, and what continues it. -/
theorem putMatchLength_spec {lits token : ℕ} (h : Wrote J (x ++ tokenByte lits 0 :: y) m op)
    (hx : x.length = token) (hend : op + (n + 240) / 255 + 3 ≤ J.dstSize) :
    ∃ m', putMatchLength J m token op n = some (op + (n + 240) / 255, m') ∧
      Wrote J (x ++ tokenByte lits (min n 15) :: (y ++ lengthBytes n)) m'
        (op + (n + 240) / 255) := by
  rw [putMatchLength]
  split_ifs with h15
  · obtain ⟨m₁, h1, hm1⟩ := addToToken_spec h hx (show 15 < 16 by omega)
    obtain ⟨m₂, h2, hm2⟩ := hm1.store [255, 255, 255, 255] (show op + 4 ≤ J.dstSize by omega)
    obtain ⟨q, m₃, h3, hq, hq', hm3⟩ := putWords_spec (k := 0) (n := n - 15) (n - 15 + 1)
      hm2 (by omega) (by omega)
    obtain ⟨r, hr⟩ : ∃ r, r = n - 15 - 1020 * q := ⟨_, rfl⟩
    have hr4 : r / 255 ≤ 4 := by omega
    -- of the last four bytes as many count as the rest of the length fills
    have hm4 : Wrote J (x ++ tokenByte lits 15 :: y ++ List.replicate (4 * q + r / 255) 255) m₃
        (op + 4 * q + r / 255) := by
      have hlen := hm1.length_eq
      rw [show 0 + 4 * q + 4 = 4 * q + r / 255 + (4 - r / 255) by omega, List.replicate_add,
        ← List.append_assoc] at hm3
      refine hm3.of_append ?_
      rw [List.length_append, hlen, List.length_replicate]
      omega
    obtain ⟨m₅, h5, hm5⟩ := hm4.store [UInt8.ofNat (r % 255)]
      (show op + 4 * q + r / 255 + 1 ≤ J.dstSize by omega)
    have hop : op + 4 * q + r / 255 + 1 = op + (n + 240) / 255 := by omega
    simp only [List.length_singleton, hop] at hm5
    refine ⟨m₅, ?_, ?_⟩
    · simp only [h1, h2, h3, ← hr, h5, Option.bind_eq_bind, Option.bind_some, hop]
    · rw [Nat.min_eq_right h15, lengthBytes_of_le h15,
        show (n - 15) / 255 = 4 * q + r / 255 by omega, show (n - 15) % 255 = r % 255 by omega]
      rwa [List.append_assoc, List.append_assoc, List.cons_append] at hm5
  · obtain ⟨m₁, h1, hm1⟩ := addToToken_spec h hx (show n < 16 by omega)
    have hdiv : (n + 240) / 255 = 0 := Nat.div_eq_of_lt (by omega)
    refine ⟨m₁, by rw [h1, Option.map_some, hdiv, Nat.add_zero], ?_⟩
    rwa [Nat.min_eq_left (by omega), lengthBytes_of_lt (by omega), List.append_nil, hdiv,
      Nat.add_zero]

end Lz4
end Twrp

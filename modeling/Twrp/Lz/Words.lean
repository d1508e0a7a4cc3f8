/-
# Comparing a word at a time

A match finder compares eight bytes at once: it reads two little-endian words, takes their
exclusive or, and where that is not zero the number of its trailing zero bits, divided by
eight, is the number of bytes that agree (`firstDifference`).  Without an instruction that
counts zeros the same number comes out of arithmetic on whole words: the exclusive or of `v`
and `v - 1` has ones up to the lowest bit set in `v` and none above (`xor_pred`).
-/

import Twrp.Bytes.Digits
import Mathlib.Data.Nat.Bitwise

namespace Lz

open Bytes

/-! ### The bits of a word -/

/-- The first byte is the lowest. -/
theorem leNat_cons (b : UInt8) (x : List UInt8) : leNat (b :: x) = 2 ^ 8 * leNat x + b.toNat := by
  rw [leNat, List.reverse_cons, beNat, List.map_append, List.map_singleton, fromDigits_concat,
    leNat, beNat, Nat.mul_comm]
  rfl

/-- Eight bits make a byte. -/
theorem byte_ext {b c : UInt8} (h : ∀ j < 8, b.toNat.testBit j = c.toNat.testBit j) : b = c := by
  refine UInt8.toNat_inj.1 (Nat.eq_of_testBit_eq fun j => ?_)
  rcases Nat.lt_or_ge j 8 with hj | hj
  · exact h j hj
  · have hpow : 2 ^ 8 ≤ 2 ^ j := Nat.pow_le_pow_right (by omega) hj
    rw [Nat.testBit_lt_two_pow (b.toNat_lt.trans_le hpow),
      Nat.testBit_lt_two_pow (c.toNat_lt.trans_le hpow)]

/-- The bits of a little-endian word are the bits of its bytes. -/
theorem testBit_leNat (x : List UInt8) (i : ℕ) {j : ℕ} (hj : j < 8) :
    (leNat x).testBit (8 * i + j) = (x.getD i 0).toNat.testBit j := by
  induction x generalizing i with
  | nil =>
    rw [List.getD_nil, show leNat [] = 0 from rfl, Nat.zero_testBit]
    exact (Nat.zero_testBit j).symm
  | cons b x ih =>
    rw [leNat_cons, Nat.testBit_two_pow_mul_add _ b.toNat_lt]
    cases i with
    | zero => rw [if_pos (by omega), Nat.mul_zero, Nat.zero_add, List.getD_cons_zero]
    | succ i =>
      rw [if_neg (by omega), show 8 * (i + 1) + j - 8 = 8 * i + j by omega, ih,
        List.getD_cons_succ]

/-- A word is its bytes. -/
theorem leNat_inj {x y : List UInt8} (hlen : x.length = y.length) (h : leNat x = leNat y) :
    x = y := by
  refine List.ext_getElem hlen fun i hx hy => byte_ext fun j hj => ?_
  have hbit := testBit_leNat x i hj
  rw [h, testBit_leNat y i hj, List.getD_eq_getElem _ _ hx, List.getD_eq_getElem _ _ hy] at hbit
  exact hbit.symm

/-! ### The lowest bit set -/

/-- How many zero bits are below the lowest bit set in a word of `w` bits. -/
def ctz (w v : ℕ) : ℕ := (BitVec.ofNat w v).ctz.toNat

section Ctz

variable {w v : ℕ}

theorem ofNat_ne_zero (hv : v ≠ 0) (hlt : v < 2 ^ w) : BitVec.ofNat w v ≠ 0#w := fun h => by
  have := congrArg BitVec.toNat h
  rw [BitVec.toNat_ofNat, Nat.mod_eq_of_lt hlt, BitVec.toNat_ofNat, Nat.zero_mod] at this
  exact hv this

/-- The lowest bit that is set is set. -/
theorem testBit_ctz (hv : v ≠ 0) (hlt : v < 2 ^ w) : v.testBit (ctz w v) = true := by
  have := BitVec.getLsbD_true_ctz_of_ne_zero (ofNat_ne_zero hv hlt)
  rwa [BitVec.getLsbD, BitVec.toNat_ofNat, Nat.mod_eq_of_lt hlt] at this

/-- No lower one is. -/
theorem testBit_of_lt_ctz (hlt : v < 2 ^ w) {i : ℕ} (hi : i < ctz w v) : v.testBit i = false := by
  have := BitVec.getLsbD_false_of_lt_ctz hi
  rwa [BitVec.getLsbD, BitVec.toNat_ofNat, Nat.mod_eq_of_lt hlt] at this

/-- It is one of the `w` bits. -/
theorem ctz_lt (hv : v ≠ 0) (hlt : v < 2 ^ w) : ctz w v < w := by
  by_contra hge
  have hpow : 2 ^ w ≤ 2 ^ ctz w v := Nat.pow_le_pow_right (by omega) (by omega)
  have := testBit_ctz hv hlt
  rw [Nat.testBit_lt_two_pow (hlt.trans_le hpow)] at this
  exact Bool.false_ne_true this

end Ctz

/-- **The first byte that differs** between two words of `n` bytes is counted by the zeros at
the low end of their exclusive or. -/
theorem firstDifference {x y : List UInt8} {n : ℕ} (hx : x.length = n) (hy : y.length = n)
    (hne : leNat x ^^^ leNat y ≠ 0) :
    ctz (8 * n) (leNat x ^^^ leNat y) / 8 < n ∧
      (∀ i < ctz (8 * n) (leNat x ^^^ leNat y) / 8, x[i]? = y[i]?) ∧
      x[ctz (8 * n) (leNat x ^^^ leNat y) / 8]? ≠ y[ctz (8 * n) (leNat x ^^^ leNat y) / 8]? := by
  have h256 : (256 : ℕ) ^ n = 2 ^ (8 * n) := by rw [Nat.pow_mul]
  have hlt : leNat x ^^^ leNat y < 2 ^ (8 * n) :=
    Nat.xor_lt_two_pow (h256 ▸ hx ▸ leNat_lt x) (h256 ▸ hy ▸ leNat_lt y)
  obtain ⟨t, ht⟩ : ∃ t, t = ctz (8 * n) (leNat x ^^^ leNat y) := ⟨_, rfl⟩
  have htlt := ctz_lt hne hlt
  have hbit := testBit_ctz hne hlt
  have hzero : ∀ i < t, (leNat x ^^^ leNat y).testBit i = false := fun i hi =>
    testBit_of_lt_ctz hlt (ht ▸ hi)
  rw [← ht] at htlt hbit ⊢
  refine ⟨by omega, fun i hi => ?_, fun heq => ?_⟩
  · -- all eight bits of byte `i` are below `t`
    have hix : i < x.length := by omega
    have hiy : i < y.length := by omega
    rw [List.getElem?_eq_getElem hix, List.getElem?_eq_getElem hiy]
    refine congrArg some (byte_ext fun j hj => ?_)
    have := hzero (8 * i + j) (by omega)
    rw [Nat.testBit_xor, testBit_leNat x i hj, testBit_leNat y i hj, List.getD_eq_getElem _ _ hix,
      List.getD_eq_getElem _ _ hiy] at this
    exact bne_eq_false_iff_eq.1 this
  · rw [show t = 8 * (t / 8) + t % 8 by omega, Nat.testBit_xor,
      testBit_leNat x _ (Nat.mod_lt _ (by omega)), testBit_leNat y _ (Nat.mod_lt _ (by omega)),
      List.getD_eq_getElem?_getD, List.getD_eq_getElem?_getD, heq, Bool.xor_self] at hbit
    exact Bool.false_ne_true hbit

/-! ### Counting without the instruction -/

/-- With its lowest bit at `t`, a number and its predecessor differ up to `t`. -/
theorem xor_pred {v t : ℕ} (ht : v.testBit t = true) (hlow : ∀ i < t, v.testBit i = false) :
    v ^^^ (v - 1) = 2 ^ (t + 1) - 1 := by
  have hpow := Nat.two_pow_pos t
  have hmod : v % 2 ^ (t + 1) = 2 ^ t := by
    refine Nat.eq_of_testBit_eq fun i => ?_
    rw [Nat.testBit_mod_two_pow, Nat.testBit_two_pow]
    rcases Nat.lt_trichotomy i t with hi | rfl | hi
    · rw [hlow i hi]
      simp [hi.ne']
    · simp [ht]
    · simp [show ¬i < t + 1 by omega, hi.ne]
  obtain ⟨q, hq⟩ : ∃ q, v = 2 ^ (t + 1) * q + 2 ^ t :=
    ⟨v / 2 ^ (t + 1), by rw [← hmod, Nat.div_add_mod]⟩
  have hpred : v - 1 = 2 ^ (t + 1) * q + (2 ^ t - 1) := by omega
  have hlt : 2 ^ t < 2 ^ (t + 1) := Nat.pow_lt_pow_right (by omega) (by omega)
  refine Nat.eq_of_testBit_eq fun i => ?_
  rw [Nat.testBit_xor, hpred, hq, Nat.testBit_two_pow_mul_add _ hlt,
    Nat.testBit_two_pow_mul_add _ (by omega), Nat.testBit_two_pow_sub_one]
  by_cases hi : i < t + 1
  · rw [if_pos hi, if_pos hi, Nat.testBit_two_pow, Nat.testBit_two_pow_sub_one]
    rcases Nat.lt_or_ge i t with hit | hit
    · simp [hi, hit, hit.ne']
    · simp [show t = i by omega]
  · rw [if_neg hi, if_neg hi, Bool.xor_self]
    simp [hi]

end Lz

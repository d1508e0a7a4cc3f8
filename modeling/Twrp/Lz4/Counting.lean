/-
# `lz4.c`: how far a match goes

What makes a match is a distance: `Repeats src off i j` says that from `i` up to `j` the input
is its own copy `off` back.  `LZ4_count` extends this to the right, eight bytes at a time,
then four, two and one, and stops at the limit or at a byte that differs (`count_spec`); the
rounds of "Catch up" extend it to the left (`catchUp_spec`).  Both read nothing outside the
input.
-/

import Twrp.Lz4.Compress
import Mathlib.Tactic.IntervalCases

namespace Twrp
namespace Lz4

open Bytes Lz

/-- From `i` up to `j` every byte is the one `off` places back. -/
def Repeats (src : List UInt8) (off i j : ℕ) : Prop := ∀ k, i ≤ k → k < j → src[k]? = src[k - off]?

variable {src : List UInt8} {off i j k : ℕ}

namespace Repeats

theorem refl (src : List UInt8) (off i : ℕ) : Repeats src off i i := fun _ h h' => by omega

theorem trans (h : Repeats src off i j) (h' : Repeats src off j k) : Repeats src off i k :=
  fun n hn hn' => (Nat.lt_or_ge n j).elim (h n hn) fun hj => h' n hj hn'

theorem mono (h : Repeats src off i j) {i' j' : ℕ} (hi : i ≤ i') (hj : j' ≤ j) :
    Repeats src off i' j' :=
  fun n hn hn' => h n (by omega) (by omega)

end Repeats

/-! ### Words of the input -/

theorem readWord_eq {n p : ℕ} (h : p + n ≤ src.length) :
    readWord src n p = some (leNat (slice src p n)) := by
  rw [readWord, loadFrom, if_pos ⟨Int.natCast_nonneg p, by omega⟩, Int.toNat_natCast]
  rfl

/-- Two words that are equal are bytes that repeat. -/
theorem repeats_of_word_eq {n p q : ℕ} (hp : p + n ≤ src.length) (hq : q + off = p)
    (h : leNat (slice src q n) = leNat (slice src p n)) : Repeats src off p (p + n) := by
  have hslice := leNat_inj (by rw [length_slice, length_slice]; omega) h
  intro k hk hk'
  have := congrArg (·[k - p]?) hslice
  rw [getElem?_slice (by omega), getElem?_slice (by omega), show q + (k - p) = k - off by omega,
    show p + (k - p) = k by omega] at this
  exact this.symm

/-- Two words that differ are bytes that do not all repeat. -/
theorem not_repeats_of_word_ne {n p q : ℕ} (hq : q + off = p)
    (h : leNat (slice src q n) ≠ leNat (slice src p n)) : ¬Repeats src off p (p + n) := by
  intro hrep
  refine h (congrArg leNat (List.ext_getElem? fun k => ?_))
  rcases Nat.lt_or_ge k n with hk | hk
  · rw [getElem?_slice hk, getElem?_slice hk, hrep (p + k) (by omega) (by omega),
      show p + k - off = q + k by omega]
  · rw [List.getElem?_eq_none (by rw [length_slice]; omega),
      List.getElem?_eq_none (by rw [length_slice]; omega)]

/-! ### `LZ4_count` -/

/-- **The first byte that differs.**  Of the difference of two words `LZ4_NbCommonBytes` makes
the number of bytes in front of it, with the instruction for it and without. -/
theorem nbCommonBytes_firstDifference {x y : List UInt8} (hx : x.length = 8) (hy : y.length = 8)
    (hne : leNat x ^^^ leNat y ≠ 0) :
    nbCommonBytesSoft (leNat x ^^^ leNat y) = nbCommonBytes (leNat x ^^^ leNat y) ∧
      nbCommonBytes (leNat x ^^^ leNat y) < 8 ∧
      (∀ i < nbCommonBytes (leNat x ^^^ leNat y), x[i]? = y[i]?) ∧
      x[nbCommonBytes (leNat x ^^^ leNat y)]? ≠ y[nbCommonBytes (leNat x ^^^ leNat y)]? := by
  refine ⟨?_, firstDifference hx hy hne⟩
  have hlt : leNat x ^^^ leNat y < 2 ^ 64 :=
    Nat.xor_lt_two_pow ((leNat_lt x).trans_eq (by rw [hx]; rfl))
      ((leNat_lt y).trans_eq (by rw [hy]; rfl))
  have ht := ctz_lt hne hlt
  rw [nbCommonBytesSoft, nbCommonBytes, xor_pred (testBit_ctz hne hlt) fun i hi =>
    testBit_of_lt_ctz hlt hi]
  generalize ctz 64 (leNat x ^^^ leNat y) = t at ht
  interval_cases t <;> rfl

/-- The hypotheses are satisfiable: two words with three bytes in common. -/
theorem nbCommonBytes_firstDifference_three :
    let x : List UInt8 := [1, 2, 3, 4, 5, 6, 7, 8]
    let y : List UInt8 := [1, 2, 3, 9, 5, 6, 7, 0]
    nbCommonBytesSoft (leNat x ^^^ leNat y) = nbCommonBytes (leNat x ^^^ leNat y) ∧
      nbCommonBytes (leNat x ^^^ leNat y) < 8 ∧
      (∀ i < nbCommonBytes (leNat x ^^^ leNat y), x[i]? = y[i]?) ∧
      x[nbCommonBytes (leNat x ^^^ leNat y)]? ≠ y[nbCommonBytes (leNat x ^^^ leNat y)]? :=
  nbCommonBytes_firstDifference rfl rfl (by decide)

/-- Where the bytes stop to repeat, at the limit or in front of it. -/
def StopsAt (src : List UInt8) (off p limit j : ℕ) : Prop :=
  p ≤ j ∧ j ≤ limit ∧ Repeats src off p j ∧ (j < limit → src[j]? ≠ src[j - off]?)

/-- What repeats beyond the stop is nothing. -/
theorem StopsAt.le {p limit : ℕ} (h : StopsAt src off p limit j) (hrep : Repeats src off p k)
    (hk : k ≤ limit) : k ≤ j := by
  by_contra hlt
  exact h.2.2.2 (by omega) (hrep j h.1 (by omega))

theorem StopsAt.of_repeats {p q limit : ℕ} (h : StopsAt src off q limit j)
    (hrep : Repeats src off p q) (hpq : p ≤ q) : StopsAt src off p limit j :=
  ⟨hpq.trans h.1, h.2.1, hrep.trans h.2.2.1, h.2.2.2⟩

/-- One round of the end of `LZ4_count`, for `n` bytes: it is taken when they repeat, and when
it is not, fewer are left that do. -/
theorem countRound_spec {n p q limit : ℕ} (hq : q + off = p) (hp : p ≤ limit)
    (hlimit : limit ≤ src.length) (hn : 0 < n) :
    ∃ d, countRound src n limit p q = some (p + d, q + d) ∧ p + d ≤ limit ∧
      Repeats src off p (p + d) ∧
      (d = n ∨ d = 0 ∧ (limit < p + n ∨ ¬Repeats src off p (p + n))) := by
  rw [countRound]
  by_cases hlt : p + (n - 1) < limit
  · simp only [if_pos hlt, readWord_eq (show q + n ≤ src.length by omega),
      readWord_eq (show p + n ≤ src.length by omega), Option.bind_eq_bind, Option.bind_some]
    by_cases heq : leNat (slice src q n) = leNat (slice src p n)
    · rw [if_pos heq]
      exact ⟨n, rfl, by omega, repeats_of_word_eq (by omega) hq heq, Or.inl rfl⟩
    · rw [if_neg heq]
      exact ⟨0, rfl, hp, Repeats.refl _ _ _,
        Or.inr ⟨rfl, Or.inr (not_repeats_of_word_ne hq heq)⟩⟩
  · rw [if_neg hlt]
    exact ⟨0, rfl, hp, Repeats.refl _ _ _, Or.inr ⟨rfl, Or.inl (by omega)⟩⟩

theorem countTail_spec {p q limit : ℕ} (hq : q + off = p) (hp : p ≤ limit)
    (hlimit : limit ≤ src.length) (hlast : limit < p + 8) :
    ∃ j, countTail src limit p q = some j ∧ StopsAt src off p limit j := by
  obtain ⟨d₁, h1, hle1, hrep1, hd1⟩ := countRound_spec (n := 4) hq hp hlimit (by omega)
  obtain ⟨d₂, h2, hle2, hrep2, hd2⟩ := countRound_spec (n := 2) (p := p + d₁) (q := q + d₁)
    (show q + d₁ + off = p + d₁ by omega) hle1 hlimit (by omega)
  simp only [countTail, h1, h2, Option.bind_eq_bind, Option.bind_some]
  have hrep := hrep1.trans hrep2
  by_cases hlt : p + d₁ + d₂ < limit
  · have hq' : q + d₁ + d₂ < src.length := by omega
    have hp' : p + d₁ + d₂ < src.length := by omega
    simp only [if_pos hlt, List.getElem?_eq_getElem hq', List.getElem?_eq_getElem hp',
      Option.bind_some]
    have hback : src[p + d₁ + d₂ - off]? = some src[q + d₁ + d₂] := by
      rw [show p + d₁ + d₂ - off = q + d₁ + d₂ by omega, List.getElem?_eq_getElem hq']
    by_cases heq : src[q + d₁ + d₂] = src[p + d₁ + d₂]
    · rw [if_pos heq]
      have hone : Repeats src off (p + d₁ + d₂) (p + d₁ + d₂ + 1) := fun k hk hk' => by
        rw [show k = p + d₁ + d₂ by omega, hback, List.getElem?_eq_getElem hp', heq]
      refine ⟨_, rfl, by omega, hlt, hrep.trans hone, fun hj heq' => ?_⟩
      -- fewer than four bytes are left behind the rounds, and fewer than two behind the second
      have hmore : Repeats src off (p + d₁) (p + d₁ + d₂ + 2) :=
        hrep2.trans (hone.trans fun k hk hk' => by
          rw [show k = p + d₁ + d₂ + 1 by omega]
          exact heq')
      rcases hd2 with rfl | ⟨rfl, h | h⟩
      · rcases hd1 with rfl | ⟨rfl, h | h⟩
        · omega
        · omega
        · exact h (hmore.mono (by omega) (by omega))
      · omega
      · exact h (hmore.mono le_rfl le_rfl)
    · rw [if_neg heq]
      refine ⟨_, rfl, by omega, hlt.le, hrep, fun _ h => ?_⟩
      rw [hback, List.getElem?_eq_getElem hp'] at h
      exact heq (Option.some.inj h).symm
  · rw [if_neg hlt]
    exact ⟨_, rfl, by omega, hle2, hrep, fun h => absurd h hlt⟩

theorem countLoop_spec {limit fuel p q : ℕ} (hq : q + off = p) (hp : p ≤ limit)
    (hlimit : limit ≤ src.length) (hfuel : limit < p + fuel) :
    ∃ j, countLoop src limit fuel p q = some j ∧ StopsAt src off p limit j := by
  induction fuel generalizing p q with
  | zero => omega
  | succ fuel ih =>
    rw [countLoop]
    by_cases hlt : p + 7 < limit
    · simp only [if_pos hlt, readWord_eq (show q + 8 ≤ src.length by omega),
        readWord_eq (show p + 8 ≤ src.length by omega), Option.bind_eq_bind, Option.bind_some]
      by_cases hdiff : leNat (slice src q 8) ^^^ leNat (slice src p 8) = 0
      · rw [if_pos hdiff]
        have hrep := repeats_of_word_eq (show p + 8 ≤ src.length by omega) hq
          (Nat.xor_eq_zero_iff.1 hdiff)
        obtain ⟨j, hj, hstop⟩ := ih (p := p + 8) (q := q + 8) (by omega) (by omega) (by omega)
        exact ⟨j, hj, hstop.of_repeats hrep (by omega)⟩
      · rw [if_neg hdiff]
        obtain ⟨hk, hsame, hne⟩ := firstDifference (show (slice src q 8).length = 8 by
          rw [length_slice]; omega) (by rw [length_slice]; omega) hdiff
        rw [nbCommonBytes]
        generalize ctz (8 * 8) (leNat (slice src q 8) ^^^ leNat (slice src p 8)) / 8 = n
          at hk hsame hne
        refine ⟨p + n, rfl, by omega, by omega, fun k hk1 hk2 => ?_, fun _ heq => ?_⟩
        · have := hsame (k - p) (by omega)
          rw [getElem?_slice (by omega), getElem?_slice (by omega),
            show p + (k - p) = k by omega, show q + (k - p) = k - off by omega] at this
          exact this.symm
        · rw [getElem?_slice hk, getElem?_slice hk] at hne
          rw [show p + n - off = q + n by omega] at heq
          exact hne heq.symm
    · rw [if_neg hlt]
      exact countTail_spec hq hp hlimit (by omega)

/-- **`LZ4_count`** counts the bytes that repeat, all of them up to the limit. -/
theorem count_spec {p q limit : ℕ} (hq : q + off = p) (hp : p ≤ limit)
    (hlimit : limit ≤ src.length) :
    ∃ n, count src p q limit = some n ∧ StopsAt src off p limit (p + n) := by
  obtain ⟨j, hj, hstop⟩ := countLoop_spec hq hp hlimit (show limit < p + (limit + 1) by omega)
  refine ⟨j - p, by rw [count, hj]; rfl, ?_⟩
  rwa [Nat.add_sub_cancel' hstop.1]

/-- **`LZ4_count` is exact:** what it returns is at least `k` just when that many bytes fit in
front of the limit and agree. -/
theorem count_longest {p q limit : ℕ} (hq : q ≤ p) (hp : p ≤ limit) (hlimit : limit ≤ src.length) :
    ∃ n, count src p q limit = some n ∧
      ∀ k, k ≤ n ↔ p + k ≤ limit ∧ ∀ i < k, src[p + i]? = src[q + i]? := by
  obtain ⟨n, hn, hstop⟩ := count_spec (Nat.add_sub_cancel' hq) hp hlimit
  refine ⟨n, hn, fun k => ?_⟩
  constructor
  · intro hk
    have := hstop.2.1
    refine ⟨by omega, fun i hi => ?_⟩
    rw [hstop.2.2.1 (p + i) (by omega) (by omega), show p + i - (p - q) = q + i by omega]
  · rintro ⟨hfit, hsame⟩
    have : p + k ≤ p + n := hstop.le (fun i h1 h2 => by
      have := hsame (i - p) (by omega)
      rwa [show p + (i - p) = i by omega, show q + (i - p) = i - (p - q) by omega] at this) hfit
    omega

/-- The hypotheses are satisfiable: five bytes out of nine repeat those two places back. -/
theorem count_longest_five :
    ∃ n, count [1, 2, 1, 2, 1, 2, 1, 3, 4] 2 0 9 = some n ∧
      ∀ k, k ≤ n ↔ 2 + k ≤ 9 ∧ ∀ i < k, ([1, 2, 1, 2, 1, 2, 1, 3, 4] : List UInt8)[2 + i]? =
        ([1, 2, 1, 2, 1, 2, 1, 3, 4] : List UInt8)[0 + i]? :=
  count_longest (Nat.zero_le 2) (by omega) le_rfl

/-! ### Catch up -/

/-- **"Catch up"** goes back only over bytes that repeat, and not in front of the anchor. -/
theorem catchUp_spec {anchor ip pos : ℕ} (hoff : pos + off = ip) (hip : ip ≤ src.length)
    (hanchor : anchor ≤ ip) (hpos : 0 < off) :
    ∃ ip' pos', catchUp src anchor ip pos = some (ip', pos') ∧ pos' + off = ip' ∧
      anchor ≤ ip' ∧ ip' ≤ ip ∧ Repeats src off ip' ip := by
  induction pos generalizing ip with
  | zero => exact ⟨ip, 0, rfl, hoff, hanchor, le_rfl, Repeats.refl _ _ _⟩
  | succ pos ih =>
    rw [catchUp]
    by_cases hgt : ip > anchor
    · have h1 : ip - 1 < src.length := by omega
      have h2 : pos < src.length := by omega
      simp only [if_pos hgt, List.getElem?_eq_getElem h1, List.getElem?_eq_getElem h2,
        Option.bind_eq_bind, Option.bind_some]
      by_cases heq : src[ip - 1] = src[pos]
      · rw [if_pos heq]
        obtain ⟨ip', pos', hcatch, hoff', ha, hle, hrep⟩ :=
          ih (show pos + off = ip - 1 by omega) (by omega) (by omega)
        refine ⟨ip', pos', hcatch, hoff', ha, by omega, hrep.trans fun k hk hk' => ?_⟩
        rw [show k = ip - 1 by omega, show ip - 1 - off = pos by omega,
          List.getElem?_eq_getElem h1, List.getElem?_eq_getElem h2, heq]
      · rw [if_neg heq]
        exact ⟨ip, pos + 1, rfl, hoff, hanchor, le_rfl, Repeats.refl _ _ _⟩
    · rw [if_neg hgt]
      exact ⟨ip, pos + 1, rfl, hoff, hanchor, le_rfl, Repeats.refl _ _ _⟩

end Lz4
end Twrp

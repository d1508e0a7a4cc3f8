/-
# `lz4.c`: what the copies write

Every copy of the decoder is there to make the output the beginning of some list `t`:
the output so far with the literals behind it, or with the match repeated behind it.  The
copies of constant width write past what is wanted, so `t` is taken longer than that, up
to the end of the buffer.

`Feeds F w p d lim t` says that a pointer serves this purpose: as long as the output
holds `t` below `x`, copying up to `w` bytes from the place that belongs to `x` puts
there what `t` has, inside the buffer.  The literals feed with every width, the output
itself with the distance the pointer is behind (`feeds_out`), and all loops are correct for
a pointer that feeds (`wildCopyLoop_spec`).  For an offset below `8` the first eight bytes
are put together by hand, and the two tables move the pointer to a distance that is eight
or more and a multiple of the offset (`tables`).
-/

import Twrp.Lz.Overlap
import Twrp.Lz4.Memory
import Mathlib.Tactic.IntervalCases

namespace Twrp
namespace Lz4

open Bytes Lz

variable {F : Params} {t : List UInt8} {m m' : Mem} {d e n w lim op ip : ℕ} {p : Ptr}

/-! ### Loads and stores -/

theorem loadFrom_eq {buf : List UInt8} {i n : ℕ} (h : i + n ≤ buf.length) :
    loadFrom buf i n = some (slice buf i n) := by
  rw [loadFrom, if_pos ⟨Int.natCast_nonneg i, by omega⟩, Int.toNat_natCast]

/-- The output holds `t` below `n`, and has its full size. -/
structure Holds (F : Params) (t : List UInt8) (m : Mem) (n : ℕ) : Prop where
  length_eq : m.length = F.oend
  agree : Agree m t n

theorem Holds.mono (h : Holds F t m n) {k : ℕ} (hk : k ≤ n) : Holds F t m k :=
  ⟨h.length_eq, h.agree.mono hk⟩

/-- Putting at `d` what `t` has there extends what is held, and never shortens it. -/
theorem Holds.store (h : Holds F t m n) (bs : List UInt8) (hstart : F.start ≤ d) (hd : d ≤ n)
    (hend : d + bs.length ≤ F.oend) (hbs : ∀ k < bs.length, bs[k]? = t[d + k]?) :
    ∃ m', store F m d bs = some m' ∧ Holds F t m' (max n (d + bs.length)) := by
  have hlen := h.length_eq
  refine ⟨_, if_pos ⟨hstart, hend, hlen.ge⟩, ?_, ?_⟩
  · rw [length_splice (by omega) (by omega) (by omega), hlen]
  · intro j hj
    rcases Nat.lt_or_ge j d with hjd | hjd
    · rw [getElem?_splice_of_lt (by omega) hjd, h.agree j (by omega)]
    · rcases Nat.lt_or_ge j (d + bs.length) with hjb | hjb
      · rw [getElem?_splice_of_mem (by omega) hjd hjb, hbs (j - d) (by omega)]
        congr 1
        omega
      · rw [getElem?_splice_of_ge (by omega) (by omega) (by omega) hjb, h.agree j (by omega)]

/-- Whatever is put behind what is held, it stays. -/
theorem Holds.scratch (h : Holds F t m d) (hstart : F.start ≤ d) (bs : List UInt8)
    (hend : d + bs.length ≤ F.oend) : ∃ m', Lz4.store F m d bs = some m' ∧ Holds F t m' d := by
  have hlen := h.length_eq
  refine ⟨_, if_pos ⟨hstart, hend, hlen.ge⟩, ?_, fun j hj => ?_⟩
  · rw [length_splice (by omega) (by omega) (by omega), hlen]
  · rw [getElem?_splice_of_lt (by omega) hj, h.agree j hj]

theorem memmove_of_memcpy {c : ℕ} {m' : Mem} (h : memcpy F m d p c = some m') :
    memmove F m d p c = some m' := by
  rw [memcpy] at h
  split_ifs at h
  exact h

/-! ### Pointers that feed -/

/-- From `p`, the place that belongs to `d`, up to `w` bytes at a time can be copied, up to
`lim`, and what comes is what `t` has. -/
def Feeds (F : Params) (w : ℕ) (p : Ptr) (d lim : ℕ) (t : List UInt8) : Prop :=
  ∀ (m : Mem) (x c : ℕ), Holds F t m x → d ≤ x → c ≤ w → x + c ≤ lim →
    ∃ m', memcpy F m x (p.add ((x : ℤ) - d)) c = some m' ∧ Holds F t m' (x + c)

@[simp] theorem Ptr.add_zero (p : Ptr) : p.add 0 = p := by
  cases p <;> simp [Ptr.add]

@[simp] theorem Ptr.add_add (p : Ptr) (i j : ℤ) : (p.add i).add j = p.add (i + j) := by
  cases p <;> simp [Ptr.add, Int.add_assoc]

namespace Feeds

/-- Both pointers moved on by `k`. -/
theorem shift (h : Feeds F w p d lim t) (k : ℕ) : Feeds F w (p.add k) (d + k) lim t := by
  intro m x c hm hx hc hl
  rw [Ptr.add_add, show (k : ℤ) + ((x : ℤ) - (d + k : ℕ)) = (x : ℤ) - d by omega]
  exact h m x c hm (by omega) hc hl

/-- One copy, from the pointer itself. -/
theorem copy (h : Feeds F w p d lim t) (hm : Holds F t m d) {c : ℕ} (hc : c ≤ w)
    (hl : d + c ≤ lim) : ∃ m', memcpy F m d p c = some m' ∧ Holds F t m' (d + c) := by
  have := h m d c hm le_rfl hc hl
  rwa [Int.sub_self, Ptr.add_zero] at this

end Feeds

/-- **The input feeds with every width** where `t` goes on like the input. -/
theorem feeds_src {i : ℕ} (hstart : F.start ≤ d) (hlim : lim ≤ F.oend)
    (hin : lim + i ≤ F.iend + d) (ht : ∀ j, d ≤ j → j < lim → t[j]? = F.src[j - d + i]?) :
    Feeds F w (.src i) d lim t := by
  intro m x c hm hx _ hl
  have hload : load F m (Ptr.add (.src i) ((x : ℤ) - d)) c = some (slice F.src (x - d + i) c) := by
    rw [Ptr.add, load, show (i : ℤ) + (x - d) = ((x - d + i : ℕ) : ℤ) by omega]
    exact loadFrom_eq (by have : F.iend = F.src.length := rfl; omega)
  have hlen : (slice F.src (x - d + i) c).length = c := by
    rw [length_slice]
    have : F.iend = F.src.length := rfl
    omega
  obtain ⟨m', hst, hm'⟩ := hm.store (slice F.src (x - d + i) c) (by omega) le_rfl
    (by omega) fun k hk => by
      rw [getElem?_slice (by omega), ht (x + k) (by omega) (by omega)]
      congr 1
      omega
  refine ⟨m', ?_, hm'.mono (by omega)⟩
  rw [memcpy, if_neg (by simp [Ptr.add, overlaps]), memmove, hload]
  exact hst

/-- **The output feeds with its distance:** the pointer is `D` behind, at most `D` bytes are
copied at a time, and `t` is its own copy over `D`. -/
theorem feeds_out {D : ℕ} (hstart : F.start ≤ d) (hlim : lim ≤ F.oend) (hD : D ≤ d) (hw : w ≤ D)
    (ht : ∀ j, d ≤ j → j < lim → t[j]? = t[j - D]?) :
    Feeds F w (.out ((d : ℤ) - D)) d lim t := by
  intro m x c hm hx hc hl
  have hadd : Ptr.add (.out ((d : ℤ) - D)) ((x : ℤ) - d) = .out ((x - D : ℕ) : ℤ) := by
    rw [Ptr.add]
    congr 1
    omega
  have hlen := hm.length_eq
  have hload : load F m (.out ((x - D : ℕ) : ℤ)) c = some (slice m (x - D) c) :=
    loadFrom_eq (by omega)
  have hslen : (slice m (x - D) c).length = c := by
    rw [length_slice]
    omega
  obtain ⟨m', hst, hm'⟩ := hm.store (slice m (x - D) c) (by omega) le_rfl (by omega)
    fun k hk => by
      rw [getElem?_slice (by omega), hm.agree _ (by omega), ht (x + k) (by omega) (by omega)]
      congr 1
      omega
  refine ⟨m', ?_, hm'.mono (by omega)⟩
  rw [hadd, memcpy, if_neg, memmove, hload]
  · exact hst
  · simp only [overlaps, decide_eq_true_eq, not_or, not_and, not_lt]
    omega

/-- The dictionary feeds where `t` goes on like it. -/
theorem feeds_dict {i : ℕ} (hstart : F.start ≤ d) (hlim : lim ≤ F.oend)
    (hin : lim + i ≤ F.dictSize + d)
    (ht : ∀ j, d ≤ j → j < lim → t[j]? = F.dictionary[j - d + i]?) :
    Feeds F w (.dict i) d lim t := by
  intro m x c hm hx _ hl
  have hsize : F.dictSize = F.dictionary.length := rfl
  have hload : load F m (Ptr.add (.dict i) ((x : ℤ) - d)) c =
      some (slice F.dictionary (x - d + i) c) := by
    rw [Ptr.add, load, show (i : ℤ) + (x - d) = ((x - d + i : ℕ) : ℤ) by omega]
    exact loadFrom_eq (by omega)
  have hlen : (slice F.dictionary (x - d + i) c).length = c := by
    rw [length_slice]
    omega
  obtain ⟨m', hst, hm'⟩ := hm.store (slice F.dictionary (x - d + i) c) (by omega) le_rfl
    (by omega) fun k hk => by
      rw [getElem?_slice (by omega), ht (x + k) (by omega) (by omega)]
      congr 1
      omega
  refine ⟨m', ?_, hm'.mono (by omega)⟩
  rw [memcpy, if_neg (by simp [Ptr.add, overlaps]), memmove, hload]
  exact hst

/-! ### The loops -/

theorem copyBytes_spec (hp : Feeds F w p d lim t) (hw : 1 ≤ w) (hm : Holds F t m d)
    (hn : d + n ≤ lim) : ∃ m', copyBytes F n m d p = some m' ∧ Holds F t m' (d + n) := by
  induction n generalizing m d p with
  | zero => exact ⟨m, rfl, hm⟩
  | succ n ih =>
    obtain ⟨m₁, h1, hm1⟩ := hp.copy hm hw (by omega)
    obtain ⟨m₂, h2, hm2⟩ := ih (by simpa using hp.shift 1) hm1 (by omega)
    refine ⟨m₂, ?_, by rwa [show d + (n + 1) = d + 1 + n by omega]⟩
    rw [copyBytes, h1, Option.bind_some, h2]

theorem copyChunks_spec {c k : ℕ} (hp : Feeds F w p d lim t) (hw : c ≤ w) (hm : Holds F t m d)
    (hn : d + k * c ≤ lim) : ∃ m', copyChunks F c k m d p = some m' ∧ Holds F t m' (d + k * c) := by
  induction k generalizing m d p with
  | zero => exact ⟨m, rfl, by simpa using hm⟩
  | succ k ih =>
    rw [Nat.succ_mul] at hn ⊢
    obtain ⟨m₁, h1, hm1⟩ := hp.copy hm hw (by omega)
    obtain ⟨m₂, h2, hm2⟩ := ih (hp.shift c) hm1 (by omega)
    refine ⟨m₂, ?_, by rwa [show d + (k * c + c) = d + c + k * c by omega]⟩
    rw [copyChunks, h1, Option.bind_some, h2]

/-- **The wild copies.**  With room for one round past the end, the loop ends and the output
holds `t` up to `e`. -/
theorem wildCopyLoop_spec {c k fuel : ℕ} (hp : Feeds F w p d lim t) (hw : c ≤ w)
    (hck : 0 < k * c) (hm : Holds F t m d) (hd : d + k * c ≤ lim) (he : e + k * c ≤ lim + 1)
    (hfuel : e < d + fuel) (hpos : 0 < fuel) :
    ∃ m', wildCopyLoop F c k fuel m d p e = some m' ∧ Holds F t m' e ∧
      Holds F t m' (d + k * c) := by
  induction fuel generalizing m d p with
  | zero => exact absurd hpos (Nat.lt_irrefl 0)
  | succ fuel ih =>
    obtain ⟨m₁, h1, hm1⟩ := copyChunks_spec hp hw hm hd
    rw [wildCopyLoop, h1, Option.bind_some]
    split_ifs with hlt
    · obtain ⟨m₂, h2, hme, hm2⟩ := ih (hp.shift (k * c)) hm1 (by omega) (by omega) (by omega)
      refine ⟨m₂, ?_, hme, hm2.mono (by omega)⟩
      push_cast at h2
      exact h2
    · exact ⟨m₁, rfl, hm1.mono (by omega), hm1⟩

theorem wildCopy8_spec (hp : Feeds F w p d lim t) (hw : 8 ≤ w) (hm : Holds F t m d)
    (hd : d + 8 ≤ lim) (he : e + 7 ≤ lim) :
    ∃ m', wildCopy8 F m d p e = some m' ∧ Holds F t m' e := by
  obtain ⟨m', h, hm', -⟩ := wildCopyLoop_spec (c := 8) (k := 1) hp hw (by omega) hm (by omega)
    (by omega)
    (show e < d + (e - d + 1) by omega) (Nat.succ_pos _)
  exact ⟨m', h, hm'⟩

theorem wildCopy32_spec (hp : Feeds F w p d lim t) (hw : 16 ≤ w) (hm : Holds F t m d)
    (hd : d + 32 ≤ lim) (he : e + 31 ≤ lim) :
    ∃ m', wildCopy32 F m d p e = some m' ∧ Holds F t m' e := by
  obtain ⟨m', h, hm', -⟩ := wildCopyLoop_spec (c := 16) (k := 2) hp hw (by omega) hm (by omega)
    (by omega)
    (show e < d + (e - d + 1) by omega) (Nat.succ_pos _)
  exact ⟨m', h, hm'⟩

theorem wildCopy64_spec (hp : Feeds F w p d lim t) (hw : 64 ≤ w) (hm : Holds F t m d)
    (hd : d + 64 ≤ lim) (he : e + 63 ≤ lim) :
    ∃ m', wildCopy64 F m d p e = some m' ∧ Holds F t m' e := by
  obtain ⟨m', h, hm', -⟩ := wildCopyLoop_spec (c := 64) (k := 1) hp hw (by omega) hm (by omega)
    (by omega)
    (show e < d + (e - d + 1) by omega) (Nat.succ_pos _)
  exact ⟨m', h, hm'⟩

/-! ### Literals -/

/-- Before its copy the output holds what it will be with the input behind it. -/
theorem holds_literals (ip : ℕ) (hm : m.length = F.oend) (hop : op ≤ F.oend) :
    Holds F (m.take op ++ F.src.drop ip) m op := by
  refine ⟨hm, fun j hj => ?_⟩
  rw [List.getElem?_append_left (by rw [List.length_take]; omega), List.getElem?_take_of_lt hj]

/-- The input feeds it. -/
theorem feeds_literals {w : ℕ} (hm : m.length = F.oend) (hop : op ≤ F.oend)
    (hstart : F.start ≤ op) (hip : ip ≤ F.iend) :
    Feeds F w (.src ip) op (min F.oend (op + (F.iend - ip))) (m.take op ++ F.src.drop ip) := by
  have hlen : (m.take op).length = op := by
    rw [List.length_take]
    omega
  refine feeds_src hstart (Nat.min_le_left _ _) (by omega) fun j hj _ => ?_
  rw [List.getElem?_append_right (by omega), hlen, List.getElem?_drop, Nat.add_comm]

/-- Holding the input behind the output is having copied from it. -/
theorem take_of_literals (hm : m.length = F.oend) (hop : op ≤ F.oend) {n : ℕ}
    (h : Holds F (m.take op ++ F.src.drop ip) m' (op + n)) :
    m'.take (op + n) = m.take op ++ slice F.src ip n := by
  have hlen : (m.take op).length = op := by
    rw [List.length_take]
    omega
  rw [h.agree.take_eq, List.take_append, hlen, Nat.add_sub_cancel_left,
    List.take_of_length_le (by omega), slice]

/-! ### Matches -/

/-- From `d` on, `t` repeats what is `off` back, up to `lim`; for the offset `0` it is zero. -/
structure MatchAt (t : List UInt8) (d off lim : ℕ) : Prop where
  le : off ≤ d
  back : ∀ D j, off = 0 ∨ off ∣ D → d + D ≤ j + off → j < lim → t[j]? = t[j - D]?
  zero : off = 0 → ∀ j, d ≤ j → j < lim → t[j]? = some 0

/-- The output with a match behind it is such a list. -/
theorem matchAt_copyMatch {h : List UInt8} {off N : ℕ} (hoff : off ≤ h.length) :
    MatchAt (copyMatch h off N) h.length off (h.length + N) where
  le := hoff
  back := fun _ _ hD hj hlim => getElem?_copyMatch_back hoff hD hj hlim
  zero := by
    rintro rfl j hj hlim
    exact getElem?_copyMatch_zero hj hlim

/-- A pointer that is a multiple of the offset behind feeds. -/
theorem MatchAt.feeds {off D x : ℕ} (ht : MatchAt t d off lim) (hD : off = 0 ∨ off ∣ D)
    (hstart : F.start ≤ x) (hlim : lim ≤ F.oend) (hx : d + D ≤ x + off) (hw : w ≤ D) :
    Feeds F w (.out ((x : ℤ) - D)) x lim t :=
  feeds_out hstart hlim (by have := ht.le; omega) hw fun j hj hjl => ht.back D j hD (by omega) hjl

/-- **The tables.**  After four bytes the pointer is `D₁` behind, which is enough for four
more, and after eight it is `D₂` behind, which is enough for eight at a time; both are
multiples of the offset and read nothing in front of the match. -/
theorem tables {off : ℕ} (h : off < 8) : ∃ D₁ D₂ : ℕ,
    (4 : ℤ) - D₁ = -off + inc32table.getD off 0 ∧
    (8 : ℤ) - D₂ = -off + inc32table.getD off 0 - dec64table.getD off 0 ∧
    (off = 0 ∨ off ∣ D₁) ∧ (off = 0 ∨ off ∣ D₂) ∧ 4 ≤ D₁ ∧ 8 ≤ D₂ ∧ D₁ ≤ 4 + off ∧
      D₂ ≤ 8 + off := by
  refine ⟨[4, 4, 4, 6, 8, 5, 6, 7].getD off 0, [8, 8, 8, 9, 8, 10, 12, 14].getD off 0, ?_⟩
  interval_cases off <;> decide

end Lz4
end Twrp

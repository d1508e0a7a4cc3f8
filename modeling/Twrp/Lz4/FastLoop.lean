/-
# `lz4.c`: one pass of the fast loop

While 64 bytes of room are left the fast loop copies without looking at the ends.  It is
the plain decoder all the same (`fastStep_spec`): a pass that goes on has read a sequence
and written what it stands for, with 64 bytes of room left again, and a pass that leaves
does so by way of the safe loop, whose labels it jumps to.

Matches from less than 16 places back go through `LZ4_memcpy_using_offset`.  For the offsets
1, 2 and 4 it stores one pattern of eight bytes over and over, the others are put together
as in the safe loop (`memcpyUsingOffset_spec`).
-/

import Twrp.Lz4.SafeLoop

namespace Twrp
namespace Lz4

open Bytes Lz

variable {F : Params} {s₀ s : State} {q : Sequence} {token length ip op off d e lim : ℕ}
  {lits t : List UInt8} {m m' : Mem}

/-! ### `LZ4_memcpy_using_offset` -/

/-- `t` has the eight bytes `v` over and over from `d` on. -/
def FillsWith (t v : List UInt8) (d lim : ℕ) : Prop :=
  v.length = 8 ∧ ∀ i k, k < 8 → d + 8 * i + k < lim → t[d + 8 * i + k]? = v[k]?

/-- The pattern goes on behind its first eight bytes. -/
theorem FillsWith.next {v : List UInt8} (h : FillsWith t v d lim) : FillsWith t v (d + 8) lim := by
  refine ⟨h.1, fun i k hk hlim => ?_⟩
  rw [show d + 8 + 8 * i + k = d + 8 * (i + 1) + k by omega] at hlim ⊢
  exact h.2 (i + 1) k hk hlim

/-- Storing the pattern once. -/
theorem FillsWith.store {v : List UInt8} (h : FillsWith t v d lim) (hstart : F.start ≤ d)
    (hlim : lim ≤ F.oend) (hd : d + 8 ≤ lim) (hm : Holds F t m d) :
    ∃ m', store F m d v = some m' ∧ Holds F t m' (d + 8) := by
  obtain ⟨m', hst, hm'⟩ := hm.store v hstart le_rfl (by rw [h.1]; omega) fun k hk => by
    have := h.2 0 k (by rw [← h.1]; exact hk) (by rw [h.1] at hk; omega)
    rw [Nat.mul_zero, Nat.add_zero] at this
    exact this.symm
  refine ⟨m', hst, hm'.mono ?_⟩
  rw [h.1]
  exact Nat.le_max_right _ _

/-- Storing it until the end is reached: the last store may reach seven bytes past it. -/
theorem fillLoop_spec {v : List UInt8} (fuel : ℕ) (h : FillsWith t v d lim)
    (hstart : F.start ≤ d) (hlim : lim ≤ F.oend) (he : e + 7 ≤ lim) (hm : Holds F t m d)
    (hfuel : e < d + fuel) (hpos : 0 < fuel) :
    ∃ m', fillLoop F v fuel m d e = some m' ∧ Holds F t m' e := by
  induction fuel generalizing m d with
  | zero => exact absurd hpos (Nat.lt_irrefl 0)
  | succ fuel ih =>
    rw [fillLoop]
    split_ifs with hlt
    · obtain ⟨m₁, h1, hm1⟩ := h.store hstart hlim (by omega) hm
      obtain ⟨m₂, h2, hm2⟩ := ih h.next (by omega) hm1 (by omega) (by omega)
      exact ⟨m₂, by rw [h1, Option.bind_some, h2], hm2⟩
    · exact ⟨m, rfl, hm.mono (by omega)⟩

/-- Storing it once and until the end is reached. -/
theorem fillUsing_spec {v : List UInt8} (h : FillsWith t v d lim) (hstart : F.start ≤ d)
    (hlim : lim ≤ F.oend) (hd : d + 8 ≤ lim) (he : e + 7 ≤ lim) (hm : Holds F t m d) :
    ∃ m', fillUsing F m d e v = some m' ∧ Holds F t m' e := by
  obtain ⟨m₁, h1, hm1⟩ := h.store hstart hlim hd hm
  obtain ⟨m₂, h2, hm2⟩ := fillLoop_spec (e - (d + 8) + 1) h.next (by omega) hlim he hm1
    (by omega) (Nat.succ_pos _)
  exact ⟨m₂, by rw [fillUsing, h1, Option.bind_some, h2], hm2⟩

/-- The pattern of an offset that divides eight: the `off` bytes in front, over and over. -/
theorem MatchAt.fillsWith (ht : MatchAt t d off lim) (hpos : 0 < off) (h8 : off ∣ 8)
    (hm : Agree m t d) {v : List UInt8} (hv : v.length = 8)
    (hvk : ∀ k < 8, v[k]? = (slice m (d - off) off)[k % off]?) : FillsWith t v d lim := by
  refine ⟨hv, fun i k hk hlim => ?_⟩
  have hle := ht.le
  have hdvd : off ∣ 8 * i + off * (k / off + 1) :=
    Nat.dvd_add (h8.mul_right i) (Nat.dvd_mul_right off _)
  have hmod := Nat.div_add_mod k off
  have hlt := Nat.mod_lt k hpos
  rw [hvk k hk, getElem?_slice hlt, ht.back _ _ (Or.inr hdvd) (by rw [Nat.mul_succ]; omega) hlim,
    hm _ (by omega)]
  congr 1
  rw [Nat.mul_succ]
  omega

/-- The offsets without a pattern: eight bytes put together first, then the wild copy. -/
theorem memcpyUsingOffsetBase_spec (ht : MatchAt t d off F.oend) (hoff : off ≠ 1) (hoff2 : off ≠ 2)
    (hoff4 : off ≠ 4) (hstart : F.start ≤ d) (hd : d + 16 ≤ F.oend) (he : e + 7 ≤ F.oend)
    (hm : Holds F t m d) :
    ∃ m', memcpyUsingOffsetBase F m d (.out ((d : ℤ) - off)) e off = some m' ∧ Holds F t m' e := by
  have hle := ht.le
  rw [memcpyUsingOffsetBase]
  split_ifs with h8
  · obtain ⟨D₁, D₂, h1, h2, hD1, hD2, h4, h8', hb1, hb2⟩ := tables h8
    -- four bytes; the offset `0` finds the zeros that have just been stored
    obtain ⟨m₁, m₂, m₃, hz, hc1, hc2, hm3⟩ : ∃ m₁ m₂ m₃, store F m d (zeros 4) = some m₁ ∧
        memcpy F m₁ d (.out ((d : ℤ) - off)) 2 = some m₂ ∧
        memcpy F m₂ (d + 2) ((Ptr.out ((d : ℤ) - off)).add 2) 2 = some m₃ ∧
        Holds F t m₃ (d + 4) := by
      rcases Nat.eq_zero_or_pos off with rfl | hpos
      · obtain ⟨m₁, hz, hm1⟩ := hm.store (zeros 4) hstart le_rfl
          (by rw [length_zeros]; omega) fun k hk => by
            rw [length_zeros] at hk
            rw [ht.zero rfl (d + k) (by omega) (by omega), zeros, List.getElem?_replicate,
              if_pos hk]
        rw [length_zeros, Nat.max_eq_right (by omega)] at hm1
        obtain ⟨m₂, hc1, hm2⟩ := memcpy_self (n := 2) hstart (by omega) hm1 (by omega)
        obtain ⟨m₃, hc2, hm3⟩ := memcpy_self (n := 2) (d := d + 2) (by omega) (by omega) hm2
          (by omega)
        refine ⟨m₁, m₂, m₃, hz, by rwa [Int.natCast_zero, Int.sub_zero], ?_, hm3⟩
        rw [Int.natCast_zero, Int.sub_zero]
        exact hc2
      · obtain ⟨m₁, hz, hm1⟩ := hm.scratch hstart (zeros 4) (by rw [length_zeros]; omega)
        have hf : Feeds F 2 (.out ((d : ℤ) - off)) d F.oend t :=
          ht.feeds (Or.inr (dvd_refl off)) hstart le_rfl le_rfl (by omega)
        obtain ⟨m₂, hc1, hm2⟩ := hf.copy hm1 le_rfl (by omega)
        obtain ⟨m₃, hc2, hm3⟩ := (hf.shift 2).copy hm2 le_rfl (by omega)
        exact ⟨m₁, m₂, m₃, hz, hc1, hc2, hm3⟩
    obtain ⟨m₄, h3, hm4⟩ := (ht.feeds (F := F) (w := 4) (x := d + 4) hD1 (by omega) le_rfl
      (by omega) h4).copy hm3 le_rfl (by omega)
    have hp1 : (Ptr.out ((d : ℤ) - off)).add (inc32table.getD off 0) =
        .out (((d + 4 : ℕ) : ℤ) - D₁) := by
      rw [Ptr.add]
      congr 1
      omega
    have hp2 : (Ptr.out (((d + 4 : ℕ) : ℤ) - D₁)).add (-dec64table.getD off 0) =
        .out (((d + 8 : ℕ) : ℤ) - D₂) := by
      rw [Ptr.add]
      congr 1
      omega
    obtain ⟨m₅, h5, hm5⟩ := wildCopy8_spec (ht.feeds (F := F) (w := 8) (x := d + 8) hD2 (by omega)
      le_rfl (by omega) h8') le_rfl hm4 (by omega) he
    refine ⟨m₅, ?_, hm5⟩
    simp only [hz, hc1, hc2, hp1, h3, hp2, h5, Option.bind_eq_bind, Option.bind_some]
  · have hf : Feeds F 8 (.out ((d : ℤ) - off)) d F.oend t :=
      ht.feeds (Or.inr (dvd_refl off)) hstart le_rfl le_rfl (by omega)
    obtain ⟨m₁, h1, hm1⟩ := hf.copy hm le_rfl (by omega)
    obtain ⟨m₂, h2, hm2⟩ := wildCopy8_spec (hf.shift 8) le_rfl hm1 (by omega) he
    refine ⟨m₂, ?_, hm2⟩
    simp only [h1, Option.bind_eq_bind, Option.bind_some]
    exact h2

/-- **`LZ4_memcpy_using_offset`** copies the match, for every offset. -/
theorem memcpyUsingOffset_spec (ht : MatchAt t d off F.oend) (hstart : F.start ≤ d)
    (hd : d + 16 ≤ F.oend) (he : e + 7 ≤ F.oend) (hm : Holds F t m d) :
    ∃ m', memcpyUsingOffset F m d (.out ((d : ℤ) - off)) e off = some m' ∧ Holds F t m' e := by
  have hle := ht.le
  have hlen := hm.length_eq
  have hload : load F m (.out ((d : ℤ) - off)) off = some (slice m (d - off) off) := by
    rw [show (d : ℤ) - off = ((d - off : ℕ) : ℤ) by omega]
    exact loadFrom_eq (by omega)
  have hslen : (slice m (d - off) off).length = off := by
    rw [length_slice]
    omega
  have hfill : ∀ v : List UInt8, 0 < off → off ∣ 8 → v.length = 8 →
      (∀ k < 8, v[k]? = (slice m (d - off) off)[k % off]?) →
      ∃ m', fillUsing F m d e v = some m' ∧ Holds F t m' e := fun v hpos h8 hv hvk =>
    fillUsing_spec (ht.fillsWith hpos h8 hm.agree hv hvk) hstart le_rfl (by omega) he hm
  unfold memcpyUsingOffset
  split
  · obtain ⟨x, hx⟩ := List.length_eq_one_iff.1 hslen
    simp only [hload, hx, Option.bind_eq_bind, Option.bind_some]
    refine hfill _ (by omega) (by decide) rfl fun k hk => ?_
    rw [hx]
    interval_cases k <;> rfl
  · obtain ⟨x, y, hx⟩ := List.length_eq_two.1 hslen
    simp only [hload, hx, Option.bind_eq_bind, Option.bind_some]
    refine hfill _ (by omega) (by decide) rfl fun k hk => ?_
    rw [hx]
    interval_cases k <;> rfl
  · obtain ⟨x, y, z, w, hx⟩ : ∃ x y z w, slice m (d - 4) 4 = [x, y, z, w] := by
      match slice m (d - 4) 4, hslen with
      | [x, y, z, w], _ => exact ⟨x, y, z, w, rfl⟩
    simp only [hload, hx, Option.bind_eq_bind, Option.bind_some]
    refine hfill _ (by omega) (by decide) rfl fun k hk => ?_
    rw [hx]
    interval_cases k <;> rfl
  · rename_i h1 h2 h4
    exact memcpyUsingOffsetBase_spec ht h1 h2 h4 hstart hd he hm

/-! ### The pass -/

/-- What a pass of the fast loop does, from the state `s₀` at its head. -/
def FastPost (F : Params) (s₀ : State) : FastJump → Prop
  | .again s => Post F s₀ (.again s) ∧ s.op + 64 ≤ F.oend
  | .leave j => Post F s₀ j

/-- A match that has been copied whole, with room left. -/
theorem AtMatch.fastAgain (h : AtMatch F s₀ q s) (hoff : q.offset ≤ F.dictSize + s.op)
    (hfit : s.op + q.matchLength + 64 ≤ F.oend) (hm : m.length = F.oend)
    (hhist : F.hist m (s.op + q.matchLength) =
      copyMatch (F.hist s.mem s.op) q.offset q.matchLength) :
    FastPost F s₀ (.again { s with op := s.op + q.matchLength, mem := m }) := by
  have hmin : min q.matchLength (F.oend - s.op) = q.matchLength := Nat.min_eq_left (by omega)
  exact ⟨h.again hoff (fun _ => by omega) hm (by rw [hmin]) fun _ => by rw [hmin, hhist], hfit⟩

/-- A match with room left behind it: it is outside, in the dictionary, or copied whole. -/
theorem fastMatchCopy_spec (hF : F.Ok) (h : AtMatch F s₀ q s)
    (hfit : s.op + q.matchLength + 64 < F.oend) :
    ∃ j, fastMatchCopy F q.offset q.matchLength s = some j ∧ FastPost F s₀ j := by
  have hml := q.min_match
  have hstart := h.start_le
  simp only [fastMatchCopy]
  by_cases hout : outsideBuffers F ((s.op : ℤ) - q.offset) = true
  · rw [if_pos hout]
    exact ⟨_, rfl, h.length_eq, fun B => h.not_valid_of_outside hout⟩
  rw [if_neg hout]
  by_cases hext : F.dict = .usingExtDict ∧ (s.op : ℤ) - q.offset < F.lowPrefix
  · have hlow := hext.2
    rw [Params.lowPrefix, if_neg (by rw [hext.1]; exact DictDirective.noConfusion)] at hlow
    obtain ⟨j, hj, hpost, hop⟩ := extDictMatch_spec h hext.1 (h.offset_le hF hout) (by omega)
    rw [if_pos hext, hj]
    cases j with
    | again s' =>
      have := hop s' rfl
      exact ⟨_, rfl, hpost, by omega⟩
    | done op mem => exact ⟨_, rfl, hpost⟩
    | outputError ip mem => exact ⟨_, rfl, hpost⟩
  · have hoff := h.offset_le_op hF hout hext
    have hT := matchAt_target hoff (by omega) h.length_eq
    have hhold := holds_target q.offset (show s.op ≤ F.oend by omega) h.length_eq
    have hfeed : ∀ w ≤ q.offset,
        Feeds F w (.out ((s.op : ℤ) - q.offset)) s.op F.oend (matchTarget F s.mem s.op q.offset) :=
      fun w hw => hT.feeds (Or.inr (dvd_refl _)) hstart le_rfl le_rfl hw
    obtain ⟨m', hcopy, hm'⟩ : ∃ m', (if q.offset < 16 then
          memcpyUsingOffset F s.mem s.op (.out ((s.op : ℤ) - q.offset)) (s.op + q.matchLength)
            q.offset
        else if F.aarch64 = true ∧ q.offset ≥ 64 then
          wildCopy64 F s.mem s.op (.out ((s.op : ℤ) - q.offset)) (s.op + q.matchLength)
        else wildCopy32 F s.mem s.op (.out ((s.op : ℤ) - q.offset)) (s.op + q.matchLength)) =
          some m' ∧ Holds F (matchTarget F s.mem s.op q.offset) m' (s.op + q.matchLength) := by
      split_ifs with h16 h64
      · exact memcpyUsingOffset_spec hT hstart (by omega) (by omega) hhold
      · exact wildCopy64_spec (hfeed 64 h64.2) le_rfl hhold (by omega) (by omega)
      · exact wildCopy32_spec (hfeed 16 (by omega)) le_rfl hhold (by omega) (by omega)
    rw [if_neg hext, hcopy]
    exact ⟨_, rfl, h.fastAgain (by omega) hfit.le hm'.length_eq
      (hist_of_holds hoff (by omega) h.length_eq hm')⟩

/-- Leaving by way of the safe loop. -/
theorem leave_spec {r : Option Jump} (h : ∃ j, r = some j ∧ Post F s₀ j) :
    ∃ j, (r.bind fun j => some (FastJump.leave j)) = some j ∧ FastPost F s₀ j := by
  obtain ⟨j, rfl, hj⟩ := h
  exact ⟨.leave j, rfl, hj⟩

/-- Offset and match length, and the match: copied here, or left to the safe loop. -/
theorem fastMatch_spec (hF : F.Ok) (h : Behind F s₀ token lits [] s)
    (hip : s.ip + 2 < F.iend) :
    ∃ j, fastMatch F token s = some j ∧ FastPost F s₀ j := by
  have hiend : F.iend = F.src.length := rfl
  have hstart := h.start_le
  obtain ⟨offset, hoff, hread, hst⟩ := readLE16_spec hip.le
  have hb := h.offset hst hip
  simp only [fastMatch, hread, Option.bind_eq_bind, Option.bind_some]
  split_ifs with h15 hnear hshort
  · obtain ⟨ip', r, hread', hsome, hnone⟩ := readVariableLength_spec F.src
      (show (F.iend : ℤ) - 6 ≤ F.src.length by omega) (s.ip + 2)
    simp only [hread', Option.bind_some]
    cases r with
    | none =>
      refine ⟨_, rfl, h.length_eq, fun B hB => ?_⟩
      obtain ⟨n, j, hn, hst', hj⟩ := hb.valid hB
      have := hnone rfl n j (by omega) hst'
      omega
    | some l =>
      obtain ⟨hle, hst'⟩ := hsome l rfl
      have hmatch := hb.atMatch hoff (n := 15 + l) (by omega) hst' (by omega)
      simp only [h15]
      split_ifs with hwrap hnear
      · refine ⟨_, rfl, h.length_eq, fun B hB => ?_⟩
        have hbound := le_of_stands_lengthBytes hst' (by omega)
        rw [not_dstWraps hB.inAddressSpace h.op_lt.le (by omega)] at hwrap
        exact absurd hwrap Bool.false_ne_true
      · exact leave_spec (safeMatchCopy_spec hF hmatch :)
      · exact (fastMatchCopy_spec hF hmatch (Nat.not_le.1 hnear) :)
  all_goals
    have hnil : Stands F.src (lengthBytes (token % 16)) (s.ip + 2) (s.ip + 2) := by
      rw [lengthBytes_of_lt (by omega)]
      exact Stands.nil _ _
    have hmatch := hb.atMatch hoff (n := token % 16) (by omega) hnil hip
  · exact leave_spec (safeMatchCopy_spec hF hmatch :)
  · obtain ⟨hdict, h8⟩ := hshort
    have hle : offset ≤ s.op := by
      rw [Params.lowPrefix] at hdict
      split_ifs at hdict with h64
      · have := hF.prefix64k h64
        omega
      · rcases hdict with hdict | hdict
        · exact absurd hdict h64
        · omega
    obtain ⟨m₂, m₃, m₄, h2, h3, h4, hm4⟩ := copy18_spec
      (matchAt_target (m := s.mem) hle (by omega) h.length_eq) h8 (by omega) (by omega)
      (holds_target _ (by omega) h.length_eq)
    have hhist : F.hist m₄ (s.op + (token % 16 + 4)) =
        copyMatch (F.hist s.mem s.op) offset (token % 16 + 4) :=
      hist_of_holds hle (by omega) h.length_eq (hm4.mono (by omega))
    simp only [h2, h3, h4, Option.bind_some]
    exact ⟨_, rfl, (hmatch.fastAgain (show offset ≤ F.dictSize + s.op by omega)
      (show s.op + (token % 16 + 4) + 64 ≤ F.oend by omega) hm4.length_eq hhist :)⟩
  · exact (fastMatchCopy_spec hF hmatch (Nat.not_le.1 hnear) :)

/-- **One pass of the fast loop** never faults and is the plain decoder: it reads a sequence
and leaves 64 bytes of room, or goes on in the safe loop. -/
theorem fastStep_spec (hF : F.Ok) (hs : Ready F s₀) (hroom : s₀.op + 64 ≤ F.oend) :
    ∃ j, fastStep F s₀ = some j ∧ FastPost F s₀ j := by
  have hiend : F.iend = F.src.length := rfl
  have hlt := hs.ip_lt
  have hstart := hs.start_le
  obtain ⟨b, hb⟩ : ∃ b, F.src[s₀.ip]? = some b := ⟨_, List.getElem?_eq_getElem hs.ip_lt⟩
  have hbyte := b.toNat_lt
  simp only [fastStep, hb, Option.map_some, Option.bind_eq_bind, Option.bind_some]
  by_cases hend : F.iend < s₀.ip + 1 + 17
  · rw [if_pos hend]
    exact leave_spec (safeLiteralCopyEarly_spec hF hs ⟨b, hb, rfl⟩)
  rw [if_neg hend]
  by_cases h15 : b.toNat / 16 = 15
  · rw [if_pos h15]
    obtain ⟨ip', r, hread, hsome, hnone⟩ := readVariableLength_spec F.src
      (show (F.iend : ℤ) - 15 ≤ F.src.length by omega) (s₀.ip + 1)
    simp only [hread, Option.bind_some]
    cases r with
    | none =>
      refine ⟨_, rfl, hs.length_eq, fun B hB => ?_⟩
      obtain ⟨L, j, hL, hst, hj⟩ := hB.literals ⟨b, hb, rfl⟩
      have := hnone rfl L j (by omega) hst
      omega
    | some l =>
      obtain ⟨hle, hst⟩ := hsome l rfl
      have hhead : Head F s₀.ip b.toNat (15 + l) ip' := ⟨⟨b, hb, rfl⟩, by omega, hst⟩
      simp only [h15]
      by_cases hdst : F.dstWraps s₀.op (15 + l) = true
      · rw [if_pos hdst]
        refine ⟨_, rfl, hs.length_eq, fun B hB => ?_⟩
        have hbound := le_of_stands_lengthBytes hst (by omega)
        rw [not_dstWraps hB.inAddressSpace hs.op_le (by omega)] at hdst
        exact absurd hdst Bool.false_ne_true
      rw [if_neg hdst]
      by_cases hsrc : F.srcWraps ip' (15 + l) = true
      · rw [if_pos hsrc]
        refine ⟨_, rfl, hs.length_eq, fun B hB => ?_⟩
        have hroom' := hB.head_room hhead (by omega)
        rw [not_srcWraps hB.inAddressSpace (by omega)] at hsrc
        exact absurd hsrc Bool.false_ne_true
      rw [if_neg hsrc]
      by_cases hnear : F.oend < s₀.op + (15 + l) + wildLiterals F ∨
          F.iend < ip' + (15 + l) + wildLiterals F
      · rw [if_pos hnear]
        exact leave_spec (safeLiteralCopy_spec hF hs hhead (by omega))
      · rw [if_neg hnear]
        rw [not_or, not_lt, not_lt] at hnear
        have hfeed : ∀ w, Feeds F w (.src ip') s₀.op (min F.oend (s₀.op + (F.iend - ip')))
            (s₀.mem.take s₀.op ++ F.src.drop ip') := fun w =>
          feeds_literals hs.length_eq hs.op_le hstart (by omega)
        have hhold := holds_literals ip' hs.length_eq hs.op_le
        have hw : wildLiterals F = 64 ∧ F.aarch64 = true ∨
            wildLiterals F = 32 ∧ F.aarch64 = false := by
          unfold wildLiterals
          cases F.aarch64 <;> simp
        obtain ⟨m', hcopy, hm'⟩ : ∃ m', (if F.aarch64 = true then
            wildCopy64 F s₀.mem s₀.op (.src ip') (s₀.op + (15 + l))
            else wildCopy32 F s₀.mem s₀.op (.src ip') (s₀.op + (15 + l))) = some m' ∧
            Holds F (s₀.mem.take s₀.op ++ F.src.drop ip') m' (s₀.op + (15 + l)) := by
          rcases hw with ⟨hw, harch⟩ | ⟨hw, harch⟩
          · rw [if_pos harch]
            exact wildCopy64_spec (hfeed 64) le_rfl hhold (by omega) (by omega)
          · rw [if_neg (by rw [harch]; exact Bool.false_ne_true)]
            exact wildCopy32_spec (hfeed 16) le_rfl hhold (by omega) (by omega)
        rw [hcopy, Option.bind_some]
        exact fastMatch_spec hF (hhead.behind (by omega) hstart (by omega) (fun _ => by omega)
          hm'.length_eq (hist_of_literals hs.length_eq hs.op_le hm'))
          (show ip' + (15 + l) + 2 < F.iend by omega)
  · rw [if_neg h15]
    have hnil : Stands F.src (lengthBytes (b.toNat / 16)) (s₀.ip + 1) (s₀.ip + 1) := by
      rw [lengthBytes_of_lt (by omega)]
      exact Stands.nil _ _
    have hhead : Head F s₀.ip b.toNat (b.toNat / 16) (s₀.ip + 1) := ⟨⟨b, hb, rfl⟩, by omega, hnil⟩
    obtain ⟨m₁, h1, hm1⟩ := (feeds_literals (w := 16) hs.length_eq hs.op_le hstart
      (show s₀.ip + 1 ≤ F.iend by omega)).copy (holds_literals _ hs.length_eq hs.op_le) le_rfl
      (by omega)
    simp only [h1, Option.bind_some]
    exact fastMatch_spec hF (hhead.behind (by omega) hstart (by omega) (fun _ => by omega)
      hm1.length_eq (hist_of_literals hs.length_eq hs.op_le (hm1.mono (by omega))))
      (show s₀.ip + 1 + b.toNat / 16 + 2 < F.iend by omega)

end Lz4
end Twrp

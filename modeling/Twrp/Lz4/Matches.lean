/-
# `lz4.c`: the copy of a match

`safe_match_copy` and the code behind it write a match four ways: from the dictionary,
byte by byte or at once when the decoder may stop early, with the first eight bytes put
together and the rest copied past its end, or, close to the end of `dst`, only up to seven
bytes in front of it and the rest byte by byte.  All of them give the same
(`safeMatchCopy_spec`): the output goes on like the match, as far as there is room, and an
error means that the block was not valid.
-/

import Twrp.Lz4.Copies
import Twrp.Lz4.Reading

namespace Twrp
namespace Lz4

open Bytes Lz

variable {F : Params} {s₀ s : State} {B : Block} {q : Sequence} {m m' : Mem} {op off k : ℕ}

/-! ### What the output is to become -/

/-- The output up to `op` and the match behind it, as far as `dst` goes. -/
def matchTarget (F : Params) (m : Mem) (op off : ℕ) : List UInt8 :=
  copyMatch (m.take op) off (F.oend - op)

theorem matchAt_target (hoff : off ≤ op) (hop : op ≤ F.oend) (hm : m.length = F.oend) :
    MatchAt (matchTarget F m op off) op off F.oend := by
  have hlen : (m.take op).length = op := by
    rw [List.length_take]
    omega
  have := matchAt_copyMatch (N := F.oend - op) (hoff.trans hlen.ge)
  rwa [hlen, Nat.add_sub_cancel' hop] at this

theorem holds_target (off : ℕ) (hop : op ≤ F.oend) (hm : m.length = F.oend) :
    Holds F (matchTarget F m op off) m op := by
  refine ⟨hm, fun j hj => ?_⟩
  rw [matchTarget, getElem?_copyMatch_of_lt (by rw [List.length_take]; omega),
    List.getElem?_take_of_lt hj]

/-- Holding the target is having copied the match. -/
theorem hist_of_holds (hoff : off ≤ op) (hop : op + k ≤ F.oend) (hm : m.length = F.oend)
    (h : Holds F (matchTarget F m op off) m' (op + k)) :
    F.hist m' (op + k) = copyMatch (F.hist m op) off k := by
  have hlen : (m.take op).length = op := by
    rw [List.length_take]
    omega
  have htake := take_copyMatch (m.take op) off (show k ≤ F.oend - op by omega)
  rw [hlen] at htake
  rw [Params.hist, Params.hist, h.agree.take_eq, matchTarget, htake,
    copyMatch_append _ _ (hoff.trans hlen.ge)]

/-! ### In front of the match -/

/-- A sequence has been read whole, and its literals are in the output. -/
structure AtMatch (F : Params) (s₀ : State) (q : Sequence) (s : State) : Prop where
  stands : Stands F.src q.bytes s₀.ip s.ip
  hist_eq : F.hist s.mem s.op = F.hist s₀.mem s₀.op ++ q.literals
  op_eq : s.op = s₀.op + q.literals.length
  ip_lt : s.ip < F.iend
  start_le : F.start ≤ s.op
  op_lt : s.op < F.oend
  room : F.partialDecoding = .decodeFullBlock → s.op + 12 ≤ F.oend
  length_eq : s.mem.length = F.oend

namespace AtMatch

theorem ip_lt_ip (h : AtMatch F s₀ q s) : s₀.ip < s.ip := by
  have := h.stands.1
  rw [this, Sequence.bytes, List.length_cons]
  omega

/-- A valid block begins with the sequence. -/
theorem seqs_eq (h : AtMatch F s₀ q s) (hB : Valid F s₀ B) :
    B.seqs = q :: B.tail.seqs ∧ F.src.drop s.ip = B.tail.bytes :=
  Block.seqs_of_bytes (hB.drop.symm.trans h.stands.2)

/-- The match, as far as there is room, is what the sequence stands for. -/
theorem expand_take (h : AtMatch F s₀ q s) :
    copyMatch (F.hist s.mem s.op) q.offset (min q.matchLength (F.oend - s.op)) =
      (q.expand (F.hist s₀.mem s₀.op)).take (F.dictSize + F.oend) := by
  have hop := h.op_lt
  have hlen : (F.hist s.mem s.op).length = F.dictSize + s.op :=
    length_hist (by rw [h.length_eq]; omega)
  rw [Sequence.expand, ← h.hist_eq]
  rcases Nat.le_total q.matchLength (F.oend - s.op) with hml | hml
  · rw [Nat.min_eq_left hml, List.take_of_length_le (by rw [length_copyMatch]; omega)]
  · rw [Nat.min_eq_right hml, ← take_copyMatch _ _ hml, hlen]
    congr 1
    omega

/-- What a pass that has copied the match returns. -/
theorem again (h : AtMatch F s₀ q s) (hoff : q.offset ≤ F.dictSize + s.op)
    (hfit : F.partialDecoding = .decodeFullBlock → s.op + q.matchLength ≤ F.oend)
    (hm : m.length = F.oend) {op' : ℕ} (hop : op' = s.op + min q.matchLength (F.oend - s.op))
    (hhist : (F.partialDecoding = .partialDecode → q.offset ≠ 0) →
      F.hist m op' = copyMatch (F.hist s.mem s.op) q.offset
        (min q.matchLength (F.oend - s.op))) :
    Post F s₀ (.again { s with op := op', mem := m }) := by
  have hlt := h.op_lt
  refine ⟨⟨h.ip_lt, ?_, ?_, hm⟩, h.ip_lt_ip, q, h.stands, ?_, fun hfull => ?_, fun hpos => ?_⟩
  · exact h.start_le.trans (by rw [hop]; exact Nat.le_add_right _ _)
  · show op' ≤ F.oend
    omega
  · rw [h.op_eq] at hoff
    omega
  · rw [← h.op_eq]
    exact hfit hfull
  · exact (hhist hpos).trans h.expand_take

/-- An error where a valid block would have a match in range. -/
theorem not_valid_of_outside (h : AtMatch F s₀ q s)
    (hout : outsideBuffers F ((s.op : ℤ) - q.offset) = true) : ¬Valid F s₀ B := by
  intro hB
  have hseqs := (h.seqs_eq hB).1
  have hlt := h.op_lt
  have hop := h.op_eq
  have hoff := q.offset_lt
  have hstart := h.start_le
  have hrange := hB.inRange
  rw [hseqs] at hrange
  obtain ⟨-, hout⟩ := of_decide_eq_true hout
  rcases hrange with ⟨-, hfull⟩ | ⟨hreach, -⟩
  · omega
  · rw [Params.lowPrefix] at hout
    split_ifs at hout <;> omega

/-- An error where a valid block would have five more literals. -/
theorem not_valid_of_close (h : AtMatch F s₀ q s) (hfull : F.partialDecoding = .decodeFullBlock)
    (hclose : F.oend < s.op + q.matchLength + 5) : ¬Valid F s₀ B := by
  intro hB
  have hseqs := (h.seqs_eq hB).1
  have hop := h.op_eq
  have hlast := hB.restricted.last (by rw [hseqs]; exact List.cons_ne_nil _ _)
  have hfits := hB.fits hfull
  rw [Block.size, hseqs, Block.span] at hfits
  omega

/-- A match that is not outside the buffers is inside the history. -/
theorem offset_le (h : AtMatch F s₀ q s) (hF : F.Ok)
    (hout : ¬outsideBuffers F ((s.op : ℤ) - q.offset) = true) :
    q.offset ≤ F.dictSize + s.op := by
  have hoff := q.offset_lt
  have hstart := h.start_le
  rw [outsideBuffers, decide_eq_true_eq, not_and, not_lt] at hout
  rcases Nat.lt_or_ge F.dictSize 65536 with hd | hd
  · have hlow := hout hd
    rw [Params.lowPrefix] at hlow
    split_ifs at hlow with hdict
    · have := hF.prefix64k hdict
      omega
    · omega
  · omega

/-- A match that does not start in the dictionary starts in the output. -/
theorem offset_le_op (h : AtMatch F s₀ q s) (hF : F.Ok)
    (hout : ¬outsideBuffers F ((s.op : ℤ) - q.offset) = true)
    (hext : ¬(F.dict = .usingExtDict ∧ (s.op : ℤ) - q.offset < F.lowPrefix)) :
    q.offset ≤ s.op := by
  have hle := h.offset_le hF hout
  by_cases hdict : F.dict = .usingExtDict
  · have hlow : ¬(s.op : ℤ) - q.offset < F.lowPrefix := fun hlt => hext ⟨hdict, hlt⟩
    rw [Params.lowPrefix, if_neg (by rw [hdict]; exact DictDirective.noConfusion)] at hlow
    omega
  · rw [Params.dictSize, hF.noDictionary hdict, List.length_nil] at hle
    omega

end AtMatch

/-! ### The first eight bytes -/

/-- Copying bytes onto themselves changes nothing. -/
theorem memcpy_self {t : List UInt8} {d n e : ℕ} (hstart : F.start ≤ d) (hend : d + n ≤ F.oend)
    (hm : Holds F t m e) (he : d + n ≤ e) :
    ∃ m', memcpy F m d (.out d) n = some m' ∧ Holds F t m' e := by
  have hlen := hm.length_eq
  have hload : load F m (.out d) n = some (slice m d n) := loadFrom_eq (by omega)
  have hslen : (slice m d n).length = n := by
    rw [length_slice]
    omega
  obtain ⟨m', hst, hm'⟩ := hm.store (slice m d n) hstart (by omega) (by omega)
    fun k hk => by rw [getElem?_slice (by omega), hm.agree _ (by omega)]
  refine ⟨m', ?_, hm'.mono (Nat.le_max_left _ _)⟩
  rw [memcpy, if_neg (by simp [overlaps]), memmove, hload]
  exact hst

theorem copyBytes_self {t : List UInt8} {d n e : ℕ} (hstart : F.start ≤ d) (hend : d + n ≤ F.oend)
    (hm : Holds F t m e) (he : d + n ≤ e) :
    ∃ m', copyBytes F n m d (.out d) = some m' ∧ Holds F t m' e := by
  induction n generalizing m d with
  | zero => exact ⟨m, rfl, hm⟩
  | succ n ih =>
    obtain ⟨m₁, hcopy1, hm1⟩ := memcpy_self (n := 1) hstart (by omega) hm (by omega)
    obtain ⟨m₂, hcopy2, hm2⟩ := ih (d := d + 1) (by omega) (by omega) hm1 (by omega)
    refine ⟨m₂, ?_, hm2⟩
    rw [copyBytes, hcopy1, Option.bind_some]
    exact hcopy2

theorem copyFirst_spec {t : List UInt8} (ht : MatchAt t op off F.oend) (hstart : F.start ≤ op)
    (hend : op + 8 ≤ F.oend) (hm : Holds F t m op) :
    ∃ m' p, copyFirst F m op ((op : ℤ) - off) off = some (m', p) ∧ Holds F t m' (op + 8) ∧
      Feeds F 8 p (op + 8) F.oend t := by
  have hle := ht.le
  rw [copyFirst]
  split_ifs with hoff
  · obtain ⟨D₁, D₂, h1, h2, hD1, hD2, h4, h8, hb1, hb2⟩ := tables hoff
    -- four bytes; the offset `0` finds the zeros that have just been stored
    obtain ⟨m₁, m₂, hz, hc, hm2⟩ : ∃ m₁ m₂, store F m op (zeros 4) = some m₁ ∧
        copyBytes F 4 m₁ op (.out ((op : ℤ) - off)) = some m₂ ∧ Holds F t m₂ (op + 4) := by
      rcases Nat.eq_zero_or_pos off with rfl | hpos
      · obtain ⟨m₁, hz, hm1⟩ := hm.store (zeros 4) hstart le_rfl
          (by rw [length_zeros]; omega) fun k hk => by
            rw [length_zeros] at hk
            rw [ht.zero rfl (op + k) (by omega) (by omega), zeros, List.getElem?_replicate,
              if_pos hk]
        rw [length_zeros, Nat.max_eq_right (by omega)] at hm1
        obtain ⟨m₂, hc, hm2⟩ := copyBytes_self (n := 4) hstart (by omega) hm1 le_rfl
        exact ⟨m₁, m₂, hz, by rwa [Int.natCast_zero, Int.sub_zero], hm2⟩
      · obtain ⟨m₁, hz, hm1⟩ := hm.scratch hstart (zeros 4)
          (by rw [length_zeros]; omega)
        obtain ⟨m₂, hc, hm2⟩ := copyBytes_spec
          (ht.feeds (F := F) (w := 1) (Or.inr (dvd_refl off)) hstart le_rfl le_rfl hpos) le_rfl
          hm1 (n := 4) (by omega)
        exact ⟨m₁, m₂, hz, hc, hm2⟩
    obtain ⟨m₃, h3, hm3⟩ := (ht.feeds (F := F) (w := 4) (x := op + 4) hD1 (by omega) le_rfl
      (by omega) h4).copy hm2 le_rfl (by omega)
    have hp1 : Ptr.out ((op : ℤ) - off + inc32table.getD off 0) =
        .out (((op + 4 : ℕ) : ℤ) - D₁) := by
      congr 1
      omega
    have hp2 : (Ptr.out (((op + 4 : ℕ) : ℤ) - D₁)).add (-dec64table.getD off 0) =
        .out (((op + 8 : ℕ) : ℤ) - D₂) := by
      rw [Ptr.add]
      congr 1
      omega
    refine ⟨m₃, .out (((op + 8 : ℕ) : ℤ) - D₂), ?_, hm3, ?_⟩
    · simp only [hz, hc, hp1, h3, hp2, Option.bind_eq_bind, Option.bind_some]
    · exact ht.feeds hD2 (by omega) le_rfl (by omega) h8
  · have hf : Feeds F 8 (.out ((op : ℤ) - off)) op F.oend t :=
      ht.feeds (Or.inr (dvd_refl off)) hstart le_rfl le_rfl (by omega)
    obtain ⟨m₁, h1, hm1⟩ := hf.copy hm le_rfl hend
    refine ⟨m₁, .out ((op : ℤ) - off + 8), ?_, hm1, ?_⟩
    · simp only [h1, Option.bind_eq_bind, Option.bind_some]
    · exact hf.shift 8

/-! ### The rest of the match -/

/-- The bytes of a match at a place, inside the output, when the decoder need not stop early
there. -/
theorem blockMatch_full (h : AtMatch F s₀ q s) (hoff : q.offset ≤ s.op)
    (hpart : ¬(F.partialDecoding = .partialDecode ∧ F.oend < s.op + q.matchLength + 12)) :
    ∃ j, blockMatch F ((s.op : ℤ) - q.offset) q.offset q.matchLength s = some j ∧
      Post F s₀ j := by
  obtain ⟨ip, op, mem⟩ := s
  replace hoff : q.offset ≤ op := hoff
  have hml := q.min_match
  have hlt : op < F.oend := h.op_lt
  have hlen : mem.length = F.oend := h.length_eq
  have hstart : F.start ≤ op := h.start_le
  have hroom : op + 12 ≤ F.oend ∨ op + q.matchLength + 12 ≤ F.oend := by
    rcases hd : F.partialDecoding with _ | _
    · exact Or.inl (h.room hd)
    · exact Or.inr (Nat.not_lt.1 fun hc => hpart ⟨hd, hc⟩)
  have hT := matchAt_target (m := mem) hoff hlt.le hlen
  obtain ⟨m₁, p, hfirst, hm1, hp⟩ := copyFirst_spec hT hstart (by omega)
    (holds_target q.offset hlt.le hlen)
  -- what remains to be said once the target is held up to the end of the match
  have hagain : ∀ {m' : Mem}, op + q.matchLength + 5 ≤ F.oend →
      Holds F (matchTarget F mem op q.offset) m' (op + q.matchLength) →
      Post F s₀ (.again { ip, op := op + q.matchLength, mem := m' }) := by
    intro m' hend hm'
    have hmin : min q.matchLength (F.oend - op) = q.matchLength := Nat.min_eq_left (by omega)
    exact h.again (show q.offset ≤ F.dictSize + op by omega)
      (fun _ => show op + q.matchLength ≤ F.oend by omega) hm'.length_eq (by rw [hmin]) fun _ => by
        rw [hmin]
        exact hist_of_holds hoff (by omega) hlen hm'
  have hpush : ((op + 8 : ℕ) : ℤ) = (op : ℤ) + 8 := by omega
  simp only [blockMatch, if_neg hpart, hfirst, Option.bind_eq_bind, Option.bind_some]
  split_ifs with hnear hclose hlimit hlong
  · refine ⟨_, rfl, hm1.length_eq, fun B => h.not_valid_of_close ?_ hclose⟩
    cases hd : F.partialDecoding with
    | decodeFullBlock => rfl
    | partialDecode => exact absurd ⟨hd, hnear⟩ hpart
  · obtain ⟨m₂, h2, hm2⟩ := wildCopy8_spec hp le_rfl hm1 (by omega)
      (show F.oend - 7 + 7 ≤ F.oend by omega)
    have hp' := hp.shift (F.oend - 7 - (op + 8))
    rw [show op + 8 + (F.oend - 7 - (op + 8)) = F.oend - 7 by omega,
      show ((F.oend - 7 - (op + 8) : ℕ) : ℤ) = ((F.oend - 7 : ℕ) : ℤ) - (op + 8 : ℕ) by omega]
      at hp'
    obtain ⟨m₃, h3, hm3⟩ := copyBytes_spec (n := op + q.matchLength - (F.oend - 7)) hp'
      (by omega) hm2 (by omega)
    simp only [h2, h3, Option.bind_some]
    exact ⟨_, rfl, hagain (by omega) (hm3.mono (by omega))⟩
  · obtain ⟨m₂, h2, hm2⟩ := copyBytes_spec (n := op + q.matchLength - (op + 8)) hp (by omega) hm1
      (by omega)
    simp only [h2, Option.bind_some]
    exact ⟨_, rfl, hagain (by omega) (hm2.mono (by omega))⟩
  · obtain ⟨m₂, h2, hm2⟩ := hp.copy hm1 le_rfl (by omega)
    obtain ⟨m₃, h3, hm3⟩ := wildCopy8_spec (e := op + q.matchLength) (hp.shift 8) le_rfl hm2
      (by omega) (by omega)
    simp only [h2, Option.bind_some]
    rw [show ((8 : ℕ) : ℤ) = 8 from rfl] at h3
    simp only [h3, Option.bind_some]
    exact ⟨_, rfl, hagain (by omega) hm3⟩
  · obtain ⟨m₂, h2, hm2⟩ := hp.copy hm1 le_rfl (by omega)
    simp only [h2, Option.bind_some]
    exact ⟨_, rfl, hagain (by omega) (hm2.mono (by omega))⟩

/-- The bytes of a match close to the end, when the decoder may stop early. -/
theorem blockMatch_partial (h : AtMatch F s₀ q s) (hoff : q.offset ≤ s.op)
    (hpart : F.partialDecoding = .partialDecode ∧ F.oend < s.op + q.matchLength + 12) :
    ∃ j, blockMatch F ((s.op : ℤ) - q.offset) q.offset q.matchLength s = some j ∧
      Post F s₀ j := by
  obtain ⟨ip, op, mem⟩ := s
  replace hoff : q.offset ≤ op := hoff
  have hml := q.min_match
  have hlt : op < F.oend := h.op_lt
  have hlen : mem.length = F.oend := h.length_eq
  have hstart : F.start ≤ op := h.start_le
  obtain ⟨mlen, hmlen⟩ : ∃ mlen, mlen = min q.matchLength (F.oend - op) := ⟨_, rfl⟩
  -- the copy, whichever way it is made
  obtain ⟨m', hcopy, hm', hhist⟩ : ∃ m' : Mem,
      (if (op : ℤ) - q.offset + mlen > op then
        copyBytes F mlen mem op (.out ((op : ℤ) - q.offset))
      else memcpy F mem op (.out ((op : ℤ) - q.offset)) mlen) = some m' ∧
      m'.length = F.oend ∧ (q.offset ≠ 0 →
        F.hist m' (op + mlen) = copyMatch (F.hist mem op) q.offset mlen) := by
    rcases Nat.eq_zero_or_pos q.offset with hzero | hpos
    · obtain ⟨m', hcopy, hm'⟩ := copyBytes_self (n := mlen) (d := op) (e := F.oend) hstart
        (by omega) ⟨hlen, Agree.refl mem F.oend⟩ (by omega)
      refine ⟨m', ?_, hm'.length_eq, fun hne => absurd hzero hne⟩
      rw [if_pos (by omega), hzero, Int.natCast_zero, Int.sub_zero, hcopy]
    · have hT := matchAt_target (m := mem) hoff hlt.le hlen
      have hhold := holds_target q.offset hlt.le hlen
      have hhist : ∀ {m' : Mem}, Holds F (matchTarget F mem op q.offset) m' (op + mlen) →
          F.hist m' (op + mlen) = copyMatch (F.hist mem op) q.offset mlen :=
        fun hm' => hist_of_holds hoff (by omega) hlen hm'
      split_ifs with hover
      · obtain ⟨m', hcopy, hm'⟩ := copyBytes_spec (n := mlen)
          (hT.feeds (F := F) (w := 1) (Or.inr (dvd_refl _)) hstart le_rfl le_rfl hpos) le_rfl hhold
          (by omega)
        exact ⟨m', hcopy, hm'.length_eq, fun _ => hhist hm'⟩
      · obtain ⟨m', hcopy, hm'⟩ := (hT.feeds (F := F) (w := mlen) (Or.inr (dvd_refl _)) hstart
          le_rfl le_rfl (by omega)).copy hhold le_rfl (by omega)
        exact ⟨m', hcopy, hm'.length_eq, fun _ => hhist hm'⟩
  simp only [blockMatch, if_pos hpart, ← hmlen, Option.bind_eq_bind]
  rw [hcopy, Option.bind_some]
  split_ifs with hend
  · refine ⟨_, rfl, by omega, by omega, hm', fun hfull => ?_, fun B hB => ?_⟩
    · rw [hfull] at hpart
      exact absurd hpart.1 EarlyEnd.noConfusion
    · have hseqs := (h.seqs_eq hB).1
      have hpos : q.offset ≠ 0 := by
        have := hB.positive q (by rw [hseqs]; exact List.mem_cons_self ..)
        omega
      have htake : copyMatch (F.hist mem op) q.offset (min q.matchLength (F.oend - op)) =
          (q.expand (F.hist s₀.mem s₀.op)).take (F.dictSize + F.oend) := h.expand_take
      rw [hhist hpos, hmlen, htake, Block.take_expand_of_cons hseqs]
      have hlen' := congrArg List.length htake
      have hophist : (F.hist mem op).length = F.dictSize + op := length_hist (by omega)
      rw [length_copyMatch, List.length_take, hophist] at hlen'
      omega
  · refine ⟨_, rfl, h.again ?_ (fun hfull => ?_) hm' ?_ fun hne => ?_⟩
    · show q.offset ≤ F.dictSize + op
      omega
    · rw [hfull] at hpart
      exact absurd hpart.1 EarlyEnd.noConfusion
    · rw [hmlen]
    · rw [hmlen] at hhist
      show F.hist m' (op + mlen) = _
      rw [hmlen]
      exact hhist (hne hpart.1)

/-- What the output is to become when the match starts in the dictionary: its end feeds up
to the place `off`, and from there the beginning of the prefix does. -/
theorem ext_target (hop : op ≤ F.oend) (hm : m.length = F.oend) (hoff : off ≤ F.dictSize + op)
    (hlow : op < off) (hstart : F.start ≤ op) : ∃ t, Holds F t m op ∧
      (∀ w, Feeds F w (.dict (F.dictSize - (off - op) : ℕ)) op (min F.oend off) t) ∧
      (∀ w ≤ off, Feeds F w (.out 0) off F.oend t) ∧
      ∀ m' k, op + k ≤ F.oend → Holds F t m' (op + k) →
        F.hist m' (op + k) = copyMatch (F.hist m op) off k := by
  have hhist : (F.hist m op).length = F.dictSize + op := length_hist (by omega)
  have hget : ∀ (l : List UInt8) (j : ℕ), l[j]? = (F.dictionary ++ l)[F.dictSize + j]? :=
    fun l j => by
      rw [Params.dictSize, List.getElem?_append_right (Nat.le_add_right _ _),
        Nat.add_sub_cancel_left]
  obtain ⟨t, ht⟩ : ∃ t, F.dictionary ++ t = copyMatch (F.hist m op) off (F.oend - op) := by
    have htake := take_copyMatch (F.hist m op) off (Nat.zero_le (F.oend - op))
    rw [Nat.add_zero, copyMatch_zero] at htake
    obtain ⟨r, hr⟩ := htake ▸ List.take_prefix (F.hist m op).length
      (copyMatch (F.hist m op) off (F.oend - op))
    exact ⟨m.take op ++ r, by rw [← hr, Params.hist, List.append_assoc]⟩
  have hback : ∀ j, op ≤ j → j < F.oend →
      t[j]? = (F.dictionary ++ t)[F.dictSize + j - off]? := fun j hj hjo => by
    rw [hget t j, ht, getElem?_copyMatch (by omega) (by omega) (by omega) (by omega)]
  refine ⟨t, ⟨hm, fun j hj => ?_⟩, fun w => ?_, fun w hw => ?_, fun m' k hk hm' => ?_⟩
  · rw [hget t, ht, getElem?_copyMatch_of_lt (by omega), Params.hist, ← hget,
      List.getElem?_take_of_lt hj]
  · refine feeds_dict hstart (Nat.min_le_left _ _) (by omega) fun j hj hjl => ?_
    rw [hback j hj (by omega), List.getElem?_append_left (by rw [← Params.dictSize]; omega)]
    congr 1
    omega
  · have : Feeds F w (.out ((off : ℤ) - off)) off F.oend t :=
      feeds_out (by omega) le_rfl le_rfl hw fun j hj hjl => by
        rw [hback j (by omega) hjl, Params.dictSize, List.getElem?_append_right (by omega)]
        congr 1
        omega
    rwa [Int.sub_self] at this
  · have htake := take_copyMatch (F.hist m op) off (show k ≤ F.oend - op by omega)
    rw [hhist, ← ht, Nat.add_assoc, Params.dictSize, List.take_length_add_append] at htake
    rw [Params.hist, hm'.agree.take_eq, htake]

/-- A match that starts in the dictionary, and goes on at the beginning of the prefix where
the dictionary ends first. -/
theorem extDictMatch_spec (h : AtMatch F s₀ q s) (hdict : F.dict = .usingExtDict)
    (hoff : q.offset ≤ F.dictSize + s.op) (hlow : s.op < q.offset) :
    ∃ j, extDictMatch F ((s.op : ℤ) - q.offset) q.matchLength s = some j ∧ Post F s₀ j ∧
      ∀ s', j = .again s' → s'.op ≤ s.op + q.matchLength := by
  obtain ⟨ip, op, mem⟩ := s
  replace hoff : q.offset ≤ F.dictSize + op := hoff
  replace hlow : op < q.offset := hlow
  have hlt : op < F.oend := h.op_lt
  have hstart : F.start ≤ op := h.start_le
  have hprefix : F.lowPrefix = 0 := if_neg (by rw [hdict]; exact DictDirective.noConfusion)
  by_cases hfull : F.oend < op + q.matchLength + 5 ∧ F.partialDecoding = .decodeFullBlock
  · simp only [extDictMatch, if_pos hfull]
    exact ⟨_, rfl, ⟨h.length_eq, fun B => h.not_valid_of_close hfull.2 hfull.1⟩,
      fun s' hs' => Jump.noConfusion hs'⟩
  obtain ⟨n, hn⟩ : ∃ n, n = min q.matchLength (F.oend - op) := ⟨_, rfl⟩
  have hclamp : (if F.oend < op + q.matchLength + 5 then min q.matchLength (F.oend - op)
      else q.matchLength) = n := by
    split_ifs <;> omega
  obtain ⟨t, hhold, hfeed, hfeed', hhist⟩ := ext_target (m := mem) hlt.le h.length_eq hoff hlow
    hstart
  have hfin : ∀ {m' : Mem}, Holds F t m' (op + n) →
      Post F s₀ (.again { ip, op := op + n, mem := m' }) ∧
      ∀ s', Jump.again { ip, op := op + n, mem := m' } = .again s' →
        s'.op ≤ op + q.matchLength := by
    intro m' hm'
    refine ⟨h.again hoff (fun hf => ?_) hm'.length_eq (by rw [hn]) fun _ => ?_, fun s' hs' => ?_⟩
    · have : ¬F.oend < op + q.matchLength + 5 := fun hclose => hfull ⟨hclose, hf⟩
      show op + q.matchLength ≤ F.oend
      omega
    · rw [← hn]
      exact hhist m' n (by omega) hm'
    · rw [← Jump.again.inj hs']
      show op + n ≤ op + q.matchLength
      omega
  -- `copySize` bytes of the match are the end of the dictionary
  obtain ⟨copySize, hcopySize⟩ : ∃ c, c = q.offset - op := ⟨_, rfl⟩
  have hsize : (0 - ((op : ℤ) - q.offset)).toNat = copySize := by omega
  have hptr : ((F.dictSize : ℤ) - (0 - ((op : ℤ) - q.offset))) = (F.dictSize - copySize : ℕ) := by
    omega
  have hptr' : ((F.dictSize : ℤ) - copySize) = (F.dictSize - copySize : ℕ) := by omega
  simp only [extDictMatch, if_neg hfull, hclamp, hprefix, hsize, hptr, hptr', Option.bind_eq_bind]
  by_cases hfits : n ≤ copySize
  · obtain ⟨m', hcopy, hm'⟩ := (hfeed n).copy hhold le_rfl (by omega)
    rw [← hcopySize] at hcopy
    rw [if_pos hfits, memmove_of_memcpy hcopy, Option.bind_some]
    exact ⟨_, rfl, hfin hm'⟩
  · obtain ⟨m₁, hcopy, hm1⟩ := (hfeed copySize).copy hhold le_rfl (by omega)
    rw [← hcopySize] at hcopy
    rw [show q.offset = op + copySize by omega] at hfeed'
    obtain ⟨m₂, hcopy2, hm2⟩ : ∃ m₂,
        (if ((n - copySize : ℕ) : ℤ) > ((op + copySize : ℕ) : ℤ) - 0
          then copyBytes F (n - copySize) m₁ (op + copySize) (.out 0)
          else memcpy F m₁ (op + copySize) (.out 0) (n - copySize)) = some m₂ ∧
        Holds F t m₂ (op + copySize + (n - copySize)) := by
      split_ifs
      · exact copyBytes_spec (hfeed' 1 (by omega)) le_rfl hm1 (by omega)
      · exact (hfeed' (n - copySize) (by omega)).copy hm1 le_rfl (by omega)
    rw [if_neg hfits, hcopy, Option.bind_some, hcopy2, Option.bind_some]
    rw [show op + copySize + (n - copySize) = op + n by omega] at hm2 ⊢
    exact ⟨_, rfl, hfin hm2⟩

/-- **`safe_match_copy`.**  The match is copied, as far as there is room, or the block was
not valid. -/
theorem safeMatchCopy_spec (hF : F.Ok) (h : AtMatch F s₀ q s) :
    ∃ j, safeMatchCopy F q.offset q.matchLength s = some j ∧ Post F s₀ j := by
  simp only [safeMatchCopy]
  split_ifs with hout hext
  · exact ⟨_, rfl, h.length_eq, fun B => h.not_valid_of_outside hout⟩
  · have hlow := hext.2
    rw [Params.lowPrefix, if_neg (by rw [hext.1]; exact DictDirective.noConfusion)] at hlow
    obtain ⟨j, hj, hpost, -⟩ := extDictMatch_spec h hext.1 (h.offset_le hF hout) (by omega)
    exact ⟨j, hj, hpost⟩
  · have hoff := h.offset_le_op hF hout hext
    by_cases hpart : F.partialDecoding = .partialDecode ∧ F.oend < s.op + q.matchLength + 12
    · exact blockMatch_partial h hoff hpart
    · exact blockMatch_full h hoff hpart

end Lz4
end Twrp

/-
# `lz4.c`: one pass of the safe loop

A pass of the safe loop reads one sequence or the last literals.  Its labels are taken
from the last to the first, each with what has been read when control gets there: `Behind`
says that the literals are in the output and the cursor is behind them, or behind the
offset as well, and `Head` that the literal length is known.  `safeStep_spec` puts them
together: a pass from a state that is `Ready` never faults and does what `Post` says.
-/

import Twrp.Lz4.Matches

namespace Twrp
namespace Lz4

open Bytes Lz

variable {F : Params} {s₀ s : State} {B : Block} {token length ip op : ℕ} {lits : List UInt8}
  {m m' : Mem}

/-! ### Literals -/

/-- Holding the input behind the output is having copied the literals. -/
theorem hist_of_literals (hm : m.length = F.oend) (hop : op ≤ F.oend) {n : ℕ}
    (h : Holds F (m.take op ++ F.src.drop ip) m' (op + n)) :
    F.hist m' (op + n) = F.hist m op ++ slice F.src ip n := by
  rw [Params.hist, take_of_literals hm hop h, Params.hist, List.append_assoc]

/-- The literals can be copied at once. -/
theorem memmove_literals (hm : m.length = F.oend) (hstart : F.start ≤ op) {n : ℕ}
    (hend : op + n ≤ F.oend) (hip : ip + n ≤ F.iend) :
    ∃ m', memmove F m op (.src ip) n = some m' ∧ m'.length = F.oend ∧
      F.hist m' (op + n) = F.hist m op ++ slice F.src ip n := by
  obtain ⟨m', hcopy, hm'⟩ := (feeds_literals (w := n) hm (by omega) hstart (by omega)).copy
    (holds_literals ip hm (by omega)) le_rfl (by omega)
  exact ⟨m', memmove_of_memcpy hcopy, hm'.length_eq, hist_of_literals hm (by omega) hm'⟩

/-! ### Behind the literals -/

/-- The literals are in the output; the cursor is behind them and behind `x`. -/
structure Behind (F : Params) (s₀ : State) (token : ℕ) (lits x : List UInt8) (s : State) :
    Prop where
  stands : ∃ ip, Head F s₀.ip token lits.length ip ∧ Stands F.src (lits ++ x) ip s.ip
  hist_eq : F.hist s.mem s.op = F.hist s₀.mem s₀.op ++ lits
  op_eq : s.op = s₀.op + lits.length
  ip_lt : s.ip < F.iend
  start_le : F.start ≤ s.op
  op_lt : s.op < F.oend
  room : F.partialDecoding = .decodeFullBlock → s.op + 12 ≤ F.oend
  length_eq : s.mem.length = F.oend

/-- With the match length read, the sequence is known. -/
theorem Behind.atMatch {offset n ip' : ℕ} (hoff : offset < 65536)
    (h : Behind F s₀ token lits (offsetBytes offset) s) (hn : token % 16 = min n 15)
    (hst : Stands F.src (lengthBytes n) s.ip ip') (hip : ip' < F.iend) :
    AtMatch F s₀ ⟨lits, offset, n + 4, hoff, Nat.le_add_left 4 n⟩ { s with ip := ip' } where
  stands := by
    obtain ⟨ip₁, hhead, hlits⟩ := h.stands
    have hrest := hlits.append hst
    have hdrop := hhead.drop_eq
    rw [hrest.2, ← List.append_assoc, ← List.cons_append] at hdrop
    have hall := stands_of_drop hdrop
    have hbytes : tokenByte lits.length (token % 16) :: (lengthBytes lits.length ++
        (lits ++ offsetBytes offset ++ lengthBytes n)) =
        (⟨lits, offset, n + 4, hoff, Nat.le_add_left 4 n⟩ : Sequence).bytes := by
      rw [Sequence.bytes, hn, Nat.add_sub_cancel, List.append_assoc lits]
    rw [hbytes] at hall
    have hip' : s₀.ip + (⟨lits, offset, n + 4, hoff, Nat.le_add_left 4 n⟩ : Sequence).bytes.length
        = ip' := by
      rw [← hbytes, hrest.1, hhead.stands.1, List.length_cons, List.length_append]
      omega
    rwa [hip'] at hall
  hist_eq := h.hist_eq
  op_eq := h.op_eq
  ip_lt := hip
  start_le := h.start_le
  op_lt := h.op_lt
  room := h.room
  length_eq := h.length_eq

/-- Behind the offset, a valid block has its match length, and six more bytes. -/
theorem Behind.valid {offset : ℕ} (h : Behind F s₀ token lits (offsetBytes offset) s)
    (hB : Valid F s₀ B) : ∃ n j, token % 16 = min n 15 ∧ Stands F.src (lengthBytes n) s.ip j ∧
      j + 6 ≤ F.iend := by
  obtain ⟨ip₁, hhead, hlits⟩ := h.stands
  have hdrop := hlits.2
  rcases hB.head hhead with ⟨-, hlen, hlast⟩ | ⟨q, hseqs, hlen, htok, hrest⟩
  · rw [hdrop] at hlast
    have := congrArg List.length hlast
    simp only [List.length_append, length_offsetBytes] at this
    omega
  · rw [hdrop, List.append_assoc] at hrest
    obtain ⟨-, hrest⟩ := List.append_inj hrest hlen.symm
    obtain ⟨-, hrest⟩ := List.append_inj hrest rfl
    have hst := stands_of_drop hrest
    have hlength := congrArg List.length hrest
    rw [List.length_drop, List.length_append] at hlength
    have hsix := hB.restricted.six_le (by rw [hseqs]; exact List.cons_ne_nil _ _)
    refine ⟨q.matchLength - 4, _, htok, hst, ?_⟩
    have hiend : F.iend = F.src.length := rfl
    have := h.ip_lt
    omega

/-- Lengths the input can spell do not take a pointer into the output past the top. -/
theorem not_dstWraps (hA : F.InAddressSpace) (hop : op ≤ F.oend)
    (hlen : length ≤ 255 * F.iend + 20) : F.dstWraps op length = false := by
  have := hA.2
  rw [Params.dstWraps, decide_eq_false_iff_not, Nat.mod_eq_of_lt (by omega)]
  omega

theorem not_srcWraps (hA : F.InAddressSpace) (h : ip + length ≤ F.iend) :
    F.srcWraps ip length = false := by
  have := hA.1
  rw [Params.srcWraps, decide_eq_false_iff_not, Nat.mod_eq_of_lt (by omega)]
  omega

/-- **`_copy_match`.** -/
theorem copyMatchLabel_spec (hF : F.Ok) {offset : ℕ} (hoff : offset < 65536)
    (h : Behind F s₀ token lits (offsetBytes offset) s) :
    ∃ j, copyMatchLabel F offset (token % 16) s = some j ∧ Post F s₀ j := by
  rw [copyMatchLabel]
  have hiend : F.iend = F.src.length := rfl
  split_ifs with h15
  · obtain ⟨ip', r, hread, hsome, hnone⟩ := readVariableLength_spec F.src
      (show (F.iend : ℤ) - 6 ≤ F.src.length by omega) s.ip
    rw [hread]
    cases r with
    | none =>
      refine ⟨_, rfl, h.length_eq, fun B hB => ?_⟩
      obtain ⟨n, j, hn, hst, hj⟩ := h.valid hB
      have := hnone rfl n j (by omega) hst
      omega
    | some l =>
      obtain ⟨hle, hst⟩ := hsome l rfl
      simp only [Option.bind_eq_bind, Option.bind_some]
      rw [h15]
      split_ifs with hwrap
      · refine ⟨_, rfl, h.length_eq, fun B hB => ?_⟩
        have hbound := le_of_stands_lengthBytes hst (by omega)
        rw [not_dstWraps hB.inAddressSpace h.op_lt.le (by omega)] at hwrap
        exact absurd hwrap Bool.false_ne_true
      · have hmatch := h.atMatch hoff (n := 15 + l) (by omega) hst (by omega)
        exact (safeMatchCopy_spec hF hmatch :)
  · have hnil : Stands F.src (lengthBytes (token % 16)) s.ip s.ip := by
      rw [lengthBytes_of_lt (by omega)]
      exact Stands.nil _ _
    have hmatch := h.atMatch hoff (n := token % 16) (by omega) hnil h.ip_lt
    exact (safeMatchCopy_spec hF hmatch :)

theorem readLE16_spec {src : List UInt8} (h : ip + 2 ≤ src.length) :
    ∃ offset < 65536, readLE16 src ip = some offset ∧
      Stands src (offsetBytes offset) ip (ip + 2) := by
  have h0 := List.getElem?_eq_getElem (show ip < src.length by omega)
  have h1 := List.getElem?_eq_getElem (show ip + 1 < src.length by omega)
  have hb := src[ip].toNat_lt
  have hc := src[ip + 1].toNat_lt
  refine ⟨src[ip].toNat + 256 * src[ip + 1].toNat, by omega, ?_, ?_⟩
  · simp only [readLE16, h0, h1, Option.bind_eq_bind, Option.bind_some]
  · rw [offsetBytes_toNat]
    exact stands_cons.2 ⟨h0, stands_singleton.2 ⟨rfl, h1⟩⟩

/-- The offset has been read. -/
theorem Behind.offset {offset : ℕ} (h : Behind F s₀ token lits [] s)
    (hst : Stands F.src (offsetBytes offset) s.ip (s.ip + 2)) (hip : s.ip + 2 < F.iend) :
    Behind F s₀ token lits (offsetBytes offset) { s with ip := s.ip + 2 } where
  stands := by
    obtain ⟨ip₁, hhead, hlits⟩ := h.stands
    rw [List.append_nil] at hlits
    exact ⟨ip₁, hhead, hlits.append hst⟩
  hist_eq := h.hist_eq
  op_eq := h.op_eq
  ip_lt := hip
  start_le := h.start_le
  op_lt := h.op_lt
  room := h.room
  length_eq := h.length_eq

theorem getOffset_spec (hF : F.Ok) (h : Behind F s₀ token lits [] s) (hip : s.ip + 2 < F.iend) :
    ∃ j, getOffset F token s = some j ∧ Post F s₀ j := by
  obtain ⟨offset, hoff, hread, hst⟩ := readLE16_spec hip.le
  simp only [getOffset, hread, Option.bind_eq_bind, Option.bind_some]
  exact copyMatchLabel_spec hF hoff (h.offset hst hip)

/-! ### In front of the literals -/

/-- The literals have been copied. -/
theorem Head.behind (h : Head F s₀.ip token length ip) (hip : ip + length < F.iend)
    (hstart : F.start ≤ s₀.op) (hop : s₀.op + length < F.oend)
    (hroom : F.partialDecoding = .decodeFullBlock → s₀.op + length + 12 ≤ F.oend)
    (hm : m.length = F.oend)
    (hhist : F.hist m (s₀.op + length) = F.hist s₀.mem s₀.op ++ slice F.src ip length) :
    Behind F s₀ token (slice F.src ip length) []
      { ip := ip + length, op := s₀.op + length, mem := m } := by
  have hlen : (slice F.src ip length).length = length := by
    rw [length_slice]
    have : F.iend = F.src.length := rfl
    omega
  refine ⟨⟨ip, by rwa [hlen], ?_⟩, hhist, by rw [hlen], hip,
    hstart.trans (Nat.le_add_right _ _), hop, hroom, hm⟩
  rw [List.append_nil]
  exact stands_slice (by have : F.iend = F.src.length := rfl; omega)

/-- The end of the block, when the decoder has to reach it. -/
theorem safeLiteralCopy_full (hs : Ready F s₀) (h : Head F s₀.ip token length ip)
    (hip : ip ≤ F.iend) (hfull : F.partialDecoding = .decodeFullBlock)
    (hnear : F.oend < s₀.op + length + 12 ∨ F.iend < ip + length + 8) :
    ∃ j, safeLiteralCopy F token length { s₀ with ip } = some j ∧ Post F s₀ j := by
  have hpart : ¬F.partialDecoding = .partialDecode := by
    rw [hfull]
    exact EarlyEnd.noConfusion
  simp only [safeLiteralCopy, if_pos hnear, if_neg hpart]
  split_ifs with herr
  · refine ⟨_, rfl, hs.length_eq, fun B hB => ?_⟩
    rcases hB.head_room h hip with ⟨-, hend, hfits⟩ | ⟨-, hend, hfits⟩
    · have := hfits hfull
      rcases herr with herr | herr <;> omega
    · have := hfits hfull
      omega
  · rw [not_or, not_not, not_lt] at herr
    have hstart := hs.start_le
    obtain ⟨m', hcopy, hm', hhist⟩ := memmove_literals hs.length_eq hs.start_le herr.2
      herr.1.le
    have hlast : slice F.src ip length = F.src.drop ip := by
      have : F.iend = F.src.length := rfl
      exact List.take_of_length_le (by rw [List.length_drop]; omega)
    have hlen : (F.src.drop ip).length = length := by
      have : F.iend = F.src.length := rfl
      rw [List.length_drop]
      omega
    rw [hlast] at hhist
    have hbytes : F.src.drop s₀.ip = Block.lastBytes (F.src.drop ip) (token % 16) := by
      rw [h.drop_eq, Block.lastBytes, hlen]
    simp only [hcopy, Option.bind_eq_bind, Option.bind_some]
    refine ⟨_, rfl, by omega, herr.2, hm', fun _ => ⟨F.src.drop ip, token % 16, by omega, hbytes,
      hhist⟩, fun B hB => ?_⟩
    obtain ⟨hseqs, hl, -⟩ := Block.seqs_of_lastBytes (by omega) (hB.drop.symm.trans hbytes)
    have hop := hs.length_eq
    rw [hhist, Block.expand_of_nil hseqs, hl, List.take_of_length_le]
    rw [List.length_append, length_hist (by omega), hlen]
    omega

/-- The literals close to an end, when the decoder may stop early: as many as there are and
as there is room for. -/
theorem safeLiteralCopy_partial (hF : F.Ok) (hs : Ready F s₀) (h : Head F s₀.ip token length ip)
    (hip : ip ≤ F.iend) (hpart : F.partialDecoding = .partialDecode)
    (hnear : F.oend < s₀.op + length + 12 ∨ F.iend < ip + length + 8) :
    ∃ j, safeLiteralCopy F token length { s₀ with ip } = some j ∧ Post F s₀ j := by
  have hstart := hs.start_le
  have hop := hs.op_le
  have hlen := hs.length_eq
  obtain ⟨l₁, hl1⟩ : ∃ l₁, l₁ = (if ip + length > F.iend then F.iend - ip else length) := ⟨_, rfl⟩
  obtain ⟨l₂, hl2⟩ : ∃ l₂, l₂ = (if s₀.op + l₁ > F.oend then F.oend - s₀.op else l₁) := ⟨_, rfl⟩
  have h1 : l₁ = min length (F.iend - ip) := by
    rw [hl1]
    split_ifs <;> omega
  have h2 : l₂ = min l₁ (F.oend - s₀.op) := by
    rw [hl2]
    split_ifs <;> omega
  obtain ⟨m', hcopy, hm', hhist⟩ := memmove_literals hlen hstart
    (show s₀.op + l₂ ≤ F.oend by omega) (show ip + l₂ ≤ F.iend by omega)
  simp only [safeLiteralCopy, if_pos hnear, if_pos hpart, ← hl1, ← hl2, hcopy,
    Option.bind_eq_bind, Option.bind_some]
  split_ifs with hend
  · refine ⟨_, rfl, by omega, by omega, hm', fun hfull => ?_, fun B hB => ?_⟩
    · rw [hfull] at hpart
      exact EarlyEnd.noConfusion hpart
    -- what has been copied is the beginning of what follows the history
    have hpre : ∀ x, F.src.drop ip = x → length ≤ x.length →
        (l₂ = length ∨ s₀.op + l₂ = F.oend) → F.hist m' (s₀.op + l₂) =
          (F.hist s₀.mem s₀.op ++ x.take length).take (F.dictSize + F.oend) := by
      intro x hx hxl hor
      have hlenh : (F.hist s₀.mem s₀.op).length = F.dictSize + s₀.op := length_hist (by omega)
      rw [hhist, slice, hx, List.take_append, hlenh,
        List.take_of_length_le (l := F.hist s₀.mem s₀.op) (by omega), List.take_take,
        show l₂ = min (F.dictSize + F.oend - (F.dictSize + s₀.op)) length by omega]
    rcases hB.head h with ⟨hseqs, hl, hrest⟩ | ⟨q, hseqs, hl, -, hrest⟩
    · rcases hB.head_room h hip with ⟨-, hfit, -⟩ | ⟨hne, -⟩
      · rw [hpre _ hrest hl.ge (by omega), ← hl, List.take_length, Block.expand_of_nil hseqs]
      · exact absurd hseqs hne
    · rcases hB.head_room h hip with ⟨hnil, -⟩ | ⟨-, hfit, -⟩
      · rw [hseqs] at hnil
        exact absurd hnil (List.cons_ne_nil _ _)
      · have hfill : s₀.op + l₂ = F.oend := by omega
        have hlenh : (F.hist s₀.mem s₀.op).length = F.dictSize + s₀.op := length_hist (by omega)
        have hql := q.length_expand (F.hist s₀.mem s₀.op)
        rw [hpre _ hrest (by rw [List.length_append]; omega) (Or.inr hfill),
          Block.take_expand_of_cons hseqs (by omega), ← hl, List.take_left]
        exact (q.take_expand_literals (by omega)).symm
  · rw [not_or, not_le] at hend
    have hl : l₂ = length := by omega
    rw [hl] at hhist hend ⊢
    exact getOffset_spec hF (h.behind (by omega) hstart (by omega)
      (fun hfull => by rw [hfull] at hpart; exact EarlyEnd.noConfusion hpart) hm' hhist) hend.2

/-- **`safe_literal_copy`.** -/
theorem safeLiteralCopy_spec (hF : F.Ok) (hs : Ready F s₀) (h : Head F s₀.ip token length ip)
    (hip : ip ≤ F.iend) :
    ∃ j, safeLiteralCopy F token length { s₀ with ip } = some j ∧ Post F s₀ j := by
  by_cases hnear : F.oend < s₀.op + length + 12 ∨ F.iend < ip + length + 8
  · cases hd : F.partialDecoding with
    | decodeFullBlock => exact safeLiteralCopy_full hs h hip hd hnear
    | partialDecode => exact safeLiteralCopy_partial hF hs h hip hd hnear
  · have hstart := hs.start_le
    have hop := hs.op_le
    rw [not_or, not_lt, not_lt] at hnear
    obtain ⟨m', hcopy, hm'⟩ := wildCopy8_spec (e := s₀.op + length)
      (feeds_literals (w := 8) hs.length_eq hop hstart hip)
      le_rfl (holds_literals ip hs.length_eq hop) (by omega) (by omega)
    simp only [safeLiteralCopy, if_neg (show ¬(F.oend < s₀.op + length + 12 ∨
      F.iend < ip + length + 8) by omega), hcopy, Option.bind_eq_bind, Option.bind_some]
    exact getOffset_spec hF (h.behind (by omega) hstart (by omega) (fun _ => hnear.1)
      hm'.length_eq (hist_of_literals hs.length_eq hop hm'))
      (show ip + length + 2 < F.iend by omega)

/-- **`safe_literal_copy_early`.** -/
theorem safeLiteralCopyEarly_spec (hF : F.Ok) (hs : Ready F s₀)
    (htok : ∃ b : UInt8, F.src[s₀.ip]? = some b ∧ b.toNat = token) :
    ∃ j, safeLiteralCopyEarly F token (token / 16) { s₀ with ip := s₀.ip + 1 } = some j ∧
      Post F s₀ j := by
  have hiend : F.iend = F.src.length := rfl
  have hlt := hs.ip_lt
  have hbyte : token < 256 := by
    obtain ⟨b, -, rfl⟩ := htok
    exact b.toNat_lt
  rw [safeLiteralCopyEarly]
  split_ifs with h15
  · obtain ⟨ip', r, hread, hsome, hnone⟩ := readVariableLength_spec F.src
      (show (F.iend : ℤ) - 15 ≤ F.src.length by omega) (s₀.ip + 1)
    simp only [hread, Option.bind_eq_bind, Option.bind_some]
    cases r with
    | none =>
      refine ⟨_, rfl, hs.length_eq, fun B hB => ?_⟩
      obtain ⟨L, j, hL, hst, hj⟩ := hB.literals htok
      have := hnone rfl L j (by omega) hst
      omega
    | some l =>
      obtain ⟨hle, hst⟩ := hsome l rfl
      have hhead : Head F s₀.ip token (15 + l) ip' := ⟨htok, by omega, hst⟩
      simp only [h15]
      split_ifs with hdst hsrc
      · refine ⟨_, rfl, hs.length_eq, fun B hB => ?_⟩
        have hbound := le_of_stands_lengthBytes hst (by omega)
        rw [not_dstWraps hB.inAddressSpace hs.op_le (by omega)] at hdst
        exact absurd hdst Bool.false_ne_true
      · refine ⟨_, rfl, hs.length_eq, fun B hB => ?_⟩
        have hroom := hB.head_room hhead (by omega)
        rw [not_srcWraps hB.inAddressSpace (by omega)] at hsrc
        exact absurd hsrc Bool.false_ne_true
      · exact safeLiteralCopy_spec hF hs hhead (by omega)
  · have hnil : Stands F.src (lengthBytes (token / 16)) (s₀.ip + 1) (s₀.ip + 1) := by
      rw [lengthBytes_of_lt (by omega)]
      exact Stands.nil _ _
    exact safeLiteralCopy_spec hF hs ⟨htok, by omega, hnil⟩ (by omega)

/-! ### The shortcut -/

/-- A match of at most 18 bytes copied as 18 bytes, from 8 places back or more. -/
theorem copy18_spec {t : List UInt8} {off : ℕ} (ht : MatchAt t op off F.oend) (h8 : 8 ≤ off)
    (hstart : F.start ≤ op) (hend : op + 18 ≤ F.oend) (hm : Holds F t m op) :
    ∃ m₁ m₂ m₃, memcpy F m op (.out ((op : ℤ) - off)) 8 = some m₁ ∧
      memcpy F m₁ (op + 8) (.out ((op : ℤ) - off + 8)) 8 = some m₂ ∧
      memcpy F m₂ (op + 16) (.out ((op : ℤ) - off + 16)) 2 = some m₃ ∧ Holds F t m₃ (op + 18) := by
  have hf : Feeds F 8 (.out ((op : ℤ) - off)) op F.oend t :=
    ht.feeds (Or.inr (dvd_refl off)) hstart le_rfl le_rfl h8
  obtain ⟨m₁, h1, hm1⟩ := hf.copy hm le_rfl (by omega)
  obtain ⟨m₂, h2, hm2⟩ := (hf.shift 8).copy hm1 le_rfl (by omega)
  obtain ⟨m₃, h3, hm3⟩ := (hf.shift 16).copy (c := 2) hm2 (by omega) (by omega)
  exact ⟨m₁, m₂, m₃, h1, h2, h3, hm3⟩

theorem shortcut_spec (hF : F.Ok) (hs : Ready F s₀)
    (htok : ∃ b : UInt8, F.src[s₀.ip]? = some b ∧ b.toNat = token) (h15 : token / 16 < 15)
    (hip : s₀.ip + 1 + 16 < F.iend) (hop : s₀.op + 32 ≤ F.oend) :
    ∃ j, shortcut F token (token / 16) { s₀ with ip := s₀.ip + 1 } = some j ∧ Post F s₀ j := by
  have hiend : F.iend = F.src.length := rfl
  have hstart := hs.start_le
  have hnil : Stands F.src (lengthBytes (token / 16)) (s₀.ip + 1) (s₀.ip + 1) := by
    rw [lengthBytes_of_lt h15]
    exact Stands.nil _ _
  have hhead : Head F s₀.ip token (token / 16) (s₀.ip + 1) := ⟨htok, by omega, hnil⟩
  obtain ⟨m₁, h1, hm1⟩ := (feeds_literals (w := 16) hs.length_eq hs.op_le hstart
    (show s₀.ip + 1 ≤ F.iend by omega)).copy (holds_literals _ hs.length_eq hs.op_le) le_rfl
    (by omega)
  have hbehind := hhead.behind (m := m₁) (by omega) hstart (by omega) (fun _ => by omega)
    hm1.length_eq (hist_of_literals hs.length_eq hs.op_le (hm1.mono (by omega)))
  obtain ⟨offset, hoff, hread, hst⟩ := readLE16_spec
    (show s₀.ip + 1 + token / 16 + 2 ≤ F.src.length by omega)
  have hbehind := hbehind.offset hst (show s₀.ip + 1 + token / 16 + 2 < F.iend by omega)
  simp only [shortcut, h1, hread, Option.bind_eq_bind, Option.bind_some]
  split_ifs with hshort
  · obtain ⟨hlow, h8, hdict⟩ := hshort
    have hnil' : Stands F.src (lengthBytes (token % 16)) (s₀.ip + 1 + token / 16 + 2)
        (s₀.ip + 1 + token / 16 + 2) := by
      rw [lengthBytes_of_lt (by omega)]
      exact Stands.nil _ _
    have hmatch := hbehind.atMatch hoff (n := token % 16) (by omega) hnil' (by omega)
    have hle : offset ≤ s₀.op + token / 16 := by
      rw [Params.lowPrefix] at hdict
      split_ifs at hdict with h64
      · have := hF.prefix64k h64
        omega
      · rcases hdict with hdict | hdict
        · exact absurd hdict h64
        · omega
    obtain ⟨m₂, m₃, m₄, h2, h3, h4, hm4⟩ := copy18_spec
      (matchAt_target (m := m₁) hle (by omega) hm1.length_eq) h8 (by omega) (by omega)
      (holds_target _ (by omega) hm1.length_eq)
    simp only [h2, h3, h4, Option.bind_some]
    have hmin : min (token % 16 + 4) (F.oend - (s₀.op + token / 16)) = token % 16 + 4 :=
      Nat.min_eq_left (by omega)
    refine ⟨_, rfl, hmatch.again (show offset ≤ F.dictSize + (s₀.op + token / 16) by omega)
      (fun _ => show s₀.op + token / 16 + (token % 16 + 4) ≤ F.oend by omega) hm4.length_eq (by
      show _ = s₀.op + token / 16 + min (token % 16 + 4) (F.oend - (s₀.op + token / 16))
      rw [hmin]) fun _ => ?_⟩
    show F.hist m₄ (s₀.op + token / 16 + (token % 16 + 4)) =
      copyMatch (F.hist m₁ (s₀.op + token / 16)) offset
        (min (token % 16 + 4) (F.oend - (s₀.op + token / 16)))
    rw [hmin]
    exact hist_of_holds hle (by omega) hm1.length_eq (hm4.mono (by omega))
  · exact copyMatchLabel_spec hF hoff hbehind

/-- **One pass of the safe loop** never faults, reads a sequence or the last literals, and
fails on no valid block. -/
theorem safeStep_spec (hF : F.Ok) (hs : Ready F s₀) :
    ∃ j, safeStep F s₀ = some j ∧ Post F s₀ j := by
  obtain ⟨b, hb⟩ : ∃ b, F.src[s₀.ip]? = some b := ⟨_, List.getElem?_eq_getElem hs.ip_lt⟩
  simp only [safeStep, hb, Option.map_some, Option.bind_eq_bind, Option.bind_some]
  split_ifs with hshort
  · have := b.toNat_lt
    exact shortcut_spec hF hs ⟨b, hb, rfl⟩ (by omega) hshort.2.1 hshort.2.2
  · exact safeLiteralCopyEarly_spec hF hs ⟨b, hb, rfl⟩

end Lz4
end Twrp

/-
# `lz4.c`: what the decoder returns

The passes of the two loops are put together here, for every input, every capacity, both
directives and both architectures.

* `decode_safe`: the decoder never reads or writes outside its buffers, never copies with
  `memcpy` between regions that overlap, and returns.
* `decode_sound`: when a full decode does not fail, the input is the bytes of a block, of
  exactly one, whose matches stay inside the history, and `dst` holds what it stands for.
* `decode_valid`: a valid block is decoded, up to the capacity when the decoder may stop
  early.

What the decoder accepts is more than the blocks with the rules for their end, since the
fast loop does not look for them while there is room; and the offset `0`, which is no
back-reference, is accepted and stands for zero bytes (`copyMatch`).
-/

import Twrp.Lz4.FastLoop

namespace Twrp
namespace Lz4

open Bytes Lz

variable {F : Params} {s s' : State} {q : Sequence} {B : Block} {j : Jump} {fuel : ℕ} {mem : Mem}

/-- What the decoder does from a state on: it fails, on no valid block, or it has filled the
output up to `op`. -/
def Outcome (F : Params) (s : State) (r : ℤ × Mem) : Prop :=
  r.2.length = F.oend ∧ ((r.1 < 0 ∧ ∀ B, ¬Valid F s B) ∨
    ∃ op : ℕ, r.1 = (op : ℤ) - F.start ∧ F.start ≤ op ∧ op ≤ F.oend ∧
      (F.partialDecoding = .decodeFullBlock → ∃ B : Block, F.src.drop s.ip = B.bytes ∧
        Block.InRange (F.dictSize + s.op) B.seqs ∧ F.hist r.2 op = B.expand (F.hist s.mem s.op)) ∧
      ∀ B, Valid F s B →
        F.hist r.2 op = (B.expand (F.hist s.mem s.op)).take (F.dictSize + F.oend))

/-! ### From one sequence to the next -/

/-- How far the output has come behind a sequence. -/
theorem op_of_hist (hs : Ready F s) (hs' : Ready F s')
    (hhist : F.hist s'.mem s'.op = (q.expand (F.hist s.mem s.op)).take (F.dictSize + F.oend)) :
    s'.op = min (s.op + q.literals.length + q.matchLength) F.oend := by
  have hop := hs.op_le
  have hop' := hs'.op_le
  have hlen := congrArg List.length hhist
  rw [List.length_take, Sequence.length_expand, length_hist (by rw [hs'.length_eq]; exact hop'),
    length_hist (by rw [hs.length_eq]; exact hop)] at hlen
  omega

/-- The rest of a valid block is valid behind its first sequence. -/
theorem Valid.tail (hB : Valid F s B) (hs : Ready F s) (hs' : Ready F s')
    (hst : Stands F.src q.bytes s.ip s'.ip) (hhist : F.hist s'.mem s'.op =
      (q.expand (F.hist s.mem s.op)).take (F.dictSize + F.oend)) :
    Valid F s' B.tail := by
  obtain ⟨hseqs, hdrop⟩ := Block.seqs_of_bytes (hB.drop.symm.trans hst.2)
  have hop := op_of_hist hs hs' hhist
  have hle := hs.op_le
  have hfits := hB.fits
  rw [Block.size, hseqs, Block.span] at hfits
  refine ⟨hdrop, fun p hp => hB.positive p (List.mem_of_mem_tail hp), ?_, hB.restricted.tail,
    fun hfull => ?_, hB.inAddressSpace⟩
  · have hrange := hB.inRange
    rw [hseqs] at hrange
    rcases hrange with ⟨hpart, hend⟩ | ⟨-, hrest⟩
    · exact Or.inl ⟨hpart, by omega⟩
    · rcases Nat.le_total (s.op + q.literals.length + q.matchLength) F.oend with hfit | hfit
      · rw [Nat.min_eq_left hfit] at hop
        rw [hop, ← Nat.add_assoc, ← Nat.add_assoc]
        exact Or.inr hrest
      · cases hd : F.partialDecoding with
        | partialDecode => exact Or.inl ⟨rfl, by omega⟩
        | decodeFullBlock =>
          have := hfits hd
          rw [hop, show min (s.op + q.literals.length + q.matchLength) F.oend =
            s.op + q.literals.length + q.matchLength by omega, ← Nat.add_assoc, ← Nat.add_assoc]
          exact Or.inr hrest
  · have := hfits hfull
    have hlast : B.tail.last = B.last := rfl
    rw [Block.size, hlast]
    omega

/-- Cutting off what does not fit can be done once, at the end. -/
theorem expand_tail (hseqs : B.seqs = q :: B.tail.seqs) {h h' : List UInt8} {n : ℕ}
    (hh : h' = (q.expand h).take n) : (B.tail.expand h').take n = (B.expand h).take n := by
  rw [Block.expand_of_cons hseqs]
  rcases Nat.le_total n (q.expand h).length with hn | hn
  · have hlen : h'.length = n := by
      rw [hh, List.length_take, Nat.min_eq_left hn]
    rw [Block.take_expand _ hlen.ge, Block.take_expand _ hn, hh, List.take_take, Nat.min_self]
  · rw [hh, List.take_of_length_le hn]

/-- **What happens behind a sequence happens in front of it.** -/
theorem Outcome.cons (hs : Ready F s) {r : ℤ × Mem} (hpost : Post F s (.again s'))
    (h : Outcome F s' r) : Outcome F s r := by
  obtain ⟨hs', -, q, hst, hreach, hfull, hhist⟩ := hpost
  obtain ⟨hlen, hr⟩ := h
  have hpos : ∀ {B}, Valid F s B → q.offset ≠ 0 ∧ B.seqs = q :: B.tail.seqs := by
    intro B hB
    have hseqs := (Block.seqs_of_bytes (hB.drop.symm.trans hst.2)).1
    have := hB.positive q (by rw [hseqs]; exact List.mem_cons_self ..)
    exact ⟨by omega, hseqs⟩
  refine ⟨hlen, ?_⟩
  rcases hr with ⟨hneg, hnot⟩ | ⟨op, hop, hstart, hend, hsound, hvalid⟩
  · exact Or.inl ⟨hneg, fun B hB => hnot B.tail
      (hB.tail hs hs' hst (hhist fun _ => (hpos hB).1))⟩
  · refine Or.inr ⟨op, hop, hstart, hend, fun hd => ?_, fun B hB => ?_⟩
    · have hhist' := hhist fun hp => by
        rw [hd] at hp
        exact EarlyEnd.noConfusion hp
      have hop' := op_of_hist hs hs' hhist'
      have hfit := hfull hd
      have hle : (q.expand (F.hist s.mem s.op)).length ≤ F.dictSize + F.oend := by
        have := hs.op_le
        rw [Sequence.length_expand, length_hist (by rw [hs.length_eq]; exact this)]
        omega
      rw [List.take_of_length_le hle] at hhist'
      obtain ⟨B, hdrop, hrange, hB⟩ := hsound hd
      refine ⟨B.cons q, by rw [Block.bytes_cons, hst.2, hdrop], ⟨hreach, ?_⟩, ?_⟩
      · rw [hop', Nat.min_eq_left hfit, ← Nat.add_assoc, ← Nat.add_assoc] at hrange
        exact hrange
      · rw [hB, hhist', Block.expand_of_cons (B := B.cons q) rfl]
        rfl
    · have hhist' := hhist fun _ => (hpos hB).1
      rw [hvalid _ (hB.tail hs hs' hst hhist'), expand_tail (hpos hB).2 hhist']

/-- A pass that ends the decoder. -/
theorem Outcome.of_done {op : ℕ} (h : Post F s (.done op mem)) :
    Outcome F s ((op : ℤ) - F.start, mem) := by
  obtain ⟨hstart, hend, hlen, hsound, hvalid⟩ := h
  refine ⟨hlen, Or.inr ⟨op, rfl, hstart, hend, fun hd => ?_, hvalid⟩⟩
  obtain ⟨last, low, hlow, hdrop, hhist⟩ := hsound hd
  exact ⟨⟨[], last, low, hlow⟩, hdrop, trivial, hhist⟩

theorem Outcome.of_error {ip : ℕ} (h : Post F s (.outputError ip mem)) :
    Outcome F s (-(ip : ℤ) - 1, mem) :=
  ⟨h.1, Or.inl ⟨by omega, h.2⟩⟩

/-! ### The loops -/

theorem safeLoop_spec (hF : F.Ok) (hs : Ready F s) (hfuel : F.iend < s.ip + fuel) :
    ∃ r, safeLoop F fuel s = some r ∧ Outcome F s r := by
  induction fuel generalizing s with
  | zero => exact absurd hs.ip_lt (by omega)
  | succ fuel ih =>
    obtain ⟨j, hj, hpost⟩ := safeStep_spec hF hs
    rw [safeLoop, hj, Option.bind_some]
    cases j with
    | again s' =>
      have hlt : s.ip < s'.ip := hpost.2.1
      obtain ⟨r, hr, hout⟩ := ih hpost.1 (by omega)
      exact ⟨r, hr, hout.cons hs hpost⟩
    | done op mem => exact ⟨_, rfl, .of_done hpost⟩
    | outputError ip mem => exact ⟨_, rfl, .of_error hpost⟩

theorem goOn_spec (hF : F.Ok) (hs : Ready F s) (hpost : Post F s j)
    (hfuel : F.iend < s.ip + 1 + fuel) : ∃ r, goOn F fuel j = some r ∧ Outcome F s r := by
  cases j with
  | again s' =>
    have hlt : s.ip < s'.ip := hpost.2.1
    obtain ⟨r, hr, hout⟩ := safeLoop_spec hF hpost.1 (show F.iend < s'.ip + fuel by omega)
    exact ⟨r, hr, hout.cons hs hpost⟩
  | done op mem => exact ⟨_, rfl, .of_done hpost⟩
  | outputError ip mem => exact ⟨_, rfl, .of_error hpost⟩

theorem fastLoop_spec (hF : F.Ok) (hs : Ready F s) (hroom : s.op + 64 ≤ F.oend)
    (hfuel : F.iend < s.ip + fuel) : ∃ r, fastLoop F fuel s = some r ∧ Outcome F s r := by
  induction fuel generalizing s with
  | zero => exact absurd hs.ip_lt (by omega)
  | succ fuel ih =>
    obtain ⟨j, hj, hpost⟩ := fastStep_spec hF hs hroom
    rw [fastLoop, hj, Option.bind_some]
    cases j with
    | again s' =>
      obtain ⟨hpost, hroom'⟩ := hpost
      have hlt : s.ip < s'.ip := hpost.2.1
      obtain ⟨r, hr, hout⟩ := ih hpost.1 hroom' (by omega)
      exact ⟨r, hr, hout.cons hs hpost⟩
    | leave j => exact goOn_spec hF hs hpost (by omega)

/-! ### The whole decoder -/

/-- The state the decoder starts from. -/
def entry (F : Params) (mem : Mem) : State := ⟨0, F.start, mem⟩

/-- With room in `dst` and an input, the decoder is one of the two loops. -/
theorem decode_spec (hF : F.Ok) (hm : mem.length = F.oend) (hsize : F.outputSize ≠ 0)
    (hsrc : F.src ≠ []) : ∃ r, decode F mem = some r ∧ Outcome F (entry F mem) r := by
  have hlen : F.src.length ≠ 0 := fun h => hsrc (List.length_eq_zero_iff.1 h)
  have hoend : F.oend = F.start + F.outputSize := rfl
  have hs : Ready F (entry F mem) :=
    ⟨Nat.pos_of_ne_zero hlen, le_rfl, by show F.start ≤ F.oend; omega, hm⟩
  have hfuel : F.iend < (entry F mem).ip + (F.src.length + 1) := by
    show F.src.length < 0 + (F.src.length + 1)
    omega
  simp only [decode, if_neg hsize, if_neg hlen]
  split_ifs with hsmall
  · exact safeLoop_spec hF hs hfuel
  · exact fastLoop_spec hF hs (show F.start + 64 ≤ F.oend by omega) hfuel

/-- **The decoder is safe and terminates,** whatever the input: no read outside `src`, the
dictionary, the prefix and `dst`, no write outside `dst` or in front of what it has been given,
no `memcpy` between places that overlap without being the same, and a value that is an error or
at most the capacity. -/
theorem decode_safe (hF : F.Ok) (hm : mem.length = F.oend) :
    ∃ n mem', decode F mem = some (n, mem') ∧ mem'.length = F.oend ∧ n ≤ F.outputSize := by
  by_cases hsize : F.outputSize = 0
  · simp only [decode, if_pos hsize]
    split_ifs <;> exact ⟨_, _, rfl, hm, by omega⟩
  · by_cases hsrc : F.src = []
    · simp only [decode, if_neg hsize, hsrc, List.length_nil, if_true]
      exact ⟨_, _, rfl, hm, by omega⟩
    · obtain ⟨⟨n, mem'⟩, hr, hlen, hout⟩ := decode_spec hF hm hsize hsrc
      have hoend : F.oend = F.start + F.outputSize := rfl
      refine ⟨n, mem', hr, hlen, ?_⟩
      rcases hout with ⟨hneg, -⟩ | ⟨op, hop, -, hend, -⟩
      · have : n < 0 := hneg
        omega
      · have : n = (op : ℤ) - F.start := hop
        omega

/-- **`LZ4_decompress_generic` is safe,** with arguments that it refuses, too. -/
theorem decompressGeneric_safe (src : Option (List UInt8)) (outputSize : ℤ) (hF : F.Ok)
    (hm : mem.length = F.start + outputSize.toNat) :
    ∃ n mem', decompressGeneric src outputSize F mem = some (n, mem') ∧
      mem'.length = mem.length ∧ n ≤ outputSize.toNat ∧ (src = none ∨ outputSize < 0 → n = -1) := by
  have hrefused : ∃ n mem', some ((-1 : ℤ), mem) = some (n, mem') ∧ mem'.length = mem.length ∧
      n ≤ outputSize.toNat ∧ (src = none ∨ outputSize < 0 → n = -1) :=
    ⟨-1, mem, rfl, rfl, by omega, fun _ => rfl⟩
  cases src with
  | none => exact hrefused
  | some src =>
    rw [decompressGeneric]
    by_cases hneg : outputSize < 0
    · rwa [if_pos hneg]
    · rw [if_neg hneg]
      obtain ⟨n, mem', hdec, hlen, hle⟩ := decode_safe (F := { F with
        src, outputSize := outputSize.toNat }) ⟨hF.prefix64k, hF.noDictionary⟩ hm
      exact ⟨n, mem', hdec, hlen.trans hm.symm, hle,
        fun h => absurd h (not_or_intro (Option.some_ne_none src) hneg)⟩

/-- A block for 28 bytes: one literal repeated twenty-two times, and five literals. -/
def runBlock : Params where
  src := [0x1F, 97, 1, 0, 3, 0x50, 98, 99, 100, 101, 102]
  dictionary := []
  start := 0
  outputSize := 28
  partialDecoding := .decodeFullBlock
  dict := .noDict
  aarch64 := false
  srcAddr := 0
  dstAddr := 0

theorem runBlock_ok : runBlock.Ok := ⟨nofun, fun _ => rfl⟩

/-- The hypotheses are satisfiable: a buffer of the right size is all the caller provides. -/
theorem decode_safe_runBlock : ∃ n mem', decode runBlock (zeros 28) = some (n, mem') ∧
    mem'.length = runBlock.oend ∧ n ≤ runBlock.outputSize :=
  decode_safe runBlock_ok rfl

/-- **What the decoder accepts.**  When a full decode does not fail, the input is the bytes
of one block and of no other, its matches stay inside the dictionary, the prefix and the
output, and the output is what the block stands for. -/
theorem decode_sound (hF : F.Ok) (hm : mem.length = F.oend)
    (hfull : F.partialDecoding = .decodeFullBlock) {n : ℤ} {mem' : Mem}
    (h : decode F mem = some (n, mem')) (hn : 0 ≤ n) :
    ∃! B : Block, F.src = B.bytes ∧ Block.InRange (F.dictSize + F.start) B.seqs ∧
      F.hist mem' (F.start + n.toNat) = B.expand (F.hist mem F.start) := by
  suffices hex : ∃ B : Block, F.src = B.bytes ∧ Block.InRange (F.dictSize + F.start) B.seqs ∧
      F.hist mem' (F.start + n.toNat) = B.expand (F.hist mem F.start) by
    obtain ⟨B, hB⟩ := hex
    exact ⟨B, hB, fun C hC => Block.bytes_injective (hC.1.symm.trans hB.1)⟩
  have hpart : ¬F.partialDecoding = .partialDecode := by
    rw [hfull]
    exact EarlyEnd.noConfusion
  by_cases hsize : F.outputSize = 0
  · simp only [decode, if_pos hsize, if_neg hpart, Option.some.injEq, Prod.mk.injEq] at h
    obtain ⟨hval, rfl⟩ := h
    split_ifs at hval with hzero
    · obtain ⟨b, hsrc⟩ := List.length_eq_one_iff.1 hzero.1
      have hb : b = 0 := by
        have := hzero.2
        rw [hsrc, List.getElem?_cons_zero] at this
        exact Option.some.inj this
      refine ⟨⟨[], [], 0, by omega⟩, by rw [hsrc, hb]; rfl, trivial, ?_⟩
      rw [← hval, Block.expand_of_nil rfl, List.append_nil]
      rfl
    · omega
  · by_cases hsrc : F.src = []
    · simp only [decode, if_neg hsize, hsrc, List.length_nil, if_true, Option.some.injEq,
        Prod.mk.injEq] at h
      omega
    · obtain ⟨r, hr, -, hout⟩ := decode_spec hF hm hsize hsrc
      obtain rfl := Option.some.inj (hr.symm.trans h)
      rcases hout with ⟨hneg, -⟩ | ⟨op, hop, hstart, -, hsound, -⟩
      · exact absurd hn (Int.not_le.2 hneg)
      · obtain ⟨B, hdrop, hrange, hhist⟩ := hsound hfull
        have hop' : n = (op : ℤ) - F.start := hop
        rw [show F.start + n.toNat = op by omega]
        exact ⟨B, hdrop, hrange, hhist⟩

/-- The hypotheses are satisfiable: `runBlock` is decoded. -/
theorem decode_sound_runBlock : ∃! B : Block, runBlock.src = B.bytes ∧
    Block.InRange (runBlock.dictSize + runBlock.start) B.seqs ∧
    runBlock.hist (List.replicate 23 97 ++ [98, 99, 100, 101, 102]) (0 + (28 : ℤ).toNat) =
      B.expand (runBlock.hist (zeros 28) 0) :=
  decode_sound runBlock_ok rfl rfl (show decode runBlock (zeros 28) = some (28, _) from rfl)
    (by decide)

/-- What makes a block acceptable to the decoder behind the history `dictionary ++ prefix`. -/
structure Acceptable (F : Params) (B : Block) : Prop where
  src_eq : F.src = B.bytes
  positive : B.Positive
  inRange : Block.InRange (F.dictSize + F.start) B.seqs
  restricted : B.EndRestricted
  /-- Only a decoder without any room looks at the unused half of the last token. -/
  low : F.outputSize = 0 → B.low = 0
  inAddressSpace : F.InAddressSpace

/-- **A valid block is decoded.**  The decoder returns how much the block adds, or the
capacity when it may stop early and the block does not fit, and `dst` holds as much of it. -/
theorem decode_valid (hF : F.Ok) (hm : mem.length = F.oend) (hB : Acceptable F B)
    (hfits : F.partialDecoding = .decodeFullBlock → B.size ≤ F.outputSize) :
    ∃ mem', decode F mem = some (((min B.size F.outputSize : ℕ) : ℤ), mem') ∧
      mem'.length = F.oend ∧ F.hist mem' (F.start + min B.size F.outputSize) =
        (B.expand (F.hist mem F.start)).take (F.dictSize + F.oend) := by
  have hoend : F.oend = F.start + F.outputSize := rfl
  have hhist : (F.hist mem F.start).length = F.dictSize + F.start := length_hist (by omega)
  by_cases hsize : F.outputSize = 0
  · have htake : (B.expand (F.hist mem F.start)).take (F.dictSize + F.oend) =
        F.hist mem F.start := by
      rw [hoend, hsize, Nat.add_zero, ← hhist, Block.take_expand _ le_rfl, List.take_length]
    rw [htake, hsize, Nat.min_zero]
    simp only [decode, if_pos hsize]
    by_cases hpart : F.partialDecoding = .partialDecode
    · exact ⟨mem, by rw [if_pos hpart]; rfl, hm, rfl⟩
    · have hfull : F.partialDecoding = .decodeFullBlock := by
        cases hd : F.partialDecoding with
        | decodeFullBlock => rfl
        | partialDecode => exact absurd hd hpart
      have hzero := hfits hfull
      rw [Block.size] at hzero
      have hseqs : B.seqs = [] := by
        cases hseqs : B.seqs with
        | nil => rfl
        | cons q ss =>
          have := q.min_match
          rw [hseqs, Block.span] at hzero
          omega
      have hlast : B.last = [] := List.length_eq_zero_iff.1 (by omega)
      have hsrc : F.src = [0] := by
        rw [hB.src_eq, Block.bytes_of_nil hseqs, hlast, hB.low hsize]
        rfl
      refine ⟨mem, ?_, hm, rfl⟩
      rw [if_neg hpart, hsrc]
      rfl
  · have hsrc : F.src ≠ [] := by
      rw [hB.src_eq]
      exact B.bytes_ne_nil
    have hvalid : Valid F (entry F mem) B :=
      ⟨hB.src_eq, hB.positive, Or.inr hB.inRange, hB.restricted, fun hfull => by
        have := hfits hfull
        show F.start + B.size ≤ F.oend
        omega, hB.inAddressSpace⟩
    obtain ⟨⟨n, mem'⟩, hr, hlen, hout⟩ := decode_spec hF hm hsize hsrc
    rcases hout with ⟨-, hnot⟩ | ⟨op, hop, hstart, hend, -, hval⟩
    · exact absurd hvalid (hnot B)
    · have hcontent : F.hist mem' op =
          (B.expand (F.hist mem F.start)).take (F.dictSize + F.oend) := hval B hvalid
      have hlen' := congrArg List.length hcontent
      have hmem : mem'.length = F.oend := hlen
      rw [length_hist (by omega), List.length_take, Block.length_expand, hhist] at hlen'
      have hopmin : op = F.start + min B.size F.outputSize := by
        omega
      refine ⟨mem', ?_, hmem, ?_⟩
      · rw [hr]
        have : n = (op : ℤ) - F.start := hop
        congr 2
        omega
      · rw [← hopmin]
        exact hcontent

/-! ### Stopping early -/

/-- The same call with room for `c` bytes, that may stop there. -/
def Params.upTo (F : Params) (c : ℕ) : Params :=
  { F with outputSize := c, partialDecoding := .partialDecode }

/-- What the decoder leaves in `dst`, up to any place it has filled. -/
theorem take_of_hist {m : Mem} {op k : ℕ} {h : List UInt8} {n : ℕ} (hk : k ≤ op) (hn : op ≤ n)
    (hhist : F.hist m op = h.take (F.dictSize + n)) :
    F.dictionary ++ m.take k = h.take (F.dictSize + k) := by
  have := congrArg (List.take (F.dictSize + k)) hhist
  rw [Params.hist, List.take_take, Nat.min_eq_left (by omega)] at this
  rw [← this, Params.dictSize, List.take_length_add_append, List.take_take, Nat.min_eq_left hk]

/-- **A partial decode is the beginning of the full one.**  A valid block that fits is
decoded to its end; decoded into a smaller buffer with leave to stop early, it fills the
buffer and leaves there the bytes the full decode begins with. -/
theorem decode_upTo (hF : F.Ok) (hm : mem.length = F.oend) (hB : Acceptable F B)
    (hfits : B.size ≤ F.outputSize) {c : ℕ} (hc : c ≤ F.outputSize) :
    ∃ mem₁ mem₂, decode F mem = some ((B.size : ℤ), mem₁) ∧
      decode (F.upTo c) (mem.take (F.start + c)) = some (((min B.size c : ℕ) : ℤ), mem₂) ∧
      mem₂.take (F.start + min B.size c) = mem₁.take (F.start + min B.size c) := by
  have hoend : F.oend = F.start + F.outputSize := rfl
  have hoendG : (F.upTo c).oend = F.start + c := rfl
  obtain ⟨mem₁, h₁, -, hhist₁⟩ := decode_valid hF hm hB fun _ => hfits
  rw [Nat.min_eq_left hfits] at h₁ hhist₁
  have htake : (mem.take (F.start + c)).length = (F.upTo c).oend := by
    rw [hoendG, List.length_take]
    omega
  have hstart : (mem.take (F.start + c)).take F.start = mem.take F.start := by
    rw [List.take_take, Nat.min_eq_left (Nat.le_add_right _ _)]
  suffices h : ∃ mem₂, decode (F.upTo c) (mem.take (F.start + c)) =
      some (((min B.size c : ℕ) : ℤ), mem₂) ∧ (F.upTo c).hist mem₂ (F.start + min B.size c) =
        (B.expand (F.hist mem F.start)).take ((F.upTo c).dictSize + (F.start + c)) by
    obtain ⟨mem₂, h₂, hhist₂⟩ := h
    have e₁ := take_of_hist (show F.start + min B.size c ≤ F.start + B.size by omega)
      (show F.start + B.size ≤ F.oend by omega) hhist₁
    have e₂ := take_of_hist le_rfl (show F.start + min B.size c ≤ F.start + c by omega) hhist₂
    exact ⟨mem₁, mem₂, h₁, h₂, List.append_cancel_left (e₂.trans e₁.symm)⟩
  rcases Nat.eq_zero_or_pos c with rfl | hpos
  · refine ⟨mem.take F.start, by rw [Nat.min_zero]; rfl, ?_⟩
    have hlen : (F.hist mem F.start).length = F.dictSize + F.start := length_hist (by omega)
    show F.dictionary ++ (mem.take F.start).take (F.start + min B.size 0) =
      (B.expand (F.hist mem F.start)).take (F.dictSize + F.start)
    rw [Nat.min_zero, Nat.add_zero, List.take_take, Nat.min_self, Block.take_expand B hlen.ge,
      List.take_of_length_le hlen.le, Params.hist]
  · have hBG : Acceptable (F.upTo c) B := by
      obtain ⟨h1, h2⟩ := hB.inAddressSpace
      refine ⟨hB.src_eq, hB.positive, hB.inRange, hB.restricted, fun h0 => absurd h0 hpos.ne', h1,
        ?_⟩
      show F.dstAddr + (F.start + c) + 255 * F.iend + 20 < 2 ^ 64
      omega
    obtain ⟨mem₂, h₂, -, hhist₂⟩ := decode_valid (F := F.upTo c) ⟨hF.prefix64k, hF.noDictionary⟩
      htake hBG (fun h => EarlyEnd.noConfusion h)
    refine ⟨mem₂, h₂, ?_⟩
    rwa [show (F.upTo c).hist (mem.take (F.start + c)) (F.upTo c).start = F.hist mem F.start from
      congrArg (F.dictionary ++ ·) hstart] at hhist₂

/-- The hypotheses are satisfiable: ten of the twenty-eight bytes of `runBlock`. -/
theorem decode_upTo_runBlock : ∃ mem₁ mem₂, decode runBlock (zeros 28) = some (28, mem₁) ∧
    decode (runBlock.upTo 10) ((zeros 28).take (0 + 10)) = some (10, mem₂) ∧
    mem₂.take (0 + 10) = mem₁.take (0 + 10) :=
  decode_upTo (B := ⟨[⟨[97], 1, 22, by omega, by omega⟩], [98, 99, 100, 101, 102], 0, by omega⟩)
    runBlock_ok rfl
    { src_eq := rfl
      positive := by
        rintro s (_ | ⟨_, h⟩)
        · exact Nat.one_pos
        · cases h
      inRange := ⟨by decide, trivial⟩
      restricted := by
        rintro s ⟨⟩
        exact ⟨by decide, by decide⟩
      low := fun _ => rfl
      inAddressSpace := ⟨by decide, by decide⟩ }
    (by decide) (show 10 ≤ 28 by omega)

end Lz4
end Twrp

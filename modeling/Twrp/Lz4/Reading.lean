/-
# `lz4.c`: what the decoder has read

Between two sequences the decoder knows where the next one starts and how far the output
has come.  `Ready` is what holds there, `Params.hist` the output with what matches may
reach back into in front of it, and `Post` what one sequence does: it is read whole and
adds what it stands for, up to the end of `dst`; or the block ends; or there is an error.

An error is no statement about the bytes alone, as the decoder also insists on the rules
for the end of a block.  `Valid` collects what makes a block acceptable from a state on,
and `Post` says that neither an error nor a wrong end can happen while it holds.  What is
read of a token is compared with the block through `Valid.head`.
-/

import Twrp.Lz.Block
import Twrp.Lz4.Decompress

namespace Twrp
namespace Lz4

open Bytes Lz

/-- What the callers promise: 64 KB of prefix where they say so (one byte less will do, as
offsets have 16 bits), and a dictionary only where the directive tells of one. -/
structure Params.Ok (F : Params) : Prop where
  prefix64k : F.dict = .withPrefix64k → 65535 ≤ F.start
  noDictionary : F.dict ≠ .usingExtDict → F.dictionary = []

/-- Adding a length the input can spell to a pointer does not pass the top of memory. -/
def Params.InAddressSpace (F : Params) : Prop :=
  F.srcAddr + F.iend < 2 ^ 64 ∧ F.dstAddr + F.oend + 255 * F.iend + 20 < 2 ^ 64

/-- The dictionary, the prefix and the output up to `op`. -/
def Params.hist (F : Params) (m : Mem) (op : ℕ) : List UInt8 := F.dictionary ++ m.take op

theorem length_hist {F : Params} {m : Mem} {op : ℕ} (h : op ≤ m.length) :
    (F.hist m op).length = F.dictSize + op := by
  rw [Params.hist, List.length_append, List.length_take, Nat.min_eq_left h]
  rfl

/-- What holds at the head of both loops. -/
structure Ready (F : Params) (s : State) : Prop where
  ip_lt : s.ip < F.iend
  start_le : F.start ≤ s.op
  op_le : s.op ≤ F.oend
  length_eq : s.mem.length = F.oend

/-- From the state on, the input is the block `B`, and nothing is wrong with it: its matches
reach back to bytes that are there, it keeps the rules for its end and, unless the decoder
is to stop early, it fits.  A decoder that has filled `dst` does not look at the matches. -/
structure Valid (F : Params) (s : State) (B : Block) : Prop where
  drop : F.src.drop s.ip = B.bytes
  positive : B.Positive
  inRange : F.partialDecoding = .partialDecode ∧ s.op = F.oend ∨
    Block.InRange (F.dictSize + s.op) B.seqs
  restricted : B.EndRestricted
  fits : F.partialDecoding = .decodeFullBlock →
    s.op + B.size ≤ F.oend
  inAddressSpace : F.InAddressSpace

/-- What a pass of the safe loop does, from the state `s₀` at its head. -/
def Post (F : Params) (s₀ : State) : Jump → Prop
  | .again s => Ready F s ∧ s₀.ip < s.ip ∧ ∃ q : Sequence,
      Stands F.src q.bytes s₀.ip s.ip ∧
      q.offset ≤ F.dictSize + s₀.op + q.literals.length ∧
      (F.partialDecoding = .decodeFullBlock →
        s₀.op + q.literals.length + q.matchLength ≤ F.oend) ∧
      ((F.partialDecoding = .partialDecode → q.offset ≠ 0) →
        F.hist s.mem s.op = (q.expand (F.hist s₀.mem s₀.op)).take (F.dictSize + F.oend))
  | .done op mem => F.start ≤ op ∧ op ≤ F.oend ∧ mem.length = F.oend ∧
      (F.partialDecoding = .decodeFullBlock → ∃ last low, low < 16 ∧
        F.src.drop s₀.ip = Block.lastBytes last low ∧
        F.hist mem op = F.hist s₀.mem s₀.op ++ last) ∧
      ∀ B, Valid F s₀ B →
        F.hist mem op = (B.expand (F.hist s₀.mem s₀.op)).take (F.dictSize + F.oend)
  | .outputError _ mem => mem.length = F.oend ∧ ∀ B, ¬Valid F s₀ B

variable {F : Params} {s₀ s : State} {B : Block}

/-! ### Reading a length -/

theorem readRun_spec {src : List UInt8} {ilimit : ℤ} (hlim : ilimit ≤ src.length) (fuel ip : ℕ)
    (hfuel : src.length < ip + fuel) (hpos : 0 < fuel) (length : ℕ) :
    ∃ ip' r, readRun src ilimit fuel ip length = some (ip', r) ∧
      (∀ l, r = some l → ∃ (k : ℕ) (b : UInt8), b ≠ 255 ∧ (ip' : ℤ) ≤ ilimit ∧
        Stands src (List.replicate k 255 ++ [b]) ip ip' ∧ l = length + 255 * k + b.toNat) ∧
      (r = none → ∀ (k : ℕ) (b : UInt8) (j : ℕ), b ≠ 255 →
        Stands src (List.replicate k 255 ++ [b]) ip j → ilimit < j) := by
  induction fuel generalizing ip length with
  | zero => exact absurd hpos (Nat.lt_irrefl 0)
  | succ fuel ih =>
    rw [readRun]
    by_cases hip : ilimit ≤ ip
    · refine ⟨ip, none, if_pos hip, fun l hl => absurd hl (by simp), fun _ k b j _ hj => ?_⟩
      have := hj.1
      rw [List.length_append, List.length_replicate, List.length_singleton] at this
      omega
    · have hlt : ip < src.length := by omega
      have hget := List.getElem?_eq_getElem hlt
      rw [if_neg hip, hget, Option.bind_some]
      by_cases h255 : src[ip] = 255
      · rw [if_pos h255]
        rw [h255] at hget
        obtain ⟨ip', r, hr, hsome, hnone⟩ := ih (ip + 1) (by omega) (by omega)
          (length + src[ip].toNat)
        refine ⟨ip', r, hr, fun l hl => ?_, fun hl k b j hb hj => ?_⟩
        · obtain ⟨k, b, hb, hle, hst, hsum⟩ := hsome l hl
          refine ⟨k + 1, b, hb, hle, ?_, ?_⟩
          · rw [List.replicate_succ, List.cons_append]
            exact stands_cons.2 ⟨hget, hst⟩
          · rw [hsum, h255, show (255 : UInt8).toNat = 255 from rfl]
            omega
        · cases k with
          | zero =>
            have := (stands_cons.1 hj).1
            rw [hget] at this
            exact absurd (Option.some.inj this).symm hb
          | succ k =>
            rw [List.replicate_succ, List.cons_append] at hj
            exact hnone hl k b j hb (stands_cons.1 hj).2
      · rw [if_neg h255]
        refine ⟨ip + 1, _, rfl, fun l hl => ?_, fun hl => absurd hl (by simp)⟩
        refine ⟨0, src[ip], h255, by omega, stands_singleton.2 ⟨rfl, hget⟩, ?_⟩
        rw [← Option.some.inj hl]
        omega

/-- **`read_variable_length`** reads a length of `15` or more that ends in front of the
limit, and fails on no other. -/
theorem readVariableLength_spec (src : List UInt8) {ilimit : ℤ} (hlim : ilimit ≤ src.length)
    (ip : ℕ) : ∃ ip' r, readVariableLength src ip ilimit = some (ip', r) ∧
      (∀ l, r = some l → (ip' : ℤ) ≤ ilimit ∧ Stands src (lengthBytes (15 + l)) ip ip') ∧
      (r = none → ∀ n j, 15 ≤ n → Stands src (lengthBytes n) ip j → ilimit < j) := by
  obtain ⟨ip', r, hr, hsome, hnone⟩ := readRun_spec hlim (src.length + 1) ip
    (by omega) (Nat.succ_pos _) 0
  refine ⟨ip', r, hr, fun l hl => ?_, fun hl n j hn hj => ?_⟩
  · obtain ⟨k, b, hb, hle, hst, rfl⟩ := hsome l hl
    refine ⟨hle, ?_⟩
    have hb' : b.toNat < 255 := by
      have := b.toNat_lt
      have hne : b.toNat ≠ 255 := fun h => hb (UInt8.toNat_inj.1 h)
      omega
    rw [lengthBytes_of_le (by omega), show (15 + (0 + 255 * k + b.toNat) - 15) / 255 = k by omega,
      show (15 + (0 + 255 * k + b.toNat) - 15) % 255 = b.toNat by omega, UInt8.ofNat_toNat]
    exact hst
  · rw [lengthBytes_of_le hn] at hj
    exact hnone hl _ _ j (ofNat_mod_ne _) hj

/-- A length that can be spelt in front of the end of the input is at most `255` times as
large. -/
theorem le_of_stands_lengthBytes {src : List UInt8} {n i j : ℕ}
    (h : Stands src (lengthBytes n) i j) (hj : j ≤ src.length) : n ≤ 255 * src.length + 14 := by
  have := h.1
  rw [length_lengthBytes] at this
  split_ifs at this <;> omega

/-! ### The head of a sequence -/

/-- The token and the literal length have been read, and the cursor is behind them. -/
structure Head (F : Params) (i token length ip : ℕ) : Prop where
  token_eq : ∃ b : UInt8, F.src[i]? = some b ∧ b.toNat = token
  length_eq : token / 16 = min length 15
  stands : Stands F.src (lengthBytes length) (i + 1) ip

theorem Head.drop_eq {i token length ip : ℕ} (h : Head F i token length ip) :
    F.src.drop i = tokenByte length (token % 16) :: (lengthBytes length ++ F.src.drop ip) := by
  obtain ⟨b, hb, rfl⟩ := h.token_eq
  have hst : Stands F.src (b :: lengthBytes length) i ip := stands_cons.2 ⟨hb, h.stands⟩
  have htok : b = tokenByte length (b.toNat % 16) := by
    refine UInt8.toNat_inj.1 ?_
    rw [toNat_tokenByte (by omega), ← h.length_eq]
    omega
  rw [drop_of_stands hst, ← htok, List.cons_append]

/-- **What stands behind the head of a valid block:** the last literals, up to the end of
the input, or the literals of the first sequence and the rest of the block. -/
theorem Valid.head {token length ip : ℕ} (hB : Valid F s₀ B) (h : Head F s₀.ip token length ip) :
    (B.seqs = [] ∧ B.last.length = length ∧ F.src.drop ip = B.last) ∨
    ∃ q, B.seqs = q :: B.tail.seqs ∧ q.literals.length = length ∧
      token % 16 = min (q.matchLength - 4) 15 ∧
      F.src.drop ip = q.literals ++ (offsetBytes q.offset ++
        (lengthBytes (q.matchLength - 4) ++ B.tail.bytes)) := by
  have hdrop := hB.drop
  rw [h.drop_eq] at hdrop
  cases hseqs : B.seqs with
  | nil =>
    rw [Block.bytes_of_nil hseqs, Block.lastBytes] at hdrop
    obtain ⟨hlen, -, hrest⟩ := head_inj (by omega) B.low_lt hdrop
    exact Or.inl ⟨rfl, hlen.symm, hrest⟩
  | cons q ss =>
    rw [Block.bytes_of_cons hseqs, Sequence.bytes, List.cons_append, List.append_assoc,
      List.append_assoc, List.append_assoc] at hdrop
    obtain ⟨hlen, hlow, hrest⟩ := head_inj (by omega) (by omega) hdrop
    exact Or.inr ⟨q, by rw [Block.tail, hseqs, List.tail_cons], hlen.symm, hlow, hrest⟩

/-- The literal length of a valid block is spelt out, and as many bytes follow. -/
theorem Valid.literals {token : ℕ} (hB : Valid F s₀ B)
    (htok : ∃ b : UInt8, F.src[s₀.ip]? = some b ∧ b.toNat = token) :
    ∃ L j, token / 16 = min L 15 ∧ Stands F.src (lengthBytes L) (s₀.ip + 1) j ∧
      j + L ≤ F.iend := by
  obtain ⟨b, hb, rfl⟩ := htok
  obtain ⟨l, low, x, hlow, hx, hbytes⟩ : ∃ l low x, low < 16 ∧ l ≤ x.length ∧
      B.bytes = tokenByte l low :: (lengthBytes l ++ x) := by
    cases hseqs : B.seqs with
    | nil => exact ⟨_, _, _, B.low_lt, le_rfl, Block.bytes_of_nil hseqs⟩
    | cons q ss =>
      rw [Block.bytes_of_cons hseqs, Sequence.bytes, List.cons_append, List.append_assoc]
      exact ⟨_, _, _, by omega, by simp only [List.length_append]; omega, rfl⟩
  have hst := stands_cons.1 (stands_of_drop (x := tokenByte l low :: lengthBytes l)
    (hB.drop.trans hbytes))
  have hdrop := hst.2.2
  have htoken : b = tokenByte l low := Option.some.inj (hb.symm.trans hst.1)
  refine ⟨l, _, by rw [htoken, tokenByte_div hlow], hst.2, ?_⟩
  have hall := congrArg List.length (hB.drop.trans hbytes)
  simp only [List.length_drop, List.length_cons, List.length_append] at hall ⊢
  have hiend : F.iend = F.src.length := rfl
  omega

/-- How much input and output follow the literal length of a valid block. -/
theorem Valid.head_room {token length ip : ℕ} (hB : Valid F s₀ B)
    (h : Head F s₀.ip token length ip) (hip : ip ≤ F.iend) :
    (B.seqs = [] ∧ ip + length = F.iend ∧ (F.partialDecoding = .decodeFullBlock →
      s₀.op + length ≤ F.oend)) ∨
    (B.seqs ≠ [] ∧ ip + length + 8 ≤ F.iend ∧ (F.partialDecoding = .decodeFullBlock →
      s₀.op + length + 12 ≤ F.oend)) := by
  have hfits := hB.fits
  have hiend : F.iend = F.src.length := rfl
  rcases hB.head h with ⟨hseqs, hlen, hrest⟩ | ⟨q, hseqs, hlen, -, hrest⟩
  · refine Or.inl ⟨hseqs, ?_, fun hfull => ?_⟩
    · have := congrArg List.length hrest
      rw [List.length_drop] at this
      omega
    · have := hfits hfull
      rw [Block.size, hseqs, Block.span] at this
      omega
  · have hne : B.seqs ≠ [] := by
      rw [hseqs]
      exact List.cons_ne_nil _ _
    refine Or.inr ⟨hne, ?_, fun hfull => ?_⟩
    · have := congrArg List.length hrest
      have hsix := hB.restricted.six_le hne
      simp only [List.length_drop, List.length_append, length_offsetBytes] at this
      omega
    · have := hfits hfull
      have hroom := hB.restricted.room hseqs
      omega

end Lz4
end Twrp

/-
# What an encoder keeps

An encoder goes through its input and emits sequences; between two of them it knows how far
the sequences it has emitted reach.  `Encodes u b n seqs` says that behind the first `b`
elements of `u`, a history both sides have, the sequences stand for what `u` goes on with
up to `n`.  It holds of no sequences, and a sequence whose match has been compared keeps it
(`Encodes.snoc`), however the match was found; with the elements that are left as literals
it is a block for the input (`Encodes.expand`).

No block is much longer than what it stands for: a sequence takes at most `256/255` of what
it adds, whatever its lengths (`Sequence.length_bytes_le`), and the last literals two bytes
more than that (`Block.length_bytes_le`).
-/

import Twrp.Lz.Block

namespace Lz

open Bytes

variable {u : List UInt8} {b n p off ml : ℕ} {seqs : List Sequence}

/-! ### One sequence more -/

namespace Block

/-- A sequence at the end adds its literals and its match. -/
theorem span_concat (s : Sequence) :
    span (seqs ++ [s]) = span seqs + s.literals.length + s.matchLength := by
  induction seqs with
  | nil => simp only [List.nil_append, span, Nat.add_zero, Nat.zero_add]
  | cons t ts ih =>
    rw [List.cons_append, span, ih, span]
    omega

/-- Only the last sequence has to be looked at, when the others are in range. -/
theorem inRange_concat (s : Sequence) :
    InRange b (seqs ++ [s]) ↔ InRange b seqs ∧ s.offset ≤ b + span seqs + s.literals.length := by
  induction seqs generalizing b with
  | nil => simp only [List.nil_append, InRange, span, Nat.add_zero, and_true, true_and]
  | cons t ts ih =>
    rw [List.cons_append, InRange, ih, InRange, span, and_assoc]
    have : b + (t.literals.length + t.matchLength + span ts) =
        b + t.literals.length + t.matchLength + span ts := by omega
    rw [this]

end Block

/-- Behind the first `b` elements of `u` the sequences stand for the next ones, up to `n`. -/
structure Encodes (u : List UInt8) (b n : ℕ) (seqs : List Sequence) : Prop where
  expand_eq : seqs.foldl Sequence.expand (u.take b) = u.take n
  inRange : Block.InRange b seqs
  positive : ∀ s ∈ seqs, 0 < s.offset
  eq_add : n = b + Block.span seqs
  le_length : n ≤ u.length

namespace Encodes

/-- It holds of no sequences. -/
theorem nil (h : b ≤ u.length) : Encodes u b b [] :=
  ⟨rfl, trivial, fun _ hs => absurd hs List.not_mem_nil, rfl, h⟩

/-- **A compared match keeps it,** with all that stands between as literals. -/
theorem snoc (h : Encodes u b n seqs) (hp : n ≤ p) (hpos : 0 < off) (hoff : off ≤ p)
    (hlt : off < 65536) (hml : 4 ≤ ml) (hend : p + ml ≤ u.length)
    (hmatch : ∀ j, p ≤ j → j < p + ml → u[j]? = u[j - off]?) :
    Encodes u b (p + ml) (seqs ++ [⟨slice u n (p - n), off, ml, hlt, hml⟩]) := by
  have hlits : (slice u n (p - n)).length = p - n := by
    rw [length_slice]
    omega
  have heq := h.eq_add
  refine ⟨?_, ?_, ?_, ?_, hend⟩
  · rw [List.foldl_concat, h.expand_eq, Sequence.expand, slice, ← List.take_add,
      Nat.add_sub_cancel' hp, copyMatch_take hpos hoff hend hmatch]
  · rw [Block.inRange_concat]
    refine ⟨h.inRange, ?_⟩
    show off ≤ b + Block.span seqs + (slice u n (p - n)).length
    rw [hlits]
    omega
  · intro s hs
    rcases List.mem_append.1 hs with hs | hs
    · exact h.positive s hs
    · rw [List.mem_singleton.1 hs]
      exact hpos
  · rw [Block.span_concat, hlits]
    show p + ml = b + (Block.span seqs + (p - n) + ml)
    omega

/-- **With the rest as literals it is a block** for as much of the input as that. -/
theorem expand (h : Encodes u b n seqs) (k : ℕ) {low : ℕ} (hlow : low < 16) :
    Block.expand (u.take b) ⟨seqs, slice u n k, low, hlow⟩ = u.take (n + k) := by
  rw [Block.expand, h.expand_eq, slice, ← List.take_add]

end Encodes

/-- What an encoder makes of `x`: the bytes of a block that keeps the rules, without history. -/
def BlockFor (out x : List UInt8) : Prop :=
  ∃ B : Block, out = B.bytes ∧ B.Positive ∧ Block.InRange 0 B.seqs ∧ B.EndRestricted ∧ B.low = 0 ∧
    B.expand [] = x

/-- The sequences of an encoder and the `k` bytes behind them. -/
theorem Encodes.blockFor (h : Encodes u 0 n seqs) {k : ℕ}
    (hend : ∀ s ∈ seqs.getLast?, 5 ≤ k ∧ 12 ≤ s.matchLength + k) (hk : n + k ≤ u.length) :
    BlockFor (seqs.flatMap Sequence.bytes ++ Block.lastBytes (slice u n k) 0) (u.take (n + k)) := by
  have hlen : (slice u n k).length = k := by
    rw [length_slice]
    omega
  refine ⟨⟨seqs, slice u n k, 0, by omega⟩, rfl, h.positive, h.inRange, fun s hs => ?_, rfl,
    h.expand k (by omega)⟩
  rw [hlen]
  exact hend s hs

/-! ### How long the bytes are -/

/-- How many bytes continue a length, without a distinction of cases. -/
theorem length_lengthBytes_eq (n : ℕ) : (lengthBytes n).length = (n + 240) / 255 := by
  rw [length_lengthBytes]
  split_ifs <;> omega

/-- How many bytes a sequence takes: three, the literals and what continues the lengths. -/
theorem Sequence.length_bytes (s : Sequence) :
    s.bytes.length = 3 + s.literals.length + (s.literals.length + 240) / 255 +
      (s.matchLength - 4 + 240) / 255 := by
  simp only [Sequence.bytes, List.length_cons, List.length_append, length_lengthBytes_eq,
    length_offsetBytes]
  omega

/-- A sequence takes at most `256/255` of what it adds. -/
theorem Sequence.length_bytes_le (s : Sequence) :
    255 * s.bytes.length ≤ 256 * (s.literals.length + s.matchLength) := by
  have := s.min_match
  rw [s.length_bytes]
  omega

/-- So do sequences one after the other. -/
theorem length_flatMap_bytes_le (seqs : List Sequence) :
    255 * (seqs.flatMap Sequence.bytes).length ≤ 256 * Block.span seqs := by
  induction seqs with
  | nil => exact Nat.zero_le _
  | cons s ss ih =>
    have := s.length_bytes_le
    rw [List.flatMap_cons, List.length_append, Block.span]
    omega

/-- How many bytes the last literals take, with their token. -/
theorem Block.length_lastBytes (last : List UInt8) (low : ℕ) :
    (lastBytes last low).length = 1 + last.length + (last.length + 240) / 255 := by
  rw [lastBytes, List.length_cons, List.length_append, length_lengthBytes_eq]
  omega

/-- **No block is much longer than what it stands for.** -/
theorem Block.length_bytes_le (B : Block) : B.bytes.length ≤ B.size + B.size / 255 + 2 := by
  have := length_flatMap_bytes_le B.seqs
  rw [Block.bytes, List.length_append, Block.length_lastBytes, Block.size]
  omega

/-- What an encoder makes is not much longer than its input. -/
theorem BlockFor.length_le {out x : List UInt8} (h : BlockFor out x) :
    out.length ≤ x.length + x.length / 255 + 2 := by
  obtain ⟨B, rfl, -, -, -, -, rfl⟩ := h
  have := B.length_bytes_le
  rw [Block.length_expand, List.length_nil]
  omega

end Lz

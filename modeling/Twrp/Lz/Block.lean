/-
# Byte-aligned blocks of literals and matches

A block is a run of sequences and then the last literals.  A sequence is a token byte,
literals, a two-byte offset and a match; the token holds the two lengths, four bits each,
and a length that does not fit is continued by bytes of `255` and a smaller one:

| part | bytes |
| --- | --- |
| token | `16 · min(literals, 15) + min(match - 4, 15)` |
| literal length | `255 … 255 r` when there are 15 literals or more |
| literals | as they are |
| offset | two bytes, least significant first |
| match length | `255 … 255 r` when the match is 19 long or longer |

The last literals have a token of their own whose low half means nothing.

`Block.expand h` is what the block stands for behind the history `h`: each sequence adds
its literals and copies its match, the last literals follow.  The code is uniquely
decodable (`Block.bytes_injective`): a block is determined by its bytes.  A decoder that
copies past the end of a match wants blocks that end in literals; `EndRestricted` is the
rule encoders keep for it, the last five elements literals and the last match at least
twelve elements before the end.
-/

import Twrp.Lz.Overlap
import Twrp.Bytes.Slice

namespace Lz

open Bytes

/-! ### Pieces of a buffer -/

section Stands

variable {α : Type*} {d x y : List α} {i j k : ℕ}

/-- `x` stands in `d` from `i` up to `j`. -/
def Stands (d x : List α) (i j : ℕ) : Prop := j = i + x.length ∧ d.drop i = x ++ d.drop j

/-- The empty list stands everywhere. -/
theorem Stands.nil (d : List α) (i : ℕ) : Stands d [] i i := ⟨rfl, rfl⟩

/-- What stands in a row stands there as one. -/
theorem Stands.append (hx : Stands d x i j) (hy : Stands d y j k) : Stands d (x ++ y) i k := by
  obtain ⟨rfl, hx⟩ := hx
  obtain ⟨rfl, hy⟩ := hy
  exact ⟨by rw [List.length_append, Nat.add_assoc], by rw [hx, hy, List.append_assoc]⟩

/-- What the rest of the buffer starts with stands where the rest starts. -/
theorem stands_of_drop (h : d.drop i = x ++ y) : Stands d x i (i + x.length) := by
  refine ⟨rfl, ?_⟩
  rw [← List.drop_drop, h, List.drop_left]

/-- What stands somewhere is what the rest of the buffer starts with. -/
theorem drop_of_stands (hx : Stands d x i j) : d.drop i = x ++ d.drop j := hx.2

/-- What stands there as one stands there in a row. -/
theorem stands_append_iff :
    Stands d (x ++ y) i k ↔ ∃ j, Stands d x i j ∧ Stands d y j k := by
  constructor
  · rintro ⟨rfl, h⟩
    rw [List.append_assoc] at h
    have hx := stands_of_drop h
    have hj : i + x.length + y.length = i + (x ++ y).length := by
      rw [List.length_append, Nat.add_assoc]
    refine ⟨i + x.length, hx, hj.symm, ?_⟩
    exact List.append_cancel_left (hx.2.symm.trans h)
  · rintro ⟨j, hx, hy⟩
    exact hx.append hy

/-- One element stands where it is read. -/
theorem stands_singleton {b : α} : Stands d [b] i j ↔ j = i + 1 ∧ d[i]? = some b := by
  constructor
  · rintro ⟨rfl, h⟩
    refine ⟨rfl, ?_⟩
    have := congrArg (·[0]?) h
    simpa only [List.getElem?_drop, Nat.add_zero, List.singleton_append,
      List.getElem?_cons_zero] using this
  · rintro ⟨rfl, h⟩
    obtain ⟨hi, rfl⟩ := List.getElem?_eq_some_iff.1 h
    exact ⟨rfl, List.drop_eq_getElem_cons hi⟩

/-- The first element stands in front of the others. -/
theorem stands_cons {b : α} : Stands d (b :: x) i k ↔ d[i]? = some b ∧ Stands d x (i + 1) k := by
  rw [← List.singleton_append, stands_append_iff]
  constructor
  · rintro ⟨j, hb, hx⟩
    obtain ⟨rfl, hb'⟩ := stands_singleton.1 hb
    exact ⟨hb', hx⟩
  · rintro ⟨hb, hx⟩
    exact ⟨i + 1, stands_singleton.2 ⟨rfl, hb⟩, hx⟩

/-- A slice that lies inside the buffer stands where it was taken. -/
theorem stands_slice {n : ℕ} (h : i + n ≤ d.length) : Stands d (slice d i n) i (i + n) := by
  refine ⟨by rw [length_slice]; omega, ?_⟩
  rw [slice, ← List.drop_drop, List.take_append_drop]

/-- What stands somewhere is the slice that is taken there. -/
theorem Stands.slice_eq (h : Stands d x i j) : slice d i x.length = x := by
  rw [slice, h.2, List.take_left]

/-- What stands in a buffer ends inside it. -/
theorem Stands.le_length (h : Stands d x i j) (hi : i ≤ d.length) : j ≤ d.length := by
  have := congrArg List.length h.2
  rw [List.length_append, List.length_drop, List.length_drop, h.1] at this
  rw [h.1]
  omega

end Stands

/-! ### Lengths -/

/-- A number below `256` fits a byte. -/
theorem toNat_ofNat {n : ℕ} (h : n < 256) : (UInt8.ofNat n).toNat = n :=
  UInt8.toNat_ofNat_of_lt' h

/-- The bytes that continue a length of `15` or more. -/
def lengthBytes (n : ℕ) : List UInt8 :=
  if n < 15 then [] else List.replicate ((n - 15) / 255) 255 ++ [UInt8.ofNat ((n - 15) % 255)]

/-- A length below `15` is held by the token. -/
theorem lengthBytes_of_lt {n : ℕ} (h : n < 15) : lengthBytes n = [] := if_pos h

/-- A longer one: a `255` for each `255` behind the `15` of the token, then the rest. -/
theorem lengthBytes_of_le {n : ℕ} (h : 15 ≤ n) :
    lengthBytes n = List.replicate ((n - 15) / 255) 255 ++ [UInt8.ofNat ((n - 15) % 255)] :=
  if_neg (Nat.not_lt.2 h)

/-- How many bytes continue a length. -/
theorem length_lengthBytes (n : ℕ) :
    (lengthBytes n).length = if n < 15 then 0 else (n - 15) / 255 + 1 := by
  unfold lengthBytes
  split_ifs
  · rfl
  · rw [List.length_append, List.length_replicate, List.length_singleton]

/-- A run of `255`s and a smaller byte is determined by the bytes. -/
theorem replicate_append_inj {q q' : ℕ} {b b' : UInt8} {x x' : List UInt8} (hb : b ≠ 255)
    (hb' : b' ≠ 255)
    (h : List.replicate q 255 ++ b :: x = List.replicate q' 255 ++ b' :: x') :
    q = q' ∧ b = b' ∧ x = x' := by
  induction q generalizing q' with
  | zero =>
    cases q' with
    | zero =>
      obtain ⟨hb, hx⟩ := List.cons.inj h
      exact ⟨rfl, hb, hx⟩
    | succ q' => exact absurd (List.cons.inj h).1 hb
  | succ q ih =>
    cases q' with
    | zero => exact absurd (List.cons.inj h).1.symm hb'
    | succ q' =>
      obtain ⟨rfl, hrest⟩ := ih (List.cons.inj h).2
      exact ⟨rfl, hrest⟩

/-- The byte that ends a length is none of the `255`s in front of it. -/
theorem ofNat_mod_ne (n : ℕ) : UInt8.ofNat (n % 255) ≠ 255 := by
  have hlt : n % 255 < 255 := Nat.mod_lt n (by omega)
  intro heq
  have h255 : n % 255 = 255 := by
    rw [← toNat_ofNat (show n % 255 < 256 by omega), heq]
    rfl
  omega

/-- **Lengths are read unambiguously,** given the four bits of the token. -/
theorem lengthBytes_inj {n m : ℕ} {x y : List UInt8} (hmin : min n 15 = min m 15)
    (h : lengthBytes n ++ x = lengthBytes m ++ y) : n = m ∧ x = y := by
  rcases Nat.lt_or_ge n 15 with hn | hn
  · obtain rfl : n = m := by omega
    exact ⟨rfl, List.append_cancel_left h⟩
  · have hm : 15 ≤ m := by omega
    rw [lengthBytes_of_le hn, lengthBytes_of_le hm, List.append_assoc, List.append_assoc,
      List.singleton_append, List.singleton_append] at h
    obtain ⟨hq, hr, hx⟩ := replicate_append_inj (ofNat_mod_ne _) (ofNat_mod_ne _) h
    have hr' := congrArg UInt8.toNat hr
    rw [toNat_ofNat (by omega),
      toNat_ofNat (by omega)] at hr'
    exact ⟨by omega, hx⟩

/-! ### Tokens and offsets -/

/-- A token: the literal length, as far as four bits hold it, and four bits more. -/
def tokenByte (lits low : ℕ) : UInt8 := UInt8.ofNat (16 * min lits 15 + low)

/-- A token is a byte, its low half the four bits that were given. -/
theorem toNat_tokenByte {lits low : ℕ} (h : low < 16) :
    (tokenByte lits low).toNat = 16 * min lits 15 + low := by
  rw [tokenByte, toNat_ofNat (by omega)]

/-- The high half of a token holds the literal length. -/
theorem tokenByte_div {lits low : ℕ} (h : low < 16) :
    (tokenByte lits low).toNat / 16 = min lits 15 := by
  rw [toNat_tokenByte h]
  omega

/-- The low half of a token holds the four bits more. -/
theorem tokenByte_mod {lits low : ℕ} (h : low < 16) :
    (tokenByte lits low).toNat % 16 = low := by
  rw [toNat_tokenByte h]
  omega

/-- The head of a sequence, or of the last literals, is read unambiguously. -/
theorem head_inj {l l' low low' : ℕ} {x x' : List UInt8} (hlow : low < 16) (hlow' : low' < 16)
    (h : tokenByte l low :: (lengthBytes l ++ x) = tokenByte l' low' :: (lengthBytes l' ++ x')) :
    l = l' ∧ low = low' ∧ x = x' := by
  obtain ⟨htok, hrest⟩ := List.cons.inj h
  have htok := congrArg UInt8.toNat htok
  rw [toNat_tokenByte hlow, toNat_tokenByte hlow'] at htok
  obtain ⟨rfl, rfl⟩ := lengthBytes_inj (by omega) hrest
  exact ⟨rfl, by omega, rfl⟩

/-- An offset, least significant byte first. -/
def offsetBytes (n : ℕ) : List UInt8 := [UInt8.ofNat (n % 256), UInt8.ofNat (n / 256)]

/-- An offset takes two bytes. -/
@[simp] theorem length_offsetBytes (n : ℕ) : (offsetBytes n).length = 2 := rfl

/-- Below `65536` the two bytes denote the offset. -/
theorem toNat_offsetBytes {n : ℕ} (h : n < 65536) :
    (UInt8.ofNat (n % 256)).toNat + 256 * (UInt8.ofNat (n / 256)).toNat = n := by
  rw [toNat_ofNat (by omega),
    toNat_ofNat (by omega)]
  omega

/-- Two bytes are the offset they denote. -/
theorem offsetBytes_toNat (b c : UInt8) : offsetBytes (b.toNat + 256 * c.toNat) = [b, c] := by
  have hb := b.toNat_lt
  rw [offsetBytes, show (b.toNat + 256 * c.toNat) % 256 = b.toNat by omega,
    show (b.toNat + 256 * c.toNat) / 256 = c.toNat by omega, UInt8.ofNat_toNat, UInt8.ofNat_toNat]

/-- Below `65536` an offset is determined by its bytes. -/
theorem offsetBytes_inj {n m : ℕ} (hn : n < 65536) (hm : m < 65536)
    (h : offsetBytes n = offsetBytes m) : n = m := by
  simp only [offsetBytes, List.cons.injEq, and_true] at h
  rw [← toNat_offsetBytes hn, h.1, h.2, toNat_offsetBytes hm]

/-! ### Sequences -/

/-- Literals and a match: `matchLength` elements from `offset` places back. -/
@[ext] structure Sequence where
  literals : List UInt8
  offset : ℕ
  matchLength : ℕ
  offset_lt : offset < 65536
  min_match : 4 ≤ matchLength

namespace Sequence

/-- The bytes of a sequence. -/
def bytes (s : Sequence) : List UInt8 :=
  tokenByte s.literals.length (min (s.matchLength - 4) 15) ::
    (lengthBytes s.literals.length ++
      (s.literals ++ (offsetBytes s.offset ++ lengthBytes (s.matchLength - 4))))

/-- The history with the sequence behind it. -/
def expand (h : List UInt8) (s : Sequence) : List UInt8 :=
  copyMatch (h ++ s.literals) s.offset s.matchLength

/-- A sequence adds its literals and its match. -/
@[simp] theorem length_expand (h : List UInt8) (s : Sequence) :
    (s.expand h).length = h.length + s.literals.length + s.matchLength := by
  rw [expand, length_copyMatch, List.length_append]

/-- Behind the history come the literals. -/
theorem take_expand_literals (s : Sequence) {h : List UInt8} {n : ℕ}
    (hn : n ≤ h.length + s.literals.length) :
    (s.expand h).take n = (h ++ s.literals).take n := by
  have hcopy := take_copyMatch (h ++ s.literals) s.offset (Nat.zero_le s.matchLength)
  rw [Nat.add_zero, copyMatch_zero, List.length_append] at hcopy
  calc (s.expand h).take n
      = ((s.expand h).take (h.length + s.literals.length)).take n := by
        rw [List.take_take, Nat.min_eq_left hn]
    _ = (h ++ s.literals).take n := by rw [expand, hcopy]

/-- A sequence only adds to the history. -/
theorem take_expand (s : Sequence) {h : List UInt8} {n : ℕ} (hn : n ≤ h.length) :
    (s.expand h).take n = h.take n := by
  rw [take_expand_literals s (by omega), List.take_append_of_le_length hn]

/-- **A sequence is determined by its bytes,** whatever follows them. -/
theorem bytes_append_inj {s t : Sequence} {x y : List UInt8}
    (h : s.bytes ++ x = t.bytes ++ y) : s = t ∧ x = y := by
  simp only [bytes, List.cons_append, List.append_assoc] at h
  obtain ⟨hlits, hlow, h⟩ := head_inj (by omega) (by omega) h
  obtain ⟨hl, h⟩ := List.append_inj h hlits
  obtain ⟨hoff, h⟩ := List.append_inj h rfl
  obtain ⟨hml, hxy⟩ := lengthBytes_inj hlow h
  have hoff := offsetBytes_inj s.offset_lt t.offset_lt hoff
  have hm := s.min_match
  have hm' := t.min_match
  exact ⟨Sequence.ext hl hoff (by omega), hxy⟩

end Sequence

/-! ### Blocks -/

/-- Sequences and last literals; `low` is the half of the last token that means nothing. -/
@[ext] structure Block where
  seqs : List Sequence
  last : List UInt8
  low : ℕ
  low_lt : low < 16

namespace Block

/-- The token and the bytes of the last literals. -/
def lastBytes (last : List UInt8) (low : ℕ) : List UInt8 :=
  tokenByte last.length low :: (lengthBytes last.length ++ last)

/-- The bytes of a block. -/
def bytes (B : Block) : List UInt8 := B.seqs.flatMap Sequence.bytes ++ lastBytes B.last B.low

/-- What the block stands for, behind the history `h`. -/
def expand (h : List UInt8) (B : Block) : List UInt8 := B.seqs.foldl Sequence.expand h ++ B.last

/-- The block without its first sequence. -/
def tail (B : Block) : Block := ⟨B.seqs.tail, B.last, B.low, B.low_lt⟩

/-- The block with a sequence in front. -/
def cons (s : Sequence) (B : Block) : Block := ⟨s :: B.seqs, B.last, B.low, B.low_lt⟩

/-- A block without sequences is its last literals. -/
theorem bytes_of_nil {B : Block} (h : B.seqs = []) : B.bytes = lastBytes B.last B.low := by
  rw [bytes, h, List.flatMap_nil, List.nil_append]

/-- A block is its first sequence and the block without it. -/
theorem bytes_of_cons {B : Block} {s : Sequence} {ss : List Sequence} (h : B.seqs = s :: ss) :
    B.bytes = s.bytes ++ B.tail.bytes := by
  rw [bytes, h, List.flatMap_cons, List.append_assoc, bytes, tail, h, List.tail_cons]

/-- A sequence put in front of a block stands in front of its bytes. -/
theorem bytes_cons (s : Sequence) (B : Block) : (cons s B).bytes = s.bytes ++ B.bytes :=
  bytes_of_cons (B := cons s B) rfl

/-- Without sequences, the last literals are added to the history. -/
theorem expand_of_nil {B : Block} (h : B.seqs = []) (l : List UInt8) :
    B.expand l = l ++ B.last := by
  rw [expand, h, List.foldl_nil]

/-- The first sequence makes the history of the others. -/
theorem expand_of_cons {B : Block} {s : Sequence} {ss : List Sequence} (h : B.seqs = s :: ss)
    (l : List UInt8) : B.expand l = B.tail.expand (s.expand l) := by
  rw [expand, h, List.foldl_cons, expand, tail, h, List.tail_cons]

/-- A block has at least the token of its last literals. -/
theorem bytes_ne_nil (B : Block) : B.bytes ≠ [] := by
  rw [bytes, lastBytes]
  exact List.append_ne_nil_of_right_ne_nil _ (List.cons_ne_nil _ _)

/-- The last literals are determined by their bytes, the end of the buffer. -/
theorem lastBytes_inj {l l' : List UInt8} {low low' : ℕ} (hlow : low < 16) (hlow' : low' < 16)
    (h : lastBytes l low = lastBytes l' low') : l = l' ∧ low = low' := by
  obtain ⟨-, hlow, hl⟩ := head_inj hlow hlow' h
  exact ⟨hl, hlow⟩

/-- A sequence is no run of last literals: its own literals would reach the end. -/
theorem lastBytes_ne {l : List UInt8} {low : ℕ} (hlow : low < 16) (s : Sequence)
    (x : List UInt8) : lastBytes l low ≠ s.bytes ++ x := by
  intro h
  rw [lastBytes, ← List.append_nil l, Sequence.bytes, List.cons_append, List.append_assoc,
    List.append_nil] at h
  obtain ⟨hlen, -, heq⟩ := head_inj hlow (by omega) h
  have := congrArg List.length heq
  simp only [List.length_append, length_offsetBytes, hlen] at this
  omega

/-- What stands at the front of a block: its first sequence, if a sequence stands there. -/
theorem seqs_of_bytes {B : Block} {s : Sequence} {x : List UInt8} (h : B.bytes = s.bytes ++ x) :
    B.seqs = s :: B.tail.seqs ∧ x = B.tail.bytes := by
  cases hB : B.seqs with
  | nil =>
    rw [bytes_of_nil hB] at h
    exact absurd h (lastBytes_ne B.low_lt s x)
  | cons t ts =>
    rw [bytes_of_cons hB] at h
    obtain ⟨rfl, hx⟩ := Sequence.bytes_append_inj h
    exact ⟨by rw [tail, hB, List.tail_cons], hx.symm⟩

/-- The last literals, if they stand there. -/
theorem seqs_of_lastBytes {B : Block} {l : List UInt8} {low : ℕ} (hlow : low < 16)
    (h : B.bytes = lastBytes l low) : B.seqs = [] ∧ B.last = l ∧ B.low = low := by
  cases hB : B.seqs with
  | nil =>
    rw [bytes_of_nil hB] at h
    obtain ⟨hl, hlow⟩ := lastBytes_inj B.low_lt hlow h
    exact ⟨rfl, hl, hlow⟩
  | cons t ts =>
    rw [bytes_of_cons hB] at h
    exact absurd h.symm (lastBytes_ne hlow t _)

/-- **A block is determined by its bytes.** -/
theorem bytes_injective : Function.Injective bytes := by
  rintro ⟨ss, l, low, hlow⟩ C h
  induction ss generalizing C with
  | nil =>
    obtain ⟨hseqs, hl, hlow'⟩ := seqs_of_lastBytes hlow h.symm
    exact Block.ext hseqs.symm hl.symm hlow'.symm
  | cons s ss ih =>
    rw [bytes_of_cons (B := ⟨s :: ss, l, low, hlow⟩) rfl] at h
    obtain ⟨hseqs, htail⟩ := seqs_of_bytes h.symm
    have hrest := ih (C := C.tail) htail
    refine Block.ext ?_ (congrArg Block.last hrest :) (congrArg Block.low hrest :)
    rw [hseqs]
    exact congrArg (s :: ·) (congrArg seqs hrest)

/-! ### Blocks that make sense behind a history -/

/-- No match reaches back in front of the `n` elements of history. -/
def InRange : ℕ → List Sequence → Prop
  | _, [] => True
  | n, s :: ss =>
    s.offset ≤ n + s.literals.length ∧ InRange (n + s.literals.length + s.matchLength) ss

/-- Every offset is one: none is `0`. -/
def Positive (B : Block) : Prop := ∀ s ∈ B.seqs, 0 < s.offset

/-- The end of a block: the last five elements are literals, and the last match starts
twelve elements or more before the end. -/
def EndRestricted (B : Block) : Prop :=
  ∀ s ∈ B.seqs.getLast?, 5 ≤ B.last.length ∧ 12 ≤ s.matchLength + B.last.length

/-- The end of a block stays its end without the first sequence. -/
theorem EndRestricted.tail {B : Block} (h : B.EndRestricted) : B.tail.EndRestricted := by
  intro s hs
  refine h s ?_
  rw [Block.tail, List.getLast?_tail] at hs
  split at hs
  · exact absurd hs (Option.not_mem_none s)
  · exact hs

/-- Under the end rule, five literals or more end a block that has sequences. -/
theorem EndRestricted.last {B : Block} (h : B.EndRestricted) (hB : B.seqs ≠ []) :
    5 ≤ B.last.length :=
  (h _ (List.getLast?_eq_some_getLast hB)).1

/-- How many elements the sequences add. -/
def span : List Sequence → ℕ
  | [] => 0
  | s :: ss => s.literals.length + s.matchLength + span ss

/-- How many elements the block adds. -/
def size (B : Block) : ℕ := span B.seqs + B.last.length

/-- Sequences add what they span. -/
theorem length_foldl_expand (ss : List Sequence) (h : List UInt8) :
    (ss.foldl Sequence.expand h).length = h.length + span ss := by
  induction ss generalizing h with
  | nil => rfl
  | cons s ss ih =>
    rw [List.foldl_cons, ih, Sequence.length_expand, span]
    omega

/-- A block adds as many elements as its size says. -/
@[simp] theorem length_expand (B : Block) (h : List UInt8) :
    (B.expand h).length = h.length + B.size := by
  rw [expand, List.length_append, length_foldl_expand, size, Nat.add_assoc]

/-- A block only adds to the history. -/
theorem take_expand (B : Block) {h : List UInt8} {n : ℕ} (hn : n ≤ h.length) :
    (B.expand h).take n = h.take n := by
  have hfold : ∀ (ss : List Sequence) (l : List UInt8), n ≤ l.length →
      (ss.foldl Sequence.expand l).take n = l.take n := by
    intro ss
    induction ss with
    | nil => exact fun l _ => rfl
    | cons s ss ih =>
      intro l hl
      rw [List.foldl_cons, ih _ (by rw [Sequence.length_expand]; omega), s.take_expand hl]
  rw [expand, List.take_append_of_le_length (by rw [length_foldl_expand]; omega),
    hfold B.seqs h hn]

/-- What a block says up to the end of its first sequence, that sequence says. -/
theorem take_expand_of_cons {B : Block} {h : List UInt8} {s : Sequence} {ss : List Sequence}
    {n : ℕ} (hB : B.seqs = s :: ss) (hn : n ≤ (s.expand h).length) :
    (B.expand h).take n = (s.expand h).take n := by
  rw [expand_of_cons hB, take_expand _ hn]

/-- A sequence is no longer than all of them. -/
theorem matchLength_le_span {u : Sequence} {ss : List Sequence} (hu : u ∈ ss) :
    u.literals.length + u.matchLength ≤ span ss := by
  induction hu with
  | head ss => exact Nat.le_add_right _ _
  | tail s _ ih => exact Nat.le_trans ih (Nat.le_add_left _ _)

/-- **Room behind the literals.**  In a block with the end rule, twelve elements or more
follow the literals of every sequence. -/
theorem EndRestricted.room {B : Block} (hend : B.EndRestricted) {s : Sequence}
    {ss : List Sequence} (hB : B.seqs = s :: ss) :
    s.literals.length + 12 ≤ B.size := by
  have hne : B.seqs ≠ [] := by
    rw [hB]
    exact List.cons_ne_nil s ss
  have hu := (hend _ (List.getLast?_eq_some_getLast hne)).2
  have hmem := List.getLast_mem hne
  generalize B.seqs.getLast hne = u at hu hmem
  rw [hB] at hmem
  rw [size, hB, span]
  rcases List.mem_cons.1 hmem with rfl | hmem
  · omega
  · have := matchLength_le_span hmem
    omega

/-- Six bytes or more are left behind every sequence. -/
theorem EndRestricted.six_le {B : Block} (hend : B.EndRestricted) (hB : B.seqs ≠ []) :
    6 ≤ B.tail.bytes.length := by
  have hlast := hend.last hB
  rw [bytes, List.length_append, lastBytes, List.length_cons, List.length_append]
  have : B.tail.last = B.last := rfl
  rw [this]
  omega

end Block

end Lz

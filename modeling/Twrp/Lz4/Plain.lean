/-
# `lz4.c`: `LZ4_decompress_unsafe_generic`

The decoder behind `LZ4_decompress_fast` is not told how long its input is, but how much
there is to come out.  It copies byte by byte, has no fast paths, and keeps to the rules for
the end of a block.  On malformed input it reads past the end; here that is a fault.

`decompressUnsafe_iff` says exactly which inputs it accepts: those that begin with a block
of the size asked for that keeps the end rules.  `decode_of_decompressUnsafe` compares the two
decoders: what the plain one accepts the optimised one accepts, with the same bytes in the
output, as long as no offset is `0`; the two differ there, since the plain one leaves what
was in `dst` and the optimised one writes zeros.
-/

import Twrp.Lz4.Decoded

namespace Twrp
namespace Lz4

open Bytes Lz

/-! ### The source -/

/-- Where a pass of the loop ends: at its head, at the end, or with `return -1`. -/
inductive PlainJump
  | again (s : State)
  | done (s : State)
  | bad (mem : Mem)

/-- The loop of `read_long_length_no_check`, with the bytes summed so far. -/
def readLongLength (src : List UInt8) : ℕ → ℕ → ℕ → Option (ℕ × ℕ)
  | 0, _, _ => none
  | fuel + 1, ip, l =>
    (src[ip]?).bind fun b =>
      if b = 255 then readLongLength src fuel (ip + 1) (l + b.toNat)
      else some (ip + 1, l + b.toNat)

/-- A length of the token, and what continues it. -/
def readLength (src : List UInt8) (n ip : ℕ) : Option (ℕ × ℕ) :=
  if n = 15 then (readLongLength src (src.length + 1) ip 0).map fun r => (r.1, n + r.2)
  else some (ip, n)

/-- The part of a match that is in the dictionary: the output, the cursor, how much is left
to copy and from where. -/
def plainExtMatch (F : Params) (offset ml : ℕ) (s : State) : Option (Mem × ℕ × ℕ × Ptr) :=
  if offset > s.op then
    let extMatch : ℤ := F.dictSize - (offset - s.op)
    let extml := offset - s.op
    if extml > ml then
      (memmove F s.mem s.op (.dict extMatch) ml).map fun mem => (mem, s.op + ml, 0, .out 0)
    else
      (memmove F s.mem s.op (.dict extMatch) extml).map fun mem =>
        (mem, s.op + extml, ml - extml, .out 0)
  else some (s.mem, s.op, ml, .out ((s.op : ℤ) - offset))

/-- The match of a pass. -/
def plainMatch (F : Params) (offset ml : ℕ) (s : State) : Option PlainJump :=
  if F.oend - s.op < ml then some (.bad s.mem)
  else if offset > s.op + F.dictSize then some (.bad s.mem)
  else do
    let (mem, op, ml, p) ← plainExtMatch F offset ml s
    let mem ← copyBytes F ml mem op p
    let op := op + ml
    if F.oend - op < 5 then some (.bad mem) else some (.again { s with op, mem })

/-- One pass of the loop. -/
def plainStep (F : Params) (s : State) : Option PlainJump := do
  let token ← (F.src[s.ip]?).map UInt8.toNat
  let (ip, ll) ← readLength F.src (token / 16) (s.ip + 1)
  if F.oend - s.op < ll then some (.bad s.mem)
  else do
    let mem ← memmove F s.mem s.op (.src ip) ll
    let op := s.op + ll
    let ip := ip + ll
    if F.oend - op < 12 then
      if op = F.oend then some (.done { ip, op, mem }) else some (.bad mem)
    else do
      let offset ← readLE16 F.src ip
      let (ip, ml) ← readLength F.src (token % 16) (ip + 2)
      plainMatch F offset (ml + 4) { ip, op, mem }

/-- The loop, and what it returns: how much of the input has been read, or `-1`. -/
def plainLoop (F : Params) : ℕ → State → Option (ℤ × Mem)
  | 0, _ => none
  | fuel + 1, s =>
    (plainStep F s).bind fun j =>
      match j with
      | .again s => plainLoop F fuel s
      | .done s => some (s.ip, s.mem)
      | .bad mem => some (-1, mem)

/-- `LZ4_decompress_unsafe_generic`, with the prefix and `dst` as one list; of the arguments
in `F` it uses `src`, which may go on behind the block, the dictionary and the sizes. -/
def decompressUnsafe (F : Params) (mem : Mem) : Option (ℤ × Mem) :=
  plainLoop F (F.src.length + 1) (entry F mem)

/-! ### Reading -/

variable {F : Params} {s s' : State} {q : Sequence} {B : Block} {mem : Mem}

/-- `read_long_length_no_check` reads a run of `255`s and a smaller byte. -/
theorem readLongLength_eq (src : List UInt8) (fuel ip l : ℕ) :
    readLongLength src fuel ip l =
      (readRun src src.length fuel ip l).bind fun r => r.2.map fun l => (r.1, l) := by
  induction fuel generalizing ip l with
  | zero => rfl
  | succ fuel ih =>
    rw [readLongLength, readRun]
    rcases Nat.lt_or_ge ip src.length with hip | hip
    · rw [if_neg (by omega), List.getElem?_eq_getElem hip, Option.bind_some, Option.bind_some]
      split_ifs
      · exact ih _ _
      · rfl
    · rw [if_pos (by omega), List.getElem?_eq_none hip]
      rfl

/-- A length is read exactly when it is there. -/
theorem readLength_iff {src : List UInt8} {n ip ip' L : ℕ} (hn : n < 16) (hip : ip ≤ src.length) :
    readLength src n ip = some (ip', L) ↔ n = min L 15 ∧ Stands src (lengthBytes L) ip ip' := by
  have hstands : ∀ {m j}, n = min m 15 → Stands src (lengthBytes m) ip j → n = min L 15 →
      Stands src (lengthBytes L) ip ip' → m = L ∧ j = ip' := by
    intro m j hm hj hL hip'
    obtain ⟨rfl, -⟩ := lengthBytes_inj (hm.symm.trans hL) (hj.2.symm.trans hip'.2)
    exact ⟨rfl, hj.1.trans hip'.1.symm⟩
  rw [readLength]
  split_ifs with h15
  · rw [readLongLength_eq, show readRun src src.length (src.length + 1) ip 0 =
      readVariableLength src ip src.length from rfl]
    obtain ⟨j, r, hread, hsome, hnone⟩ := readVariableLength_spec src
      (show (src.length : ℤ) ≤ src.length from le_rfl) ip
    rw [hread]
    cases r with
    | none =>
      refine ⟨fun h => by simp at h, fun ⟨hL, hst⟩ => ?_⟩
      have := hnone rfl L ip' (by omega) hst
      have := hst.le_length hip
      omega
    | some l =>
      have hst := (hsome l rfl).2
      simp only [Option.bind_some, Option.map_some, Option.some.injEq, Prod.mk.injEq, h15]
      constructor
      · rintro ⟨rfl, rfl⟩
        exact ⟨by omega, hst⟩
      · rintro ⟨hL, hst'⟩
        obtain ⟨hm, hj⟩ := hstands (by omega) hst (by omega) hst'
        exact ⟨hj, hm⟩
  · simp only [Option.some.injEq, Prod.mk.injEq]
    have hnil : Stands src (lengthBytes n) ip ip := by
      rw [lengthBytes_of_lt (by omega)]
      exact Stands.nil _ _
    constructor
    · rintro ⟨rfl, rfl⟩
      exact ⟨by omega, hnil⟩
    · rintro ⟨hL, hst⟩
      obtain ⟨hm, hj⟩ := hstands (by omega) hnil hL hst
      exact ⟨hj, hm⟩

/-- An offset is read where two bytes stand. -/
theorem readLE16_iff {src : List UInt8} {ip offset : ℕ} :
    readLE16 src ip = some offset ↔
      offset < 65536 ∧ Stands src (offsetBytes offset) ip (ip + 2) := by
  constructor
  · intro h
    simp only [readLE16, Option.bind_eq_bind, Option.bind_eq_some_iff, Option.some.injEq] at h
    obtain ⟨b, hb, c, hc, rfl⟩ := h
    have := b.toNat_lt
    have := c.toNat_lt
    refine ⟨by omega, ?_⟩
    rw [offsetBytes_toNat]
    exact stands_cons.2 ⟨hb, stands_singleton.2 ⟨rfl, hc⟩⟩
  · rintro ⟨hoff, hst⟩
    obtain ⟨hb, hst⟩ := stands_cons.1 hst
    obtain ⟨-, hc⟩ := stands_singleton.1 hst
    simp only [readLE16, hb, hc, Option.bind_eq_bind, Option.bind_some, Option.some.injEq]
    exact toNat_offsetBytes hoff

/-! ### The match -/

/-- The copy of a match that fits and is in range. -/
theorem plainCopy_spec (ip offset ml : ℕ) {op : ℕ} (hstart : F.start ≤ op)
    (hm : mem.length = F.oend)
    (hfit : op + ml ≤ F.oend) (hoff : offset ≤ op + F.dictSize) :
    ∃ m₁ op₁ ml₁ p m₂, plainExtMatch F offset ml ⟨ip, op, mem⟩ = some (m₁, op₁, ml₁, p) ∧
      copyBytes F ml₁ m₁ op₁ p = some m₂ ∧ op₁ + ml₁ = op + ml ∧ m₂.length = F.oend ∧
      (offset ≠ 0 → F.hist m₂ (op + ml) = copyMatch (F.hist mem op) offset ml) := by
  simp only [plainExtMatch]
  by_cases hlow : offset > op
  · obtain ⟨t, hhold, hfeed, hfeed', hhist⟩ := ext_target (m := mem) (show op ≤ F.oend by omega) hm
      (show offset ≤ F.dictSize + op by omega) hlow hstart
    have hptr : (F.dictSize : ℤ) - ((offset : ℤ) - op) = (F.dictSize - (offset - op) : ℕ) := by
      omega
    rw [if_pos hlow, hptr]
    by_cases hlong : offset - op > ml
    · obtain ⟨m₁, hcopy, hm1⟩ := (hfeed ml).copy hhold le_rfl (by omega)
      rw [if_pos hlong, memmove_of_memcpy hcopy]
      exact ⟨m₁, op + ml, 0, .out 0, m₁, rfl, rfl, rfl, hm1.length_eq, fun _ =>
        hhist m₁ ml hfit hm1⟩
    · obtain ⟨m₁, hcopy, hm1⟩ := (hfeed (offset - op)).copy hhold le_rfl (by omega)
      rw [show op + (offset - op) = offset by omega] at hm1
      obtain ⟨m₂, hcopy2, hm2⟩ := copyBytes_spec (n := ml - (offset - op)) (hfeed' 1 (by omega))
        le_rfl hm1 (by omega)
      rw [if_neg hlong, memmove_of_memcpy hcopy, show op + (offset - op) = offset by omega]
      refine ⟨m₁, offset, ml - (offset - op), .out 0, m₂, rfl, hcopy2, by omega, hm2.length_eq,
        fun _ => hhist m₂ ml hfit ?_⟩
      rwa [show op + ml = offset + (ml - (offset - op)) by omega]
  · rw [if_neg hlow]
    rcases Nat.eq_zero_or_pos offset with rfl | hpos
    · obtain ⟨m', hcopy, hm'⟩ := copyBytes_self (n := ml) (d := op) (e := F.oend) hstart hfit
        ⟨hm, Agree.refl mem F.oend⟩ hfit
      exact ⟨mem, op, ml, _, m', rfl, by rwa [Int.natCast_zero, Int.sub_zero], rfl, hm'.length_eq,
        fun hne => absurd rfl hne⟩
    · have hle : offset ≤ op := Nat.not_lt.1 hlow
      obtain ⟨m', hcopy, hm'⟩ := copyBytes_spec (n := ml)
        ((matchAt_target (m := mem) hle (by omega) hm).feeds (F := F) (w := 1) (Or.inr (dvd_refl _))
          hstart le_rfl le_rfl hpos) le_rfl (holds_target _ (by omega) hm) hfit
      exact ⟨mem, op, ml, _, m', rfl, hcopy, rfl, hm'.length_eq, fun _ =>
        hist_of_holds hle hfit hm hm'⟩

/-- A match is copied, or it is rejected. -/
theorem plainMatch_spec (ip offset ml : ℕ) {op : ℕ} (hstart : F.start ≤ op) (hop : op ≤ F.oend)
    (hm : mem.length = F.oend) : ∃ m', m'.length = F.oend ∧
      plainMatch F offset ml ⟨ip, op, mem⟩ = some (
        if op + ml + 5 ≤ F.oend ∧ offset ≤ op + F.dictSize then .again ⟨ip, op + ml, m'⟩
        else .bad m') ∧
      (op + ml ≤ F.oend → offset ≤ op + F.dictSize → offset ≠ 0 →
        F.hist m' (op + ml) = copyMatch (F.hist mem op) offset ml) := by
  simp only [plainMatch]
  by_cases hfit : F.oend - op < ml
  · exact ⟨mem, hm, by rw [if_pos hfit, if_neg (by omega)], fun h => absurd hfit (by omega)⟩
  by_cases hfar : offset > op + F.dictSize
  · exact ⟨mem, hm, by rw [if_neg hfit, if_pos hfar, if_neg (by omega)],
      fun _ h => absurd hfar (by omega)⟩
  obtain ⟨m₁, op₁, ml₁, p, m₂, hext, hcopy, hend, hm2, hhist⟩ :=
    plainCopy_spec ip offset ml hstart hm (by omega) (by omega)
  refine ⟨m₂, hm2, ?_, fun _ _ => hhist⟩
  rw [if_neg hfit, if_neg hfar, hext]
  simp only [Option.bind_eq_bind, Option.bind_some, hcopy, hend]
  by_cases hclose : F.oend - (op + ml) < 5
  · rw [if_pos hclose, if_neg (by omega)]
  · rw [if_neg hclose, if_pos (by omega)]

/-! ### The pass -/

/-- What a pass that does not fail has done, from the state `s`. -/
def PlainPost (F : Params) (s : State) : PlainJump → Prop
  | .again s' => F.start ≤ s'.op ∧ s'.mem.length = F.oend ∧ ∃ q : Sequence,
      Stands F.src q.bytes s.ip s'.ip ∧ q.offset ≤ F.dictSize + s.op + q.literals.length ∧
      s.op + q.literals.length + 12 ≤ F.oend ∧
      s'.op = s.op + q.literals.length + q.matchLength ∧ s'.op + 5 ≤ F.oend ∧
      (q.offset ≠ 0 → F.hist s'.mem s'.op = q.expand (F.hist s.mem s.op))
  | .done s' => ∃ l low, low < 16 ∧ Stands F.src (Block.lastBytes l low) s.ip s'.ip ∧
      s'.op = F.oend ∧ F.oend = s.op + l.length ∧ s'.mem.length = F.oend ∧
      F.hist s'.mem s'.op = F.hist s.mem s.op ++ l
  | .bad _ => True

/-- A sequence that has been read stands there. -/
theorem bytes_stands {i i₁ i₂ i₃ i₄ token n offset : ℕ} {lits : List UInt8} (hoff : offset < 65536)
    (hhead : Head F i token lits.length i₁) (hlits : Stands F.src lits i₁ i₂)
    (hoffset : Stands F.src (offsetBytes offset) i₂ i₃) (hn : token % 16 = min n 15)
    (hlen : Stands F.src (lengthBytes n) i₃ i₄) :
    Stands F.src (⟨lits, offset, n + 4, hoff, Nat.le_add_left 4 n⟩ : Sequence).bytes i i₄ := by
  obtain ⟨b, hb, rfl⟩ := hhead.token_eq
  have hrest := hlits.append (hoffset.append hlen)
  have hall := stands_cons.2 ⟨hb, hhead.stands.append hrest⟩
  have htok : b = tokenByte lits.length (b.toNat % 16) := by
    refine UInt8.toNat_inj.1 ?_
    rw [toNat_tokenByte (by omega), ← hhead.length_eq]
    omega
  rw [htok, hn] at hall
  rw [Sequence.bytes, Nat.add_sub_cancel]
  exact hall

/-- So do last literals. -/
theorem lastBytes_stands {i i₁ i₂ token : ℕ} {l : List UInt8}
    (hhead : Head F i token l.length i₁) (hl : Stands F.src l i₁ i₂) :
    Stands F.src (Block.lastBytes l (token % 16)) i i₂ := by
  obtain ⟨b, hb, rfl⟩ := hhead.token_eq
  have hall := stands_cons.2 ⟨hb, hhead.stands.append hl⟩
  have htok : b = tokenByte l.length (b.toNat % 16) := by
    refine UInt8.toNat_inj.1 ?_
    rw [toNat_tokenByte (by omega), ← hhead.length_eq]
    omega
  rw [htok] at hall
  exact hall

/-- A pass with a head and literals that are there. -/
theorem plainStep_eq {ip ll : ℕ} {b : UInt8} (hstart : F.start ≤ s.op) (hop : s.op ≤ F.oend)
    (hm : s.mem.length = F.oend) (hb : F.src[s.ip]? = some b)
    (hhead : Head F s.ip b.toNat ll ip) (hfit : s.op + ll ≤ F.oend) (hip : ip + ll ≤ F.iend) :
    ∃ m', m'.length = F.oend ∧
      F.hist m' (s.op + ll) = F.hist s.mem s.op ++ slice F.src ip ll ∧
      plainStep F s = (if F.oend - (s.op + ll) < 12 then
        if s.op + ll = F.oend then some (.done ⟨ip + ll, s.op + ll, m'⟩) else some (.bad m')
      else (readLE16 F.src (ip + ll)).bind fun offset =>
        (readLength F.src (b.toNat % 16) (ip + ll + 2)).bind fun r =>
          plainMatch F offset (r.2 + 4) ⟨r.1, s.op + ll, m'⟩) := by
  have hlt : s.ip < F.src.length := (List.getElem?_eq_some_iff.1 hb).1
  have hbyte := b.toNat_lt
  have hnibble : b.toNat / 16 < 16 := by omega
  have hread := (readLength_iff hnibble hlt).2 ⟨hhead.length_eq, hhead.stands⟩
  obtain ⟨m', hcopy, hm', hhist⟩ := memmove_literals hm hstart hfit hip
  refine ⟨m', hm', hhist, ?_⟩
  simp only [plainStep, hb, Option.map_some, hread, hcopy, Option.bind_eq_bind, Option.bind_some,
    if_neg (show ¬F.oend - s.op < ll by omega)]

/-- **One pass** reads a sequence or the last literals, or rejects them. -/
theorem plainStep_sound (hstart : F.start ≤ s.op) (hop : s.op ≤ F.oend)
    (hm : s.mem.length = F.oend) {j : PlainJump} (h : plainStep F s = some j) :
    PlainPost F s j := by
  have hiend : F.iend = F.src.length := rfl
  cases hb : F.src[s.ip]? with
  | none => simp [plainStep, hb] at h
  | some b =>
    have hlt : s.ip < F.src.length := (List.getElem?_eq_some_iff.1 hb).1
    have hbyte := b.toNat_lt
    cases hread : readLength F.src (b.toNat / 16) (s.ip + 1) with
    | none => simp [plainStep, hb, hread] at h
    | some r =>
      obtain ⟨ip, ll⟩ := r
      obtain ⟨hll, hst⟩ := (readLength_iff (by omega) hlt).1 hread
      have hhead : Head F s.ip b.toNat ll ip := ⟨⟨b, hb, rfl⟩, hll, hst⟩
      by_cases hfit : F.oend - s.op < ll
      · simp only [plainStep, hb, Option.map_some, hread, Option.bind_eq_bind, Option.bind_some,
          if_pos hfit, Option.some.injEq] at h
        rw [← h]
        trivial
      by_cases hin : ip + ll ≤ F.iend
      · obtain ⟨m', hm', hhist, heq⟩ := plainStep_eq hstart hop hm hb hhead (by omega) hin
        rw [heq] at h
        have hlen : (slice F.src ip ll).length = ll := by
          rw [length_slice]
          omega
        have hlits := stands_slice (d := F.src) (i := ip) (n := ll) hin
        rw [← hlen] at hhead
        split_ifs at h with hnear hend
        · rw [← Option.some.inj h]
          exact ⟨slice F.src ip ll, b.toNat % 16, by omega, lastBytes_stands hhead hlits, hend,
            by omega, hm', hhist⟩
        · rw [← Option.some.inj h]
          trivial
        · obtain ⟨offset, hoffset, h⟩ := Option.bind_eq_some_iff.1 h
          obtain ⟨⟨ip', ml⟩, hread', h⟩ := Option.bind_eq_some_iff.1 h
          obtain ⟨hoff, hst2⟩ := readLE16_iff.1 hoffset
          have hip2 := hst2.le_length hin
          obtain ⟨hml, hst3⟩ := (readLength_iff (by omega) hip2).1 hread'
          obtain ⟨m₂, hm2, hmatch, hcopy⟩ := plainMatch_spec ip' offset (ml + 4)
            (show F.start ≤ s.op + ll by omega) (by omega) hm'
          rw [hmatch] at h
          split_ifs at h with hok
          · rw [← Option.some.inj h]
            refine ⟨by show F.start ≤ s.op + ll + (ml + 4); omega, hm2, ⟨_, offset, ml + 4, hoff,
              Nat.le_add_left 4 ml⟩, bytes_stands hoff hhead hlits hst2 hml hst3, ?_, ?_, ?_,
              hok.1, fun hne => ?_⟩
            · show offset ≤ F.dictSize + s.op + (slice F.src ip ll).length
              omega
            · show s.op + (slice F.src ip ll).length + 12 ≤ F.oend
              omega
            · show s.op + ll + (ml + 4) = s.op + (slice F.src ip ll).length + (ml + 4)
              omega
            · show F.hist m₂ (s.op + ll + (ml + 4)) = _
              rw [hcopy (by omega) hok.2 hne, hhist]
              rfl
          · rw [← Option.some.inj h]
            trivial
      · -- the literals would run past the end of the input
        have hfault : memmove F s.mem s.op (.src ip) ll = none := by
          rw [memmove, load, loadFrom, if_neg (by omega), Option.bind_none]
        simp [plainStep, hb, hread, hfault, hfit] at h

/-! ### The run -/

/-- What the plain decoder accepts from a state on. -/
structure PlainValid (F : Params) (s : State) (B : Block) (j : ℕ) : Prop where
  stands : Stands F.src B.bytes s.ip j
  inRange : Block.InRange (F.dictSize + s.op) B.seqs
  restricted : B.EndRestricted
  fills : s.op + B.size = F.oend

/-- A sequence in front of a block that is accepted is accepted. -/
theorem PlainValid.cons {j : ℕ} (h : PlainValid F s' B j) (hst : Stands F.src q.bytes s.ip s'.ip)
    (hreach : q.offset ≤ F.dictSize + s.op + q.literals.length)
    (hop : s'.op = s.op + q.literals.length + q.matchLength)
    (hroom : s.op + q.literals.length + 12 ≤ F.oend) (hclose : s'.op + 5 ≤ F.oend) :
    PlainValid F s (B.cons q) j where
  stands := by
    rw [Block.bytes_cons]
    exact hst.append h.stands
  inRange := by
    have := h.inRange
    rw [hop, ← Nat.add_assoc, ← Nat.add_assoc] at this
    exact ⟨hreach, this⟩
  restricted := by
    have hfills := h.fills
    intro u hu
    cases hB : B.seqs with
    | nil =>
      rw [Block.size, hB, Block.span] at hfills
      have hu' : u ∈ (q :: B.seqs).getLast? := hu
      rw [hB] at hu'
      obtain rfl : q = u := Option.some.inj hu'
      refine ⟨by show 5 ≤ B.last.length; omega, ?_⟩
      show 12 ≤ q.matchLength + B.last.length
      omega
    | cons t ts =>
      refine h.restricted u ?_
      have hu' : u ∈ (q :: B.seqs).getLast? := hu
      rwa [hB, List.getLast?_cons_cons, ← hB] at hu'
  fills := by
    have := h.fills
    rw [Block.size] at this ⊢
    show s.op + (q.literals.length + q.matchLength + Block.span B.seqs + B.last.length) = F.oend
    omega

/-- **What is accepted is a block.** -/
theorem plainLoop_sound {fuel : ℕ} (hstart : F.start ≤ s.op) (hop : s.op ≤ F.oend)
    (hm : s.mem.length = F.oend) {n : ℤ} {mem' : Mem}
    (h : plainLoop F fuel s = some (n, mem')) (hn : 0 ≤ n) :
    ∃ B, PlainValid F s B n.toNat ∧ mem'.length = F.oend ∧
      (B.Positive → F.hist mem' F.oend = B.expand (F.hist s.mem s.op)) := by
  induction fuel generalizing s with
  | zero => exact absurd h (by simp [plainLoop])
  | succ fuel ih =>
    rw [plainLoop] at h
    obtain ⟨j, hj, h⟩ := Option.bind_eq_some_iff.1 h
    have hpost := plainStep_sound hstart hop hm hj
    cases j with
    | again s' =>
      obtain ⟨hstart', hm', q, hst, hreach, hroom, hop', hclose, hhist⟩ := hpost
      obtain ⟨B, hB, hlen, hexp⟩ := ih hstart' (by omega) hm' h
      refine ⟨B.cons q, hB.cons hst hreach hop' hroom hclose, hlen, fun hpos => ?_⟩
      have hq : 0 < q.offset := hpos q (List.mem_cons_self ..)
      rw [hexp fun p hp => hpos p (List.mem_cons_of_mem _ hp), hhist (by omega),
        Block.expand_of_cons (B := B.cons q) rfl]
      rfl
    | done s' =>
      obtain ⟨l, low, hlow, hst, hend, hlen, hm', hhist⟩ := hpost
      simp only [Option.some.injEq, Prod.mk.injEq] at h
      obtain ⟨rfl, rfl⟩ := h
      refine ⟨⟨[], l, low, hlow⟩, ⟨hst, trivial, fun u hu => absurd hu (Option.not_mem_none u), ?_⟩,
        hm', fun _ => ?_⟩
      · rw [Block.size, Block.span]
        show s.op + (0 + l.length) = F.oend
        omega
      · rw [← hend]
        exact hhist
    | bad mem =>
      simp only [Option.some.injEq, Prod.mk.injEq] at h
      omega

/-- The literals of a sequence, or the last ones, as the pass finds them. -/
theorem head_of_stands {l low i j : ℕ} {x : List UInt8} (hlow : low < 16)
    (h : Stands F.src (tokenByte l low :: (lengthBytes l ++ x)) i j) :
    ∃ b ip, F.src[i]? = some b ∧ Head F i b.toNat l ip ∧ b.toNat % 16 = low ∧
      Stands F.src x ip j := by
  obtain ⟨hb, hrest⟩ := stands_cons.1 h
  obtain ⟨ip, hlen, hx⟩ := stands_append_iff.1 hrest
  exact ⟨_, ip, hb, ⟨⟨_, hb, rfl⟩, tokenByte_div hlow, hlen⟩, tokenByte_mod hlow, hx⟩

/-- **What is a block is accepted.** -/
theorem plainLoop_complete (fuel : ℕ) {j : ℕ} (hB : PlainValid F s B j) (hstart : F.start ≤ s.op)
    (hm : s.mem.length = F.oend) (hfuel : F.iend < s.ip + fuel) (hj : j ≤ F.iend) :
    ∃ mem', plainLoop F fuel s = some ((j : ℤ), mem') := by
  have hiend : F.iend = F.src.length := rfl
  obtain ⟨ss, l, low, hlow⟩ := B
  induction ss generalizing s fuel with
  | nil =>
    obtain ⟨b, ip, hb, hhead, -, hl⟩ := head_of_stands hlow (hB.stands : Stands F.src
      (Block.lastBytes l low) s.ip j)
    have hlt : s.ip < F.src.length := (List.getElem?_eq_some_iff.1 hb).1
    replace hhead : Head F s.ip b.toNat l.length ip := hhead
    have hfills : s.op + (0 + l.length) = F.oend := hB.fills
    have hjl : j = ip + l.length := hl.1
    obtain ⟨m', -, -, heq⟩ := plainStep_eq hstart (by omega) hm hb hhead (by omega) (by omega)
    obtain ⟨fuel, rfl⟩ := Nat.exists_eq_add_of_lt (show 0 < fuel by omega)
    refine ⟨m', ?_⟩
    rw [Nat.zero_add, plainLoop, heq, if_pos (by omega), if_pos (by omega), Option.bind_some, hjl]
  | cons q ss ih =>
    have hst := hB.stands
    rw [Block.bytes_of_cons rfl] at hst
    obtain ⟨i, hq, hrest⟩ := stands_append_iff.1 hst
    obtain ⟨b, ip, hb, hhead, hlow', hx⟩ := head_of_stands (by omega) hq
    have hlt : s.ip < F.src.length := (List.getElem?_eq_some_iff.1 hb).1
    obtain ⟨i₂, hlits, hx⟩ := stands_append_iff.1 hx
    obtain ⟨i₃, hoffset, hlen⟩ := stands_append_iff.1 hx
    have hroom : q.literals.length + 12 ≤ Block.size ⟨q :: ss, l, low, hlow⟩ :=
      hB.restricted.room rfl
    have hfills := hB.fills
    have hlast := hB.restricted.last (List.cons_ne_nil q ss)
    have hlast' : 5 ≤ l.length := hlast
    have hsize : (⟨q :: ss, l, low, hlow⟩ : Block).size =
        q.literals.length + q.matchLength + Block.span ss + l.length := rfl
    have hml := q.min_match
    have hi2 : i₂ = ip + q.literals.length := hlits.1
    have hi3 : i₃ = i₂ + 2 := hoffset.1
    have hii : i ≤ j := by
      rw [hrest.1]
      exact Nat.le_add_right _ _
    have hi3i : i₃ ≤ i := by
      rw [hlen.1]
      exact Nat.le_add_right _ _
    obtain ⟨m', hm', -, heq⟩ := plainStep_eq hstart (by omega) hm hb hhead (by omega) (by omega)
    have hreadLE := readLE16_iff.2 ⟨q.offset_lt, hi3 ▸ hoffset⟩
    have hreadL := (readLength_iff (Nat.mod_lt _ (by omega)) (by omega)).2 ⟨hlow', hlen⟩
    obtain ⟨m₂, hm2, hmatch, -⟩ := plainMatch_spec i q.offset (q.matchLength - 4 + 4)
      (show F.start ≤ s.op + q.literals.length by omega) (by omega) hm'
    have hreach : q.offset ≤ F.dictSize + s.op + q.literals.length := hB.inRange.1
    rw [if_pos (by omega)] at hmatch
    have hstep : plainStep F s =
        some (.again ⟨i, s.op + q.literals.length + (q.matchLength - 4 + 4), m₂⟩) := by
      rw [heq, if_neg (by omega), ← hi2, hreadLE, Option.bind_some, ← hi3, hreadL,
        Option.bind_some, hmatch]
    obtain ⟨fuel, rfl⟩ := Nat.exists_eq_add_of_lt (show 0 < fuel by omega)
    have hbytes := hq.1
    rw [Sequence.bytes, List.length_cons] at hbytes
    have hop' : s.op + q.literals.length + (q.matchLength - 4 + 4) =
        s.op + q.literals.length + q.matchLength := by omega
    rw [hop'] at hstep
    have hvalid : PlainValid F ⟨i, s.op + q.literals.length + q.matchLength, m₂⟩
        ⟨ss, l, low, hlow⟩ j := by
      refine ⟨hrest, ?_, hB.restricted.tail, ?_⟩
      · have : Block.InRange (F.dictSize + s.op + q.literals.length + q.matchLength) ss :=
          hB.inRange.2
        rwa [Nat.add_assoc F.dictSize, Nat.add_assoc F.dictSize] at this
      · rw [hsize] at hfills
        show s.op + q.literals.length + q.matchLength + (Block.span ss + l.length) = F.oend
        omega
    obtain ⟨mem', hloop⟩ := ih (s := ⟨i, s.op + q.literals.length + q.matchLength, m₂⟩)
      fuel (show F.start ≤ s.op + q.literals.length + q.matchLength by omega) hm2
      (show F.iend < i + fuel by omega) hvalid
    refine ⟨mem', ?_⟩
    rw [Nat.zero_add, plainLoop, hstep, Option.bind_some]
    exact hloop

/-- **What the plain decoder accepts:** an input that begins with a block of exactly the size
asked for, which keeps the rules for its end and whose matches are in range; what it returns
is where the block ends. -/
theorem decompressUnsafe_iff (hm : mem.length = F.oend) (n : ℤ) :
    ((∃ mem', decompressUnsafe F mem = some (n, mem')) ∧ 0 ≤ n) ↔
      ∃ B : Block, F.src.take n.toNat = B.bytes ∧ n = B.bytes.length ∧
        Block.InRange (F.dictSize + F.start) B.seqs ∧ B.EndRestricted ∧ B.size = F.outputSize := by
  have hoend : F.oend = F.start + F.outputSize := rfl
  have hiend : F.iend = F.src.length := rfl
  constructor
  · rintro ⟨⟨mem', h⟩, hn⟩
    obtain ⟨B, hB, -, -⟩ := plainLoop_sound (s := entry F mem) le_rfl
      (show F.start ≤ F.oend by omega) hm h hn
    have hst := hB.stands
    have hlen : n.toNat = 0 + B.bytes.length := hst.1
    have hfills : F.start + B.size = F.oend := hB.fills
    refine ⟨B, ?_, by omega, hB.inRange, hB.restricted, by omega⟩
    have := hst.slice_eq
    rwa [show (entry F mem).ip = 0 from rfl, slice_zero, show B.bytes.length = n.toNat by omega]
      at this
  · rintro ⟨B, hsrc, rfl, hrange, hrest, hsize⟩
    rw [Int.toNat_natCast] at hsrc
    have hst : Stands F.src B.bytes 0 B.bytes.length := by
      have := stands_of_drop (d := F.src) (i := 0) (x := B.bytes) (y := F.src.drop B.bytes.length)
        (by conv_lhs => rw [List.drop_zero, ← List.take_append_drop B.bytes.length F.src, hsrc])
      rwa [Nat.zero_add] at this
    obtain ⟨mem', h⟩ := plainLoop_complete (s := entry F mem) (F.src.length + 1)
      ⟨hst, hrange, hrest, by show F.start + B.size = F.oend; omega⟩ le_rfl hm
      (by show F.iend < 0 + (F.src.length + 1); omega) (hst.le_length (Nat.zero_le _))
    exact ⟨⟨mem', h⟩, Int.natCast_nonneg _⟩

/-- The hypothesis is satisfiable: `runBlock` is eleven bytes long. -/
theorem decompressUnsafe_iff_runBlock :
    ((∃ mem', decompressUnsafe runBlock (zeros 28) = some (11, mem')) ∧ (0 : ℤ) ≤ 11) ↔
      ∃ B : Block, runBlock.src.take (11 : ℤ).toNat = B.bytes ∧ (11 : ℤ) = B.bytes.length ∧
        Block.InRange (runBlock.dictSize + runBlock.start) B.seqs ∧ B.EndRestricted ∧
        B.size = runBlock.outputSize :=
  decompressUnsafe_iff rfl 11

/-- **The optimised decoder agrees with the plain one.**  What the plain decoder accepts, with
any room at all in `dst` and no offset `0`, the optimised one decodes to the same bytes. -/
theorem decode_of_decompressUnsafe (hF : F.Ok) (hA : F.InAddressSpace)
    (hm : mem.length = F.oend) (hsize : 0 < F.outputSize) {n : ℤ} {mem' : Mem}
    (h : decompressUnsafe F mem = some (n, mem')) (hn : 0 ≤ n) :
    ∃ B : Block, F.src.take n.toNat = B.bytes ∧ (B.Positive →
      decode { F with src := F.src.take n.toNat } mem = some ((F.outputSize : ℤ), mem')) := by
  have hoend : F.oend = F.start + F.outputSize := rfl
  obtain ⟨B, hB, hm', hexp⟩ := plainLoop_sound (s := entry F mem) le_rfl
    (show F.start ≤ F.oend by omega) hm h hn
  have hlen : n.toNat = 0 + B.bytes.length := hB.stands.1
  have hsrc : F.src.take n.toNat = B.bytes := by
    have := hB.stands.slice_eq
    rwa [show (entry F mem).ip = 0 from rfl, slice_zero, show B.bytes.length = n.toNat by omega]
      at this
  refine ⟨B, hsrc, fun hpos => ?_⟩
  -- the same buffers, with the input cut to the block
  have hle : (F.src.take n.toNat).length ≤ F.iend := List.length_take_le' _ _
  have hA1 := hA.1
  have hA2 := hA.2
  have hBsize : F.start + B.size = F.oend := hB.fills
  have hacc : Acceptable { F with src := F.src.take n.toNat } B := by
    refine ⟨hsrc, hpos, hB.inRange, hB.restricted, fun h0 => absurd h0 hsize.ne', ?_, ?_⟩
    · show F.srcAddr + (F.src.take n.toNat).length < 2 ^ 64
      omega
    · show F.dstAddr + F.oend + 255 * (F.src.take n.toNat).length + 20 < 2 ^ 64
      omega
  have hok : ({ F with src := F.src.take n.toNat } : Params).Ok := ⟨hF.prefix64k, hF.noDictionary⟩
  have hm1 : mem.length = ({ F with src := F.src.take n.toNat } : Params).oend := hm
  obtain ⟨mem₂, hdec, hm2, hhist⟩ := decode_valid hok hm1 hacc fun _ =>
    show B.size ≤ F.outputSize by omega
  have hBout : min B.size F.outputSize = F.outputSize := by omega
  rw [show ({ F with src := F.src.take n.toNat } : Params).outputSize = F.outputSize from rfl,
    hBout] at hdec
  have heq : F.hist mem₂ (F.start + min B.size F.outputSize) =
      (B.expand (F.hist mem F.start)).take (F.dictSize + F.oend) := hhist
  have hm2' : mem₂.length = F.oend := hm2
  rw [hBout, ← hoend] at heq
  have hplain : F.hist mem' F.oend = B.expand (F.hist mem F.start) := hexp hpos
  have hfit : (F.hist mem' F.oend).length ≤ F.dictSize + F.oend := (length_hist (by omega)).le
  rw [← hplain, List.take_of_length_le hfit, Params.hist, Params.hist,
    List.take_of_length_le (by omega), List.take_of_length_le (by omega)] at heq
  rw [hdec, List.append_cancel_left heq]

/-- The hypotheses are satisfiable: `runBlock` has no offset `0`. -/
theorem decode_of_decompressUnsafe_runBlock :
    ∃ B : Block, runBlock.src.take (11 : ℤ).toNat = B.bytes ∧ (B.Positive →
      decode { runBlock with src := runBlock.src.take (11 : ℤ).toNat } (zeros 28) =
        some (28, List.replicate 23 97 ++ [98, 99, 100, 101, 102])) :=
  decode_of_decompressUnsafe runBlock_ok ⟨by decide, by decide⟩ rfl (show 0 < 28 by omega)
    (show decompressUnsafe runBlock (zeros 28) = some (11, _) from rfl) (by omega)

end Lz4
end Twrp

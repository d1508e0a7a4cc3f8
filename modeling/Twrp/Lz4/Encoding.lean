/-
# `lz4.c`: one part of the main loop after the other

`Emitted J s seqs` is what holds whenever the compressor is between two sequences: the output
is the bytes of the sequences `seqs`, and they stand for the input up to `anchor`.  With it go
the rules for the end of a block, which the compressor keeps by where it looks for matches and,
when it fills `dst`, by the room it leaves.  `Reached` says the same of each label, and the
step lemmas take it from one to the next (`searchStep_spec`, `matchStep_spec`); none of them
faults, so nothing is read or written where it must not be and no assertion fails.

Between a search and its match the table may know positions that the match turns out not to
reach: `filledIp` remembers how far, and a match that is cut short to fit is followed by
clearing them.  After that there is no room for another match, which is why an old `filledIp`
at `_next_match` does no harm.
-/

import Twrp.Lz4.Output

namespace Twrp
namespace Lz4

open Bytes Lz

/-- Between two sequences. -/
structure Emitted (J : Job) (s : Enc) (seqs : List Sequence) : Prop where
  wrote : Wrote J (seqs.flatMap Sequence.bytes) s.mem s.op
  encodes : Encodes J.src 0 s.anchor seqs
  /-- The last match leaves room for the literals that have to follow. -/
  tail : ∀ u ∈ seqs.getLast?, s.anchor + 5 ≤ J.iend ∧ s.anchor + 12 ≤ J.iend + u.matchLength ∧
    (J.outputDirective ≠ .notLimited → s.op + 6 ≤ J.olimit) ∧
    (J.outputDirective = .fillOutput → u.matchLength < 19 → s.op + 9 ≤ J.olimit)
  room : J.outputDirective = .fillOutput → s.op < J.olimit

/-- At `_next_match`, with the token and the literals in front of the match written. -/
structure MatchReady (J : Job) (s : Enc) (filledIp pos token : ℕ) (seqs : List Sequence) :
    Prop where
  wrote : Wrote J (seqs.flatMap Sequence.bytes ++ tokenByte (s.ip - s.anchor) 0 ::
    (lengthBytes (s.ip - s.anchor) ++ slice J.src s.anchor (s.ip - s.anchor))) s.mem s.op
  anchor_le : s.anchor ≤ s.ip
  lt : pos < s.ip
  near : s.ip - pos ≤ 65535
  end_le : max s.ip filledIp + 12 ≤ J.iend
  repeats : Repeats J.src (s.ip - pos) s.ip (max s.ip filledIp + 4)
  filed : Filed J s.hashTable (max s.ip filledIp + 1)
  room : J.outputDirective ≠ .notLimited → s.op + 5 ≤ J.olimit

/-- What holds at each label. -/
def Reached (J : Job) : Next → Prop
  | .search s forwardH => (∃ seqs, Emitted J s seqs) ∧ s.anchor < s.ip ∧ s.ip + 11 ≤ J.iend ∧
      forwardH < tableSize J.tableType ∧ hashPosition J.src s.ip J.tableType = some forwardH ∧
      Filed J s.hashTable s.ip
  | .nextMatch s filledIp pos token => ∃ seqs, Emitted J { s with op := token } seqs ∧
      Filed J s.hashTable J.iend ∧
      (¬(J.outputDirective = .fillOutput ∧ s.op + 2 + 1 + 12 - 4 > J.olimit) →
        MatchReady J s filledIp pos token seqs)
  | .lastLiterals s => (∃ seqs, Emitted J s seqs) ∧ Filed J s.hashTable J.iend
  | .fail s => J.outputDirective = .limitedOutput ∧ s.mem.length = J.dstSize ∧
      Filed J s.hashTable J.iend

/-- How many labels can still follow, at most. -/
def rank (J : Job) : Next → ℕ
  | .search s _ => 2 * (J.iend - s.anchor) + 3
  | .nextMatch s _ _ _ => 2 * (J.iend - s.anchor) + 2
  | .lastLiterals _ => 1
  | .fail _ => 1

variable {J : Job} {s : Enc} {seqs : List Sequence} {filledIp pos token h : ℕ}

/-- How far the output has come, in terms of the input. -/
theorem Emitted.op_le (hs : Emitted J s seqs) : 255 * s.op ≤ 256 * s.anchor := by
  have hbytes := length_flatMap_bytes_le seqs
  have hspan := hs.encodes.eq_add
  rw [hs.wrote.length_eq] at hbytes
  omega

/-! ### Literals -/

/-- **"Encode Literals"** in front of a match for `ip`. -/
theorem encodeLiterals_spec (hJ : J.Ok) (hs : Emitted J s seqs) (hanchor : s.anchor ≤ s.ip)
    (hlt : pos < s.ip) (hnear : s.ip - pos ≤ 65535) (hle : s.ip ≤ filledIp)
    (hend : filledIp + 12 ≤ J.iend) (hrep : Repeats J.src (s.ip - pos) s.ip (filledIp + 4))
    (hT : Filed J s.hashTable (filledIp + 1)) :
    ∃ r, encodeLiterals J s filledIp pos = some r ∧ Reached J r ∧
      rank J r ≤ 2 * (J.iend - s.anchor) + 2 := by
  have hop := hs.op_le
  have hlen := hs.wrote.length_eq
  simp only [encodeLiterals]
  split_ifs with hlimit hfill
  · exact ⟨_, rfl, ⟨hlimit.1, hs.wrote.size, hT.mono (by omega)⟩, Nat.le_add_left _ _⟩
  · exact ⟨_, rfl, ⟨⟨seqs, hs⟩, hT.mono (by omega)⟩, Nat.le_add_left _ _⟩
  · obtain ⟨n, hn⟩ : ∃ n, n = s.ip - s.anchor := ⟨_, rfl⟩
    rw [← hn] at hlimit hfill ⊢
    -- room for the token, the length and the copy of the literals
    have hroom : s.op + 1 + (n + 240) / 255 + max (n + 7) 8 ≤ J.dstSize ∧
        (J.outputDirective ≠ .notLimited →
          s.op + 1 + (n + 240) / 255 + n + 5 ≤ J.olimit) := by
      cases hd : J.outputDirective with
      | notLimited =>
        have := hJ.notLimited hd
        exact ⟨by omega, fun h => absurd rfl h⟩
      | limitedOutput =>
        have h1 : ¬s.op + 1 + n + (2 + 1 + 5) + n / 255 > J.olimit := fun h => hlimit ⟨hd, h⟩
        have h2 := hJ.limited (by rw [hd]; decide)
        exact ⟨by omega, fun _ => by omega⟩
      | fillOutput =>
        have h1 : ¬s.op + 1 + (n + 240) / 255 + n + 2 + 1 + 12 - 4 > J.olimit :=
          fun h => hfill ⟨hd, h⟩
        have h2 := hJ.limited (by rw [hd]; decide)
        exact ⟨by omega, fun _ => by omega⟩
    obtain ⟨m₁, h1, hm1⟩ := putLiteralLength_spec hs.wrote (n := n) (by omega)
    obtain ⟨m₂, h2, hm2⟩ := putLiterals_spec hm1 (n := n) (by omega)
      (show s.anchor + max (n + 7) 8 ≤ J.iend by omega)
    simp only [h1, h2, Option.bind_eq_bind, Option.bind_some]
    rw [List.append_assoc, List.cons_append] at hm2
    refine ⟨_, rfl, ⟨seqs, ?_, hT.mono (by omega), fun _ => ?_⟩, le_rfl⟩
    · exact ⟨hm2.of_append hlen, hs.encodes, hs.tail, hs.room⟩
    · have hmax : max s.ip filledIp = filledIp := Nat.max_eq_right hle
      refine ⟨?_, hanchor, hlt, hnear, ?_, ?_, ?_, fun hd => ?_⟩
      · show Wrote J (seqs.flatMap Sequence.bytes ++ tokenByte (s.ip - s.anchor) 0 ::
          (lengthBytes (s.ip - s.anchor) ++ slice J.src s.anchor (s.ip - s.anchor))) m₂
            (s.op + 1 + (n + 240) / 255 + n)
        rwa [← hn]
      · rw [hmax]
        exact hend
      · rw [hmax]
        exact hrep
      · rw [hmax]
        exact hT
      · exact hroom.2 hd

/-- **From the head of the main loop** to a match, or to the last literals. -/
theorem searchStep_spec (hJ : J.Ok) (h13 : 13 ≤ J.iend) (hr : Reached J (.search s h)) :
    ∃ r, searchStep J s h = some r ∧ Reached J r ∧ rank J r < rank J (.search s h) := by
  have hiend : J.iend = J.src.length := rfl
  obtain ⟨⟨seqs, hs⟩, hlt, hend, hh, hhash, hT⟩ := hr
  have hnb : 64 ≤ J.acceleration <<< 6 := by
    have := hJ.acceleration
    rw [Nat.shiftLeft_eq]
    omega
  obtain ⟨found, hfind, hfound⟩ := findMatch_spec hJ h13 hT (by omega) hend le_rfl hnb hh hhash
    (show J.iend < s.ip + (J.iend + 1) by omega)
  simp only [searchStep, hfind, Option.bind_eq_bind, Option.bind_some]
  cases found with
  | nothing table => exact ⟨_, rfl, ⟨⟨seqs, hs.wrote, hs.encodes, hs.tail, hs.room⟩, hfound⟩, by
      rw [rank, rank]
      omega⟩
  | found ip pos table =>
    obtain ⟨hip, hipend, ⟨hpos, hnear, hrep⟩, hT'⟩ := hfound
    obtain ⟨ip', pos', hcatch, hoff, ha, hle, hrep'⟩ := catchUp_spec
      (show pos + (ip - pos) = ip by omega) (show ip ≤ J.src.length by omega)
      (show s.anchor ≤ ip by omega) (by omega)
    have hoff' : ip' - pos' = ip - pos := by omega
    simp only [guard, if_pos (show ip > s.anchor by omega), Option.pure_def, Option.bind_some,
      hcatch]
    obtain ⟨r, hlits, hr, hrank⟩ := encodeLiterals_spec
      (s := { s with ip := ip', hashTable := table }) hJ
      ⟨hs.wrote, hs.encodes, hs.tail, hs.room⟩ ha (show pos' < ip' by omega)
      (show ip' - pos' ≤ 65535 by omega) hle hipend
      (show Repeats J.src (ip' - pos') ip' (ip + 4) by
        rw [hoff']
        exact hrep'.trans hrep) hT'
    exact ⟨r, hlits, hr, Nat.lt_succ_of_le hrank⟩

/-! ### Matches -/

/-- **A match that does not fit** is cut short when `dst` is to be filled, and it still ends
behind the position it starts at; the table is left without what lies behind its end. -/
theorem reduceMatch_spec (hJ : J.Ok) {n : ℕ} (hT : Filed J s.hashTable (max s.ip filledIp + 1))
    (hend : max s.ip filledIp + 12 ≤ J.iend) (hn : max s.ip filledIp ≤ s.ip + n)
    (hroom : J.outputDirective = .fillOutput → s.op + 9 ≤ J.olimit) (hsize : n < 2 ^ 31) :
    (reduceMatch J s filledIp n = some none ∧ J.outputDirective = .limitedOutput) ∨
    ∃ k table, reduceMatch J s filledIp n = some (some (k, table)) ∧ k ≤ n ∧
      Filed J table (s.ip + k + 4) ∧
      (J.outputDirective ≠ .notLimited → s.op + 6 + (k + 240) / 255 ≤ J.olimit) ∧
      (filledIp ≤ s.ip + k + 4 ∨
        J.outputDirective = .fillOutput ∧ J.olimit ≤ s.op + 6 + (k + 240) / 255) := by
  simp only [reduceMatch]
  by_cases hover : J.outputDirective ≠ .notLimited ∧
      s.op + (1 + 5) + (n + 240) / 255 > J.olimit
  · rw [if_pos hover]
    by_cases hfill : J.outputDirective = .fillOutput
    · have hroom := hroom hfill
      have hk : (15 - 1 + (J.olimit - s.op - 1 - 5) * 255) % 2 ^ 32 =
          14 + (J.olimit - s.op - 6) * 255 := by omega
      obtain ⟨k, hk'⟩ : ∃ k, k = 14 + (J.olimit - s.op - 6) * 255 := ⟨_, rfl⟩
      rw [if_pos hfill, hk, ← hk']
      simp only [guard, if_pos (show s.op + 1 + 5 ≤ J.olimit by omega),
        if_pos (show k < n by omega), Option.pure_def, Option.bind_eq_bind, Option.bind_some]
      by_cases hfilled : s.ip + k + 4 ≤ filledIp
      · obtain ⟨table, hclear, hT'⟩ := clearPositions_spec (p := s.ip + k + 4)
          (k := filledIp + 1 - (s.ip + k + 4)) hJ (by omega) (hT.mono (by omega))
        refine Or.inr ⟨k, table, ?_, by omega, hT', fun _ => by omega, Or.inr ⟨hfill, by omega⟩⟩
        rw [if_pos hfilled, hclear]
        rfl
      · exact Or.inr ⟨k, s.hashTable, if_neg hfilled, by omega, hT.mono (by omega),
          fun _ => by omega, Or.inr ⟨hfill, by omega⟩⟩
    · refine Or.inl ⟨if_neg hfill, ?_⟩
      cases hd : J.outputDirective with
      | notLimited => exact absurd hd hover.1
      | limitedOutput => rfl
      | fillOutput => exact absurd hd hfill
  · refine Or.inr ⟨n, s.hashTable, if_neg hover, le_rfl, hT.mono (by omega), fun hd => ?_,
      Or.inl (by omega)⟩
    have : ¬s.op + (1 + 5) + (n + 240) / 255 > J.olimit := fun h => hover ⟨hd, h⟩
    omega

/-- **"Fill table" and "Test next position"** behind a match. -/
theorem nextPosition_spec (filledIp : ℕ) (hJ : J.Ok) (hs : Emitted J s seqs) (hip : s.anchor = s.ip)
    (h2 : 2 < s.ip) (hend : s.ip + 12 ≤ J.iend) (hT : Filed J s.hashTable s.ip)
    (hne : seqs ≠ []) (hstale : filledIp ≤ s.ip ∨
      J.outputDirective = .fillOutput ∧ J.olimit ≤ s.op + 6) :
    ∃ r, nextPosition J s filledIp = some r ∧ Reached J r ∧
      rank J r ≤ 2 * (J.iend - s.anchor) + 3 := by
  obtain ⟨h₁, hh₁, hhash₁⟩ := hashPosition_eq hJ (show s.ip - 2 + 8 ≤ J.iend by omega)
  obtain ⟨t₁, hput₁, hT₁⟩ := hT.put hJ (show s.ip - 2 + 12 ≤ J.iend by omega) hh₁ hhash₁
  obtain ⟨h₂, hh₂, hhash₂⟩ := hashPosition_eq hJ (show s.ip + 8 ≤ J.iend by omega)
  rw [Nat.max_eq_left (by omega)] at hT₁
  obtain ⟨e, hget, he⟩ := hT₁.get hh₂ le_rfl (by omega)
  obtain ⟨t₂, hput₂, hT₂⟩ := hT₁.put hJ hend hh₂ hhash₂
  rw [Nat.max_eq_right (Nat.le_succ _)] at hT₂
  obtain ⟨r, hcand, hr⟩ := candidate_spec hJ hend he
  simp only [nextPosition, hhash₁, hput₁, hhash₂, hget, hput₂, hcand, guard, if_pos he,
    Option.pure_def, Option.bind_eq_bind, Option.bind_some]
  obtain ⟨u, hu⟩ : ∃ u, u ∈ seqs.getLast? := ⟨_, List.getLast?_eq_some_getLast hne⟩
  have htail := hs.tail u hu
  cases r with
  | none =>
    obtain ⟨h₃, hh₃, hhash₃⟩ := hashPosition_eq hJ (show s.ip + 1 + 8 ≤ J.iend by omega)
    simp only [hhash₃, Option.bind_some]
    exact ⟨_, rfl, ⟨⟨seqs, hs.wrote, hs.encodes, hs.tail, hs.room⟩,
      show s.anchor < s.ip + 1 by omega, show s.ip + 1 + 11 ≤ J.iend by omega, hh₃, hhash₃, hT₂⟩,
      le_rfl⟩
  | some pos =>
    have hop : s.op + 1 ≤ J.dstSize := by
      have hop := hs.op_le
      by_cases hd : J.outputDirective = .notLimited
      · have := hJ.notLimited hd
        omega
      · have := hJ.limited hd
        have := htail.2.2.1 hd
        omega
    obtain ⟨m, hstore, hm⟩ := hs.wrote.store [0] hop
    simp only [hstore, Option.bind_some]
    refine ⟨_, rfl, ⟨seqs, ?_, hT₂.mono (by omega), fun hroom => ?_⟩, Nat.le_succ _⟩
    · exact ⟨hm.of_append hs.wrote.length_eq, hs.encodes, hs.tail, hs.room⟩
    · obtain ⟨hpos, hnear, hrep⟩ := hr pos rfl
      have hroom : ¬(J.outputDirective = .fillOutput ∧ s.op + 1 + 2 + 1 + 12 - 4 > J.olimit) :=
        hroom
      have hfilled : filledIp ≤ s.ip := hstale.resolve_right fun ⟨hd, hle⟩ =>
        hroom ⟨hd, by omega⟩
      have hmax : max s.ip filledIp = s.ip := Nat.max_eq_left hfilled
      refine ⟨?_, hip.le, hpos, hnear, ?_, ?_, ?_, fun hd => ?_⟩
      · show Wrote J (seqs.flatMap Sequence.bytes ++ tokenByte (s.ip - s.anchor) 0 ::
          (lengthBytes (s.ip - s.anchor) ++ slice J.src s.anchor (s.ip - s.anchor))) m (s.op + 1)
        rw [hip, Nat.sub_self]
        exact hm
      · rw [hmax]
        exact hend
      · rw [hmax]
        exact hrep
      · rw [hmax]
        exact hT₂
      · have := htail.2.2.1 hd
        show s.op + 1 + 5 ≤ J.olimit
        omega

/-- The bytes of a sequence, in the order they are written. -/
theorem bytes_of_written (x lits : List UInt8) {off : ℕ} (k : ℕ) (hoff : off < 65536) :
    x ++ tokenByte lits.length (min k 15) ::
        (lengthBytes lits.length ++ lits ++ offsetBytes off ++ lengthBytes k) =
      x ++ Sequence.bytes ⟨lits, off, k + 4, hoff, Nat.le_add_left 4 k⟩ := by
  rw [Sequence.bytes, Nat.add_sub_cancel, List.append_assoc, List.append_assoc]

/-- **A match that has been written** is one sequence more. -/
theorem MatchReady.emitted (hM : MatchReady J s filledIp pos token seqs)
    (hE : Encodes J.src 0 s.anchor seqs) {k op : ℕ} {m : Mem} (table : HashTable)
    (hm : Wrote J (seqs.flatMap Sequence.bytes ++ tokenByte (s.ip - s.anchor) (min k 15) ::
      (lengthBytes (s.ip - s.anchor) ++ slice J.src s.anchor (s.ip - s.anchor) ++
        offsetBytes (s.ip - pos) ++ lengthBytes k)) m op)
    (hend : s.ip + k + 4 + 5 ≤ J.iend)
    (hrep : Repeats J.src (s.ip - pos) s.ip (s.ip + (k + 4)))
    (hlimit : J.outputDirective ≠ .notLimited → op + 6 ≤ J.olimit)
    (hshort : J.outputDirective = .fillOutput → k < 15 → op + 9 ≤ J.olimit) :
    ∃ seqs' ≠ [], Emitted J ⟨s.ip + k + 4, s.ip + k + 4, op, m, table⟩ seqs' := by
  have hiend : J.iend = J.src.length := rfl
  have hle := hM.anchor_le
  have hlt := hM.lt
  have hmax := hM.end_le
  have hoff : s.ip - pos < 65536 := by
    have := hM.near
    omega
  have hlits : (slice J.src s.anchor (s.ip - s.anchor)).length = s.ip - s.anchor := by
    rw [length_slice]
    omega
  refine ⟨_, List.append_ne_nil_of_right_ne_nil seqs (List.cons_ne_nil _ []), ?_,
    hE.snoc hle (by omega) (Nat.sub_le _ _) hoff (Nat.le_add_left 4 k) (by omega) hrep,
    fun u hu => ?_, fun hd => ?_⟩
  · have hbytes := bytes_of_written (seqs.flatMap Sequence.bytes)
      (slice J.src s.anchor (s.ip - s.anchor)) k hoff
    rw [hlits] at hbytes
    rw [hbytes] at hm
    rwa [List.flatMap_append, List.flatMap_singleton]
  · rw [List.getLast?_concat, Option.mem_some_iff] at hu
    subst hu
    exact ⟨hend, by show s.ip + k + 4 + 12 ≤ J.iend + (k + 4); omega, hlimit,
      fun hd hk => hshort hd (by have : k + 4 < 19 := hk; omega)⟩
  · have := hlimit (by rw [hd]; decide)
    show op < J.olimit
    omega

/-- Token, literal length and literals stand in front of the match. -/
theorem MatchReady.op_eq (hM : MatchReady J s filledIp pos token seqs)
    (htoken : (seqs.flatMap Sequence.bytes).length = token) :
    s.op = token + 1 + (s.ip - s.anchor + 240) / 255 + (s.ip - s.anchor) := by
  have hiend : J.iend = J.src.length := rfl
  have hlt := hM.lt
  have hmax := hM.end_le
  have hlits : (slice J.src s.anchor (s.ip - s.anchor)).length = s.ip - s.anchor := by
    rw [length_slice]
    omega
  have := hM.wrote.length_eq
  rw [List.length_append, List.length_cons, List.length_append, length_lengthBytes_eq, hlits,
    htoken] at this
  omega

/-- There is room for the offset, and for what the match length takes. -/
theorem MatchReady.offset_room (hM : MatchReady J s filledIp pos token seqs) (hJ : J.Ok)
    (hlen : (seqs.flatMap Sequence.bytes).length = token) (htoken : 255 * token ≤ 256 * s.anchor)
    (hclose : ¬(J.outputDirective = .fillOutput ∧ s.op + 2 + 1 + 12 - 4 > J.olimit)) :
    s.op + 2 ≤ J.dstSize ∧ (J.outputDirective = .fillOutput → s.op + 11 ≤ J.olimit) := by
  have hiend : J.iend = J.src.length := rfl
  have hle := hM.anchor_le
  have hlt := hM.lt
  have hmax := hM.end_le
  have hop := hM.op_eq hlen
  cases hd : J.outputDirective with
  | notLimited =>
    have := hJ.notLimited hd
    exact ⟨by omega, nofun⟩
  | limitedOutput =>
    have := hM.room (by rw [hd]; decide)
    have := hJ.limited (by rw [hd]; decide)
    exact ⟨by omega, nofun⟩
  | fillOutput =>
    have := hM.room (by rw [hd]; decide)
    have := hJ.limited (by rw [hd]; decide)
    have : ¬s.op + 2 + 1 + 12 - 4 > J.olimit := fun h => hclose ⟨hd, h⟩
    exact ⟨by omega, fun _ => by omega⟩

/-- **`_next_match`:** the match is written, and the code goes on behind it. -/
theorem matchStep_spec (hJ : J.Ok) (hr : Reached J (.nextMatch s filledIp pos token)) :
    ∃ r, matchStep J s filledIp pos token = some r ∧ Reached J r ∧
      rank J r < rank J (.nextMatch s filledIp pos token) := by
  have hiend : J.iend = J.src.length := rfl
  have hlimit : J.matchlimit = J.iend - 5 := rfl
  obtain ⟨seqs, hs, hfull, hM⟩ := hr
  simp only [matchStep]
  by_cases hclose : J.outputDirective = .fillOutput ∧ s.op + 2 + 1 + 12 - 4 > J.olimit
  · exact ⟨_, if_pos hclose, ⟨⟨seqs, hs⟩, hfull⟩,
      Nat.lt_of_lt_of_le one_lt_two (Nat.le_add_left _ _)⟩
  · have hM := hM hclose
    have hle := hM.anchor_le
    have hlt := hM.lt
    have hmax := hM.end_le
    have htoken : 255 * token ≤ 256 * s.anchor := hs.op_le
    have htoklen : (seqs.flatMap Sequence.bytes).length = token := hs.wrote.length_eq
    have hop := hM.op_eq htoklen
    have hroom := hM.offset_room hJ htoklen htoken hclose
    obtain ⟨m₁, h1, hm1⟩ := hM.wrote.store (offsetBytes (s.ip - pos)) hroom.1
    obtain ⟨c, hcount, hstop⟩ := count_spec (show pos + 4 + (s.ip - pos) = s.ip + 4 by omega)
      (show s.ip + 4 ≤ J.matchlimit by omega) (show J.matchlimit ≤ J.src.length by omega)
    have hfar : max s.ip filledIp + 4 ≤ s.ip + 4 + c :=
      hstop.le (hM.repeats.mono (by omega) le_rfl) (by omega)
    have hcend := hstop.2.1
    rw [List.append_assoc, List.cons_append, length_offsetBytes] at hm1
    rw [if_neg hclose, show [UInt8.ofNat ((s.ip - pos) % 256), UInt8.ofNat ((s.ip - pos) / 256)] =
      offsetBytes (s.ip - pos) from rfl]
    simp only [guard, if_pos hM.near, Option.pure_def, Option.bind_eq_bind, Option.bind_some, h1,
      hcount]
    have hindex := hJ.index_lt
    rcases reduceMatch_spec (s := { s with op := s.op + 2, mem := m₁ }) hJ hM.filed hmax
      (show max s.ip filledIp ≤ s.ip + c by omega)
      (fun hd => show s.op + 2 + 9 ≤ J.olimit by have := hroom.2 hd; omega)
      (show c < 2 ^ 31 by omega) with ⟨hred, hd⟩ | ⟨k, table, hred, hk, hT, hfit, hstale⟩
    · simp only [hred, Option.bind_some]
      exact ⟨_, rfl, ⟨hd, hm1.size, hfull⟩, Nat.lt_of_lt_of_le one_lt_two (Nat.le_add_left _ _)⟩
    · have hfit : J.outputDirective ≠ .notLimited → s.op + 2 + 6 + (k + 240) / 255 ≤ J.olimit :=
        hfit
      have hsize : s.op + 2 + (k + 240) / 255 + 3 ≤ J.dstSize := by
        by_cases hd : J.outputDirective = .notLimited
        · have := hJ.notLimited hd
          omega
        · have := hJ.limited hd
          have := hfit hd
          omega
      obtain ⟨m₂, h2, hm2⟩ := putMatchLength_spec (n := k) hm1 htoklen hsize
      have hguard : ¬(J.outputDirective = .fillOutput ∧
          s.op + 2 + (k + 240) / 255 + 1 + 5 > J.olimit) := fun ⟨hd, h⟩ => by
        have := hfit (by rw [hd]; decide)
        omega
      simp only [hred, h2, Option.bind_some, if_pos hguard]
      obtain ⟨seqs', hne, hs'⟩ := hM.emitted hs.encodes table hm2 (by omega)
        ((hM.repeats.mono le_rfl (show s.ip + 4 ≤ _ by omega)).trans
          (hstop.2.2.1.mono le_rfl (by omega)))
        (fun hd => by have := hfit hd; omega)
        (fun hd hk => by have := hroom.2 hd; omega)
      split_ifs with hlast
      · exact ⟨_, rfl, ⟨⟨seqs', hs'⟩, hT.mono (show s.ip + k + 4 ≤ J.iend by omega)⟩,
          Nat.lt_of_lt_of_le one_lt_two (Nat.le_add_left _ _)⟩
      · have hmf : J.mflimitPlusOne = J.iend - 12 + 1 := rfl
        obtain ⟨r, hnext, hr, hrank⟩ := nextPosition_spec filledIp hJ hs' rfl
          (show 2 < s.ip + k + 4 by omega) (show s.ip + k + 4 + 12 ≤ J.iend by omega) hT hne
          (hstale.imp_right fun ⟨hd, h⟩ => ⟨hd, by
            have h : J.olimit ≤ s.op + 2 + 6 + (k + 240) / 255 := h
            show J.olimit ≤ s.op + 2 + (k + 240) / 255 + 6
            omega⟩)
        refine ⟨r, hnext, hr, Nat.lt_of_le_of_lt hrank ?_⟩
        show 2 * (J.iend - (s.ip + k + 4)) + 3 < 2 * (J.iend - s.anchor) + 2
        omega

end Lz4
end Twrp

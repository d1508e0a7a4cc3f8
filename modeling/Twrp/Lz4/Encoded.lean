/-
# `lz4.c`: what the compressor returns

The step lemmas are put together: from its first search on the compressor reaches the last
literals, or gives up because the output is limited, and what it has written is a block for
the input, or, when it fills `dst`, for as much of the input as it says (`compressInput_spec`).
Every step makes what can still follow shorter (`rank`), so the run ends.
-/

import Twrp.Lz4.Encoding

namespace Twrp
namespace Lz4

open Bytes Lz

/-- What a call has to leave behind. -/
structure Result.Ok (J : Job) (r : Result) : Prop where
  size : r.mem.length = J.dstSize
  filed : Filed J r.hashTable J.iend
  block : r.value = 0 ∧ r.inputConsumed = none ∧ J.outputDirective = .limitedOutput ∨
    ∃ c ≤ J.iend, BlockFor (r.mem.take r.value) (J.src.take c) ∧ 0 < r.value ∧
      r.value ≤ J.dstSize ∧
      (J.outputDirective = .fillOutput ∧ r.inputConsumed = some c ∧
          (c < J.iend → J.dstSize ≤ r.value + 1) ∨
        J.outputDirective ≠ .fillOutput ∧ r.inputConsumed = none ∧ c = J.iend)

variable {J : Job} {s : Enc} {seqs : List Sequence}

/-! ### The last literals -/

/-- How many literals `_last_literals` emits: all that are left, or as many as fit, with at most
one byte of `dst` to spare. -/
theorem lastRun_bounds {op n olimit : ℕ} (hop : op < olimit)
    (hover : op + n + 1 + (n + 255 - 15) / 255 > olimit) :
    olimit - op - 1 - (olimit - op - 1 + 256 - 15) / 256 ≤ n ∧
      op + 1 + (olimit - op - 1 - (olimit - op - 1 + 256 - 15) / 256 + 240) / 255 +
        (olimit - op - 1 - (olimit - op - 1 + 256 - 15) / 256) ≤ olimit ∧
      olimit ≤ op + 1 + (olimit - op - 1 - (olimit - op - 1 + 256 - 15) / 256 + 240) / 255 +
        (olimit - op - 1 - (olimit - op - 1 + 256 - 15) / 256) + 1 := by
  omega

/-- The last literals, `n` of them, behind what has been emitted. -/
theorem Emitted.lastBytes (hs : Emitted J s seqs) {n : ℕ} (hn : s.anchor + n ≤ J.iend)
    (hroom : s.op + 1 + (n + 240) / 255 + n ≤ J.dstSize)
    (hend : ∀ u ∈ seqs.getLast?, 5 ≤ n ∧ 12 ≤ u.matchLength + n) :
    ∃ op m₁ m₂, putLiteralLength J s.mem s.op n = some (op, m₁) ∧
      memcpy J.buffers m₁ op (.src s.anchor) n = some m₂ ∧ op + n ≤ J.dstSize ∧
      op = s.op + 1 + (n + 240) / 255 ∧
      m₂.length = J.dstSize ∧ BlockFor (m₂.take (op + n)) (J.src.take (s.anchor + n)) := by
  obtain ⟨m₁, h1, hm1⟩ := putLiteralLength_spec (n := n) hs.wrote (by omega)
  obtain ⟨m₂, h2, hm2⟩ := putLast_spec (n := n) hm1 (by omega) hn
  refine ⟨_, m₁, m₂, h1, h2, by omega, by omega, hm2.size, ?_⟩
  have hlen : (slice J.src s.anchor n).length = n := by
    have : J.iend = J.src.length := rfl
    rw [length_slice]
    omega
  have hblock := hs.encodes.blockFor hend hn
  rwa [Block.lastBytes, hlen, ← List.cons_append, ← List.append_assoc, ← hm2.take_eq] at hblock

/-- **`_last_literals`.** -/
theorem lastLiterals_spec (hJ : J.Ok) (hs : Emitted J s seqs) (hT : Filed J s.hashTable J.iend) :
    ∃ r, lastLiterals J s = some r ∧ r.Ok J := by
  have hop := hs.op_le
  have hle := hs.encodes.le_length
  have hiend : J.iend = J.src.length := rfl
  obtain ⟨n, hn⟩ : ∃ n, n = J.iend - s.anchor := ⟨_, rfl⟩
  simp only [lastLiterals, ← hn]
  by_cases hover : J.outputDirective ≠ .notLimited ∧
      s.op + n + 1 + (n + 255 - 15) / 255 > J.olimit
  · rw [if_pos hover]
    by_cases hfill : J.outputDirective = .fillOutput
    · have hlim := hJ.limited hover.1
      have hroom := hs.room hfill
      obtain ⟨hkn, hkend, hkfull⟩ := lastRun_bounds hroom hover.2
      obtain ⟨k, hk⟩ : ∃ k, k = J.olimit - s.op - 1 - (J.olimit - s.op - 1 + 256 - 15) / 256 :=
        ⟨_, rfl⟩
      rw [← hk] at hkn hkend hkfull
      obtain ⟨op, m₁, m₂, h1, h2, hfit, hop', hsize, hblock⟩ := hs.lastBytes (n := k) (by omega)
        (by omega) fun u hu => by
          have htail := hs.tail u hu
          have h6 := htail.2.2.1 hover.1
          have hmin := u.min_match
          by_cases hshort : u.matchLength < 19
          · have := htail.2.2.2 hfill hshort
            omega
          · omega
      have hfull : J.dstSize ≤ op + k + 1 := by omega
      simp only [if_pos hfill, guard, if_pos hroom, Option.pure_def, Option.bind_eq_bind,
        Option.bind_some, ← hk, h1, h2, if_pos (show 0 < op + k by omega)]
      exact ⟨_, rfl, hsize, hT, Or.inr ⟨s.anchor + k, by omega, hblock,
        show 0 < op + k by omega, hfit, Or.inl ⟨hfill, rfl, fun _ => hfull⟩⟩⟩
    · simp only [if_neg hfill, Option.bind_eq_bind, Option.bind_some]
      refine ⟨_, rfl, hs.wrote.size, hT, Or.inl ⟨rfl, rfl, ?_⟩⟩
      cases hd : J.outputDirective with
      | notLimited => exact absurd hd hover.1
      | limitedOutput => rfl
      | fillOutput => exact absurd hd hfill
  · have hroom : s.op + 1 + (n + 240) / 255 + n ≤ J.dstSize := by
      by_cases hd : J.outputDirective = .notLimited
      · have := hJ.notLimited hd
        omega
      · have := hJ.limited hd
        have : ¬s.op + n + 1 + (n + 255 - 15) / 255 > J.olimit := fun h => hover ⟨hd, h⟩
        omega
    obtain ⟨op, m₁, m₂, h1, h2, hfit, hop', hsize, hblock⟩ := hs.lastBytes (n := n) (by omega) hroom
      fun u hu => by
        have htail := hs.tail u hu
        omega
    rw [if_neg hover]
    simp only [Option.bind_eq_bind, Option.bind_some, h1, h2, guard,
      if_pos (show 0 < op + n by omega), Option.pure_def]
    refine ⟨_, rfl, hsize, hT, Or.inr ⟨s.anchor + n, by omega, hblock, show 0 < op + n by omega,
      hfit, ?_⟩⟩
    by_cases hfill : J.outputDirective = .fillOutput
    · exact Or.inl ⟨hfill, if_pos hfill, fun h => absurd h (by omega)⟩
    · exact Or.inr ⟨hfill, if_neg hfill, by omega⟩

/-! ### The whole run -/

/-- **From every label on** the compressor comes to an end. -/
theorem run_spec (hJ : J.Ok) (h13 : 13 ≤ J.iend) {fuel : ℕ} {next : Next} (hr : Reached J next)
    (hfuel : rank J next ≤ fuel) : ∃ r, run J fuel next = some r ∧ r.Ok J := by
  induction fuel generalizing next with
  | zero =>
    cases next <;> simp only [rank] at hfuel <;> omega
  | succ fuel ih =>
    cases next with
    | search s h =>
      obtain ⟨r, hstep, hr', hlt⟩ := searchStep_spec hJ h13 hr
      rw [run, hstep, Option.bind_some]
      exact ih hr' (by omega)
    | nextMatch s f p t =>
      obtain ⟨r, hstep, hr', hlt⟩ := matchStep_spec hJ hr
      rw [run, hstep, Option.bind_some]
      exact ih hr' (by omega)
    | lastLiterals s =>
      obtain ⟨⟨seqs, hs⟩, hT⟩ := hr
      exact lastLiterals_spec hJ hs hT
    | fail s => exact ⟨_, rfl, hr.2.1, hr.2.2, Or.inl ⟨rfl, rfl, hr.1⟩⟩

/-- **The compressor** never faults and leaves behind what it has to. -/
theorem compressInput_spec (hJ : J.Ok) {mem : Mem} {table : HashTable}
    (hm : mem.length = J.dstSize) (hT : Filed J table 0)
    (hroom : J.outputDirective = .fillOutput → 0 < J.olimit) :
    ∃ r, compressInput J mem table = some r ∧ r.Ok J := by
  have hiend : J.iend = J.src.length := rfl
  have hstart : ∀ (ip : ℕ) (t : HashTable), Emitted J ⟨ip, 0, 0, mem, t⟩ [] := fun ip t =>
    ⟨Wrote.nil hm, Encodes.nil (Nat.zero_le _), nofun, hroom⟩
  rw [compressInput]
  by_cases h13 : J.src.length < 13
  · rw [if_pos h13]
    exact lastLiterals_spec hJ (hstart 0 table) (hT.mono (Nat.zero_le _))
  · obtain ⟨h₀, hh₀, hhash₀⟩ := hashPosition_eq hJ (show 0 + 8 ≤ J.iend by omega)
    obtain ⟨t, hput, hT'⟩ := hT.put hJ (show 0 + 12 ≤ J.iend by omega) hh₀ hhash₀
    obtain ⟨h₁, hh₁, hhash₁⟩ := hashPosition_eq hJ (show 1 + 8 ≤ J.iend by omega)
    rw [Nat.add_zero] at hput
    rw [if_neg h13]
    simp only [hhash₀, hput, hhash₁, Option.bind_eq_bind, Option.bind_some]
    exact run_spec hJ (by omega) ⟨⟨[], hstart 1 t⟩, Nat.one_pos, show 1 + 11 ≤ J.iend by omega, hh₁,
      hhash₁, hT'⟩ (Nat.add_le_add_right (Nat.mul_le_mul_left 2 (Nat.sub_le _ _)) 3)

end Lz4
end Twrp

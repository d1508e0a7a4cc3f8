/-
# `lz4.c`: the hash table and the search

The table leads from the hash of a position to the last position that had it, and the search
asks it about one position after the other.  `Filed J table n` says what is in it: every entry
is `0`, or from an earlier call (below `startIndex`), or a position of this call below `n`
which stands under its own hash.  So a candidate lies in front of the position it is asked
for, and one that passes the tests repeats there for four bytes (`candidate_spec`,
`findMatch_spec`); and when a match is made shorter than what has been searched already,
clearing the hashes of the positions behind it clears these positions (`clearPositions_spec`).
-/

import Twrp.Lz4.Counting

namespace Twrp
namespace Lz4

open Bytes Lz

/-- What the callers of the compressor see to. -/
structure Job.Ok (J : Job) : Prop where
  tableType : J.tableType ≠ .clearedTable
  index_lt : J.startIndex + J.iend < 2 ^ 31 - 1
  index_lt16 : J.tableType = .byU16 → J.startIndex + J.iend < 65536 + 11
  acceleration : 1 ≤ J.acceleration
  /-- What an earlier call has left in the table is to be told from what belongs to this one. -/
  dictSmall : J.dictIssue = .dictSmall → J.prefixIdxLimit = J.startIndex
  noDictIssue : J.dictIssue = .noDictIssue → J.startIndex = 0
  notLimited : J.outputDirective = .notLimited → J.iend + J.iend / 255 + 16 ≤ J.dstSize
  limited : J.outputDirective ≠ .notLimited → J.olimit = J.dstSize

variable {J : Job} {table : HashTable} {n p h : ℕ}

/-! ### Hashes -/

theorem hashPosition_eq (hJ : J.Ok) (hp : p + 8 ≤ J.iend) :
    ∃ h < tableSize J.tableType, hashPosition J.src p J.tableType = some h := by
  have hiend : J.iend = J.src.length := rfl
  rw [hashPosition]
  cases ht : J.tableType with
  | clearedTable => exact absurd ht hJ.tableType
  | byU32 =>
    rw [if_pos (by decide), readWord_eq (by omega)]
    refine ⟨_, ?_, rfl⟩
    simp only [hash5, tableSize, reduceCtorEq, if_false, Nat.shiftRight_eq_div_pow]
    omega
  | byU16 =>
    rw [if_neg (by decide), readWord_eq (by omega)]
    refine ⟨_, ?_, rfl⟩
    simp only [hash4, tableSize, if_true, Nat.shiftRight_eq_div_pow]
    omega

/-! ### What is in the table -/

/-- Every entry is `0`, from an earlier call, or a position below `n` under its own hash. -/
def Filed (J : Job) (table : HashTable) (n : ℕ) : Prop :=
  ∀ h, table h = 0 ∨ table h < J.startIndex ∨ table h < J.startIndex + n ∧
    hashPosition J.src (table h - J.startIndex) J.tableType = some h

namespace Filed

theorem mono (hT : Filed J table n) {k : ℕ} (hk : n ≤ k) : Filed J table k :=
  fun h => (hT h).imp_right (Or.imp_right (And.imp_left fun hlt => by omega))

/-- What the table leads to is in front of every position that has not been put there. -/
theorem lt (hT : Filed J table n) (h : ℕ) (hp : n ≤ p) (hpos : 0 < p) :
    table h < J.startIndex + p := by
  rcases hT h with h0 | h0 | h0 <;> omega

theorem get (hT : Filed J table n) (hh : h < tableSize J.tableType) (hp : n ≤ p) (hpos : 0 < p) :
    ∃ e, getIndexOnHash h table J.tableType = some e ∧ e < J.startIndex + p :=
  ⟨table h, if_pos hh, hT.lt h hp hpos⟩

/-- A position put under its hash. -/
theorem put (hT : Filed J table n) (hJ : J.Ok) (hp : p + 12 ≤ J.iend)
    (hh : h < tableSize J.tableType) (hhash : hashPosition J.src p J.tableType = some h) :
    ∃ table', putIndexOnHash (J.startIndex + p) h table J.tableType = some table' ∧
      Filed J table' (max n (p + 1)) := by
  have h16 : J.tableType = .byU16 → J.startIndex + p < 65536 := fun h16 => by
    have := hJ.index_lt16 h16
    omega
  refine ⟨_, if_pos ⟨hh, h16⟩, fun k => ?_⟩
  by_cases hk : k = h
  · rw [hk, Function.update_self]
    refine Or.inr (Or.inr ⟨by omega, ?_⟩)
    rwa [Nat.add_sub_cancel_left]
  · rw [Function.update_of_ne hk]
    exact (hT.mono (le_max_left _ _)) k

end Filed

/-! ### Candidates -/

/-- A match of four bytes at least for `ip`. -/
structure IsMatch (J : Job) (ip pos : ℕ) : Prop where
  lt : pos < ip
  near : ip - pos ≤ 65535
  repeats : Repeats J.src (ip - pos) ip (ip + 4)

/-- **The tests of a candidate** read nothing outside the input, and what passes them is a
match. -/
theorem candidate_spec (hJ : J.Ok) {ip e : ℕ} (hip : ip + 12 ≤ J.iend)
    (he : e < J.startIndex + ip) :
    ∃ r, candidate J e ip = some r ∧ ∀ pos, r = some pos → IsMatch J ip pos := by
  have hiend : J.iend = J.src.length := rfl
  simp only [candidate]
  by_cases hsmall : J.dictIssue = .dictSmall ∧ e < J.prefixIdxLimit
  · exact ⟨none, if_pos hsmall, fun _ h => absurd h (by simp)⟩
  · have hstart : J.startIndex ≤ e := by
      cases hd : J.dictIssue with
      | noDictIssue => rw [hJ.noDictIssue hd]; exact Nat.zero_le e
      | dictSmall =>
        rw [← hJ.dictSmall hd]
        exact Nat.not_lt.1 fun hlt => hsmall ⟨hd, hlt⟩
    simp only [if_neg hsmall, guard, if_pos he, Option.bind_eq_bind, Option.pure_def,
      Option.bind_some]
    by_cases hfar : J.tableType ≠ .byU16 ∧ e + 65535 < J.startIndex + ip
    · exact ⟨none, if_pos hfar, fun _ h => absurd h (by simp)⟩
    · have hnear : J.startIndex + ip - e ≤ 65535 := by
        by_cases h16 : J.tableType = .byU16
        · have := hJ.index_lt16 h16
          omega
        · have : ¬e + 65535 < J.startIndex + ip := fun hlt => hfar ⟨h16, hlt⟩
          omega
      obtain ⟨pos, rfl⟩ := Nat.exists_eq_add_of_le hstart
      have hread : ((J.startIndex + pos : ℕ) : ℤ) - J.startIndex = (pos : ℕ) := by omega
      simp only [if_neg hfar, if_pos hnear, Option.bind_some, hread, Nat.add_sub_cancel_left,
        readWord_eq (show pos + 4 ≤ J.src.length by omega),
        readWord_eq (show ip + 4 ≤ J.src.length by omega)]
      refine ⟨_, rfl, fun q hq => ?_⟩
      split_ifs at hq with heq
      obtain rfl := Option.some.inj hq
      exact ⟨by omega, by omega, repeats_of_word_eq (by omega) (by omega) heq⟩

/-! ### The loop -/

/-- What the search leaves behind. -/
def Found.Ok (J : Job) (ip₀ : ℕ) : Found → Prop
  | .nothing table => Filed J table J.iend
  | .found ip pos table => ip₀ ≤ ip ∧ ip + 12 ≤ J.iend ∧ IsMatch J ip pos ∧ Filed J table (ip + 1)

/-- **The search** ends, at the end of the input or with a match. -/
theorem findMatch_spec (hJ : J.Ok) (h13 : 13 ≤ J.iend) {fuel ip step nb : ℕ}
    (hT : Filed J table ip) (hpos : 0 < ip) (hip : ip + 11 ≤ J.iend) (hstep : 1 ≤ step)
    (hnb : 64 ≤ nb) (hh : h < tableSize J.tableType)
    (hhash : hashPosition J.src ip J.tableType = some h) (hfuel : J.iend < ip + fuel) :
    ∃ r, findMatch J fuel ip step nb h table = some r ∧ r.Ok J ip := by
  have hlimit : J.mflimitPlusOne = J.iend - 12 + 1 := rfl
  have hindex := hJ.index_lt
  induction fuel generalizing ip step nb h table with
  | zero => omega
  | succ fuel ih =>
    obtain ⟨e, hget, he⟩ := hT.get hh le_rfl hpos
    simp only [findMatch, hget, Option.bind_eq_bind, Option.bind_some, guard, if_pos he.le,
      Option.pure_def, if_pos (show J.startIndex + ip < 2 ^ 31 - 1 by omega)]
    by_cases hend : ip + step > J.mflimitPlusOne
    · exact ⟨_, if_pos hend, hT.mono (by omega)⟩
    · obtain ⟨h', hh', hhash'⟩ := hashPosition_eq hJ (show ip + step + 8 ≤ J.iend by omega)
      obtain ⟨table', hput, hT'⟩ := hT.put hJ (show ip + 12 ≤ J.iend by omega) hh hhash
      rw [Nat.max_eq_right (Nat.le_succ ip)] at hT'
      obtain ⟨r, hcand, hr⟩ := candidate_spec hJ (show ip + 12 ≤ J.iend by omega) he
      simp only [if_neg hend, if_pos (show ip < J.mflimitPlusOne by omega), hhash', hput, hcand,
        Option.bind_some]
      cases r with
      | some pos => exact ⟨_, rfl, le_rfl, by omega, hr pos rfl, hT'⟩
      | none =>
        have hstep' : 1 ≤ nb >>> 6 := by
          rw [Nat.shiftRight_eq_div_pow]
          omega
        obtain ⟨r, hrun, hr⟩ := ih (hT'.mono (by omega)) (by omega) (by omega) hstep'
          (show 64 ≤ nb + 1 by omega) hh' hhash' (show J.iend < ip + step + fuel by omega)
        refine ⟨r, hrun, ?_⟩
        cases r with
        | nothing t => exact hr
        | found ip' pos t => exact ⟨by have := hr.1; omega, hr.2⟩

/-! ### Positions behind a shorter match -/

/-- Clearing the hash of a position clears nothing but what stands under it. -/
theorem clearPositions_eq (hJ : J.Ok) (table : HashTable) {k : ℕ} (hp : p + k + 7 ≤ J.iend) :
    ∃ table', clearPositions J k p table = some table' ∧ ∀ h, table' h = 0 ∨
      table' h = table h ∧ ∀ q, p ≤ q → q < p + k → hashPosition J.src q J.tableType ≠ some h := by
  induction k generalizing p table with
  | zero => exact ⟨table, rfl, fun h => Or.inr ⟨rfl, fun q hq hq' => by omega⟩⟩
  | succ k ih =>
    obtain ⟨e, he, hhash⟩ := hashPosition_eq hJ (show p + 8 ≤ J.iend by omega)
    obtain ⟨table', hclear, hsame⟩ := ih (p := p + 1) (Function.update table e 0) (by omega)
    refine ⟨table', ?_, fun h => ?_⟩
    · simp only [clearPositions, hhash, clearHash, if_pos he, Option.bind_eq_bind,
        Option.bind_some, hclear]
    · rcases hsame h with h0 | ⟨heq, hne⟩
      · exact Or.inl h0
      · by_cases hhe : h = e
        · rw [heq, hhe, Function.update_self]
          exact Or.inl rfl
        · rw [Function.update_of_ne hhe] at heq
          refine Or.inr ⟨heq, fun q hq hq' => ?_⟩
          rcases Nat.eq_or_lt_of_le hq with rfl | hlt
          · rw [hhash]
            exact fun h' => hhe (Option.some.inj h').symm
          · exact hne q hlt (by omega)

/-- **After clearing from `p` on nothing in the table is as far as `p`.** -/
theorem clearPositions_spec (hJ : J.Ok) {k : ℕ} (hp : p + k + 7 ≤ J.iend)
    (hT : Filed J table (p + k)) :
    ∃ table', clearPositions J k p table = some table' ∧ Filed J table' p := by
  obtain ⟨table', hclear, hsame⟩ := clearPositions_eq hJ table hp
  refine ⟨table', hclear, fun h => ?_⟩
  rcases hsame h with h0 | ⟨heq, hne⟩
  · exact Or.inl h0
  · rw [heq]
    rcases hT h with h0 | h0 | ⟨hlt, hhash⟩
    · exact Or.inl h0
    · exact Or.inr (Or.inl h0)
    · refine Or.inr (Or.inr ⟨?_, hhash⟩)
      by_contra hge
      exact hne _ (by omega) (by omega) hhash

end Lz4
end Twrp

/-
# `LN` of `init.c`: a number in the log

`LN` writes a number into `char buf[32]` from the back: a newline at 30, the NUL in
front of it at 29, then the digits, each in front of the last, and the sign.  `L` takes
the text with `strlen`, which stops at the NUL, so the newline behind it is stored and
never logged.

For the rest the function is right, for all 64-bit numbers: every store is inside the
array and what is logged is the decimal text of the number (`LN_eq`).  The negation of
the least `long` wraps, and its conversion to `unsigned long` is the right magnitude.
-/

import Twrp.Bootstrap.Memory

namespace Twrp
namespace Init

open Bytes Interaction
open Bootstrap (Buf CArray Sys sys)

/-! ### The source -/

/-- `L`: a string and its length go to the log, when there is one. -/
def L (logfd : ℤ) (s : Buf) : Sys Unit :=
  if 0 ≤ logfd then do
    let _ ← sys (.write logfd s)
    let _ ← sys (.fsync logfd)
    pure ()
  else pure ()

/-- `*--p = b`, with the pointer as an offset; a pointer in front of the array faults. -/
def push (buf : CArray 32) (p : ℕ) (b : UInt8) : Sys (CArray 32 × ℕ) :=
  if 0 < p then do
    let buf ← buf.store (p - 1) b
    pure (buf, p - 1)
  else .fault

/-- `while (u) { *--p = '0' + u % 10; u /= 10; }`. -/
def digits (buf : CArray 32) (p : ℕ) (u : UInt64) : Sys (CArray 32 × ℕ) :=
  if u = 0 then pure (buf, p)
  else do
    let (buf, p) ← push buf p (48 + u % 10).toUInt8
    digits buf p (u / 10)
termination_by u.toNat
decreasing_by
  rename_i hu
  have hpos : u.toNat ≠ 0 := fun h => hu (UInt64.toNat_inj.1 h)
  rw [UInt64.toNat_div]
  exact Nat.div_lt_self (by omega) (by decide)

/-- The string at `p`, up to its NUL, which has to be in the array. -/
def strAt (buf : CArray 32) (p : ℕ) : Sys Buf :=
  if (0 : UInt8) ∈ buf.bytes.drop p then pure (cstr (buf.bytes.drop p)) else .fault

/-- `LN`; `buf` is what the array holds at first. -/
def LN (logfd : ℤ) (buf : CArray 32) (v : Int64) : Sys Unit := do
  let buf ← buf.store 30 10
  let (buf, p) ← push buf 30 0
  let (buf, p) ← (
    if v = 0 then push buf p 48
    else do
      let u := if v < 0 then (-v).toUInt64 else v.toUInt64
      let (buf, p) ← digits buf p u
      if v < 0 then push buf p 45 else pure (buf, p))
  let s ← strAt buf p
  L logfd s

/-! ### The text -/

/-- The decimal text of a number, without leading zeros. -/
def decimal (i : ℤ) : Buf := ascii (toString i)

/-- The digits of a natural number as bytes. -/
def digitBytes (n : ℕ) : Buf := (Nat.toDigits 10 n).map fun c => UInt8.ofNat c.toNat

theorem decimal_natCast (n : ℕ) : decimal n = digitBytes n := by
  show ascii n.repr = digitBytes n
  rw [ascii, Nat.toList_repr, digitBytes]

theorem decimal_neg {n : ℕ} (h : 0 < n) : decimal (-n) = 45 :: digitBytes n := by
  obtain ⟨m, rfl⟩ := Nat.exists_eq_succ_of_ne_zero h.ne'
  show ascii ("-" ++ (m + 1).repr) = 45 :: digitBytes (m + 1)
  rw [ascii, String.toList_append, List.map_append, Nat.toList_repr, digitBytes]
  rfl

/-- The byte of the last digit. -/
theorem digit_eq (u : UInt64) :
    (48 + u % 10).toUInt8 = UInt8.ofNat (Nat.digitChar (u.toNat % 10)).toNat := by
  apply UInt8.toNat_inj.1
  rw [UInt64.toNat_toUInt8, UInt64.toNat_add, UInt64.toNat_mod,
    Nat.toNat_digitChar_of_lt_ten (Nat.mod_lt _ (by omega)), UInt8.toNat_ofNat']
  simp only [UInt64.reduceToNat]
  omega

/-- Digits in front, the last one behind them. -/
theorem digitBytes_eq (n : ℕ) : digitBytes n =
    (if n < 10 then [] else digitBytes (n / 10)) ++
      [UInt8.ofNat (Nat.digitChar (n % 10)).toNat] := by
  rw [digitBytes, Nat.toDigits_eq_if (by omega)]
  split_ifs with h
  · rw [Nat.mod_eq_of_lt h]
    rfl
  · rw [List.map_append, digitBytes]
    rfl

theorem length_digitBytes_pos (n : ℕ) : 0 < (digitBytes n).length := by
  rw [digitBytes, List.length_map]
  exact Nat.length_toDigits_pos

/-- No more than twenty digits. -/
theorem length_digitBytes_le (u : UInt64) : (digitBytes u.toNat).length ≤ 20 := by
  rw [digitBytes, List.length_map, Nat.length_toDigits_le_iff (by omega) (by omega)]
  exact lt_trans u.toNat_lt (by decide)

theorem zero_notMem_digitBytes (n : ℕ) : (0 : UInt8) ∉ digitBytes n := by
  intro h
  obtain ⟨c, hc, h0⟩ := List.mem_map.1 h
  have hdigit : c.isDigit := Nat.isDigit_of_mem_toDigits (by omega) (by omega) hc
  obtain ⟨hlow, hhigh⟩ := Char.isDigit_iff_toNat.1 hdigit
  have hlow : 48 ≤ c.toNat := hlow
  have hhigh : c.toNat ≤ 57 := hhigh
  have hbyte : (UInt8.ofNat c.toNat).toNat = c.toNat :=
    UInt8.toNat_ofNat_of_lt' (show c.toNat < 256 by omega)
  rw [h0] at hbyte
  exact absurd hbyte.symm (by rw [UInt8.toNat_zero]; omega)

/-- The magnitude of a number, as `LN` computes it. -/
theorem toNat_magnitude (v : Int64) :
    (if v < 0 then (-v).toUInt64 else v.toUInt64).toNat = v.toInt.natAbs := by
  have hint : v.toInt = v.toBitVec.toInt := rfl
  have hlt : v < 0 ↔ v.toInt < 0 := Int64.lt_iff_toInt_lt
  have hcond := BitVec.toInt_eq_toNat_cond v.toBitVec
  have hbound := v.toBitVec.isLt
  simp only [hlt]
  split_ifs with h
  · show (-v.toBitVec).toNat = _
    rw [BitVec.toNat_neg]
    split_ifs at hcond <;> omega
  · show v.toBitVec.toNat = _
    split_ifs at hcond <;> omega

/-! ### The stores -/

/-- A store inside the array. -/
theorem store_eq (buf : CArray 32) {i : ℕ} (hi : i < 32) (b : UInt8) :
    ∃ buf', buf.store i b = .ret buf' ∧ buf'.bytes.drop i = b :: buf.bytes.drop (i + 1) := by
  obtain ⟨buf', hstore, hbytes⟩ := @CArray.memcpy_eq 32 buf i [b] hi
  have hlen : (buf.bytes.take i).length = i := by
    rw [List.length_take, buf.length_eq]
    omega
  refine ⟨buf', hstore, ?_⟩
  rw [hbytes, List.drop_left' hlen]
  rfl

/-- A store in front of what was stored. -/
theorem push_eq (buf : CArray 32) {p : ℕ} (hp : 0 < p) (hp' : p ≤ 32) (b : UInt8) :
    ∃ buf', push buf p b = .ret (buf', p - 1) ∧
      buf'.bytes.drop (p - 1) = b :: buf.bytes.drop p := by
  obtain ⟨buf', hstore, hdrop⟩ := store_eq buf (i := p - 1) (by omega) b
  rw [Nat.sub_add_cancel hp] at hdrop
  refine ⟨buf', ?_, hdrop⟩
  rw [push, if_pos hp, hstore]
  rfl

/-- **The loop puts the digits in front** of what was stored, when there is room. -/
theorem digits_eq (buf : CArray 32) {p : ℕ} (u : UInt64) (hu : u ≠ 0)
    (hp : (digitBytes u.toNat).length ≤ p) (hp' : p ≤ 32) :
    ∃ buf', digits buf p u = .ret (buf', p - (digitBytes u.toNat).length) ∧
      buf'.bytes.drop (p - (digitBytes u.toNat).length) =
        digitBytes u.toNat ++ buf.bytes.drop p := by
  induction hn : u.toNat using Nat.strong_induction_on generalizing buf p u with
  | _ n ih =>
    subst hn
    have hpos : u.toNat ≠ 0 := fun h => hu (UInt64.toNat_inj.1 h)
    have hdiv : (u / 10).toNat = u.toNat / 10 := UInt64.toNat_div ..
    have hlen := digitBytes_eq u.toNat
    obtain ⟨buf₁, hpush, hdrop⟩ := push_eq buf ((length_digitBytes_pos _).trans_le hp) hp'
      (48 + u % 10).toUInt8
    rw [digits, if_neg hu, hpush]
    show ∃ buf', digits buf₁ (p - 1) (u / 10) = _ ∧ _
    rw [digit_eq] at hdrop
    by_cases hlast : u.toNat < 10
    · have hzero : u / 10 = 0 := UInt64.toNat_inj.1 (by rw [hdiv, Nat.div_eq_of_lt hlast]; rfl)
      rw [if_pos hlast] at hlen
      rw [hlen, hzero, digits, if_pos rfl]
      exact ⟨buf₁, rfl, hdrop⟩
    · rw [if_neg hlast, ← hdiv] at hlen
      have hne : u / 10 ≠ 0 := fun h => by
        rw [h] at hdiv
        have : u.toNat / 10 = 0 := hdiv.symm
        omega
      rw [hlen, List.length_append, List.length_singleton] at hp ⊢
      obtain ⟨buf₂, hrun, hdrop₂⟩ := ih (u / 10).toNat (by omega) buf₁ (p := p - 1) (u / 10) hne
        (by omega) (by omega) rfl
      rw [Nat.sub_sub, Nat.add_comm 1] at hrun hdrop₂
      refine ⟨buf₂, hrun, ?_⟩
      rw [hdrop₂, hdrop, List.append_assoc, List.singleton_append]

/-! ### The log -/

/-- What is stored in front of the NUL is the string. -/
theorem strAt_eq {buf : CArray 32} {p : ℕ} {s rest : Buf} (h : buf.bytes.drop p = s ++ 0 :: rest)
    (hs : (0 : UInt8) ∉ s) : strAt buf p = .ret s := by
  rw [strAt, h, if_pos (by simp), cstr_append_zero, cstr_of_notMem hs]
  rfl

/-- What is stored for a number, in front of the NUL at 29. -/
theorem exists_text (buf : CArray 32) {rest : Buf} (h : buf.bytes.drop 29 = 0 :: rest) (v : Int64) :
    ∃ buf' p, (if v = 0 then push buf 29 48
      else do
        let u := if v < 0 then (-v).toUInt64 else v.toUInt64
        let (buf, p) ← digits buf 29 u
        if v < 0 then push buf p 45 else pure (buf, p)) = .ret (buf', p) ∧
      buf'.bytes.drop p = decimal v.toInt ++ 0 :: rest := by
  by_cases hv : v = 0
  · subst hv
    obtain ⟨buf', hpush, hdrop⟩ := push_eq buf (p := 29) (by omega) (by omega) 48
    rw [if_pos rfl]
    exact ⟨buf', 28, hpush, hdrop.trans (by rw [h]; rfl)⟩
  · have hint : v.toInt ≠ 0 := fun h0 => hv (Int64.toInt_inj.1 h0)
    have hmag := toNat_magnitude v
    have hlt : v < 0 ↔ v.toInt < 0 := Int64.lt_iff_toInt_lt
    rw [if_neg hv]
    dsimp only
    generalize (if v < 0 then (-v).toUInt64 else v.toUInt64) = u at hmag
    have hu : u ≠ 0 := by
      rintro rfl
      exact hint (Int.natAbs_eq_zero.1 hmag.symm)
    have hlen := length_digitBytes_le u
    obtain ⟨buf₁, hrun, hdrop⟩ := digits_eq buf (p := 29) u hu (by omega) (by omega)
    rw [hmag] at hlen hrun hdrop
    rw [h] at hdrop
    rw [hrun]
    show ∃ buf' p, (if v < 0 then push buf₁ _ 45 else pure (buf₁, _)) = _ ∧ _
    by_cases hneg : v < 0
    · obtain ⟨buf₂, hpush, hdrop₂⟩ := push_eq buf₁ (p := 29 - (digitBytes v.toInt.natAbs).length)
        (by omega) (by omega) 45
      have hdec : decimal v.toInt = 45 :: digitBytes v.toInt.natAbs := by
        have htext := decimal_neg (Int.natAbs_pos.2 hint)
        rwa [Int.ofNat_natAbs_of_nonpos (hlt.1 hneg).le, neg_neg] at htext
      rw [if_pos hneg]
      exact ⟨buf₂, _, hpush, by rw [hdrop₂, hdrop, hdec]; rfl⟩
    · have hdec : decimal v.toInt = digitBytes v.toInt.natAbs := by
        have hge0 : 0 ≤ v.toInt := not_lt.1 fun h => hneg (hlt.2 h)
        have htext := decimal_natCast v.toInt.natAbs
        rwa [Int.natAbs_of_nonneg hge0] at htext
      rw [if_neg hneg]
      exact ⟨buf₁, _, rfl, by rw [hdrop, hdec]⟩

theorem zero_notMem_decimal (i : ℤ) : (0 : UInt8) ∉ decimal i := by
  rcases lt_or_ge i 0 with hi | hi
  · rw [show i = -(i.natAbs : ℤ) by omega, decimal_neg (by omega), List.mem_cons, not_or]
    exact ⟨by decide, zero_notMem_digitBytes _⟩
  · rw [show i = (i.natAbs : ℤ) by omega, decimal_natCast]
    exact zero_notMem_digitBytes _

/-- **`LN` logs the decimal text and no newline,** and no store leaves the array. -/
theorem LN_eq (logfd : ℤ) (buf : CArray 32) (v : Int64) :
    LN logfd buf v = L logfd (decimal v.toInt) := by
  obtain ⟨buf₁, hnewline, hdrop₁⟩ := store_eq buf (i := 30) (by omega) 10
  obtain ⟨buf₂, hnul, hdrop₂⟩ := push_eq buf₁ (p := 30) (by omega) (by omega) 0
  obtain ⟨buf₃, p, htext, hdrop₃⟩ := exists_text buf₂ hdrop₂ v
  rw [LN, hnewline, Prog.ret_bind, hnul, Prog.ret_bind]
  dsimp only
  rw [htext, Prog.ret_bind]
  dsimp only
  rw [strAt_eq hdrop₃ (zero_notMem_decimal _), Prog.ret_bind]

/-- `LN(v)` logs the text of `v` as a line of its own, and its stores are in the array. -/
def LogsLine (v : Int64) : Prop :=
  ∀ logfd buf, 0 ≤ logfd → LN logfd buf v = L logfd (decimal v.toInt ++ ascii "\n")

/-- **No number gets its newline.**  What is logged is the decimal text alone, whatever
the array held and whether or not there is a log, and no store leaves the array. -/
theorem not_logsLine (v : Int64) :
    ¬ LogsLine v ∧ ∀ logfd buf, LN logfd buf v = L logfd (decimal v.toInt) := by
  refine ⟨fun h => ?_, fun logfd buf => LN_eq logfd buf v⟩
  have hline := h 0 ⟨zeros 32, length_zeros 32⟩ le_rfl
  rw [LN_eq, L, L, if_pos le_rfl, if_pos le_rfl] at hline
  have hcall : Bootstrap.Call.write 0 (decimal v.toInt) =
      .write 0 (decimal v.toInt ++ ascii "\n") := (Prog.call.inj hline).1
  have htext : decimal v.toInt = decimal v.toInt ++ ascii "\n" := (Bootstrap.Call.write.inj hcall).2
  exact absurd (List.self_eq_append_right.1 htext) (by decide)

/-- **The number zero:** one byte is logged. -/
theorem LN_zero :
    LN 3 ⟨zeros 32, length_zeros 32⟩ 0 = L 3 (ascii "0") ∧ ¬ LogsLine 0 := by
  refine ⟨LN_eq 3 _ 0, fun h => ?_⟩
  have hline := h 3 ⟨zeros 32, length_zeros 32⟩ (by omega)
  rw [LN_eq, L, L, if_pos (by omega), if_pos (by omega)] at hline
  have hcall : Bootstrap.Call.write 3 (ascii "0") = .write 3 (ascii "0\n") :=
    (Prog.call.inj hline).1
  exact absurd hcall (by decide)

end Init
end Twrp

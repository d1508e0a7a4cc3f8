/-
# Numerals of a fixed width

Archive headers spell numbers with eight hexadecimal digits, image headers with
four or eight bytes, most or least significant first.  All of them are positional
notation of a fixed width: `toDigits B w n` is the `w` digits of `n` in base `B`,
most significant first, and `fromDigits B` evaluates a digit string
(`Nat.ofDigits` of the reversed list).  `hexValue`, `beNat` and `leNat` are its
instances for hexadecimal text and for bytes.
-/

import Twrp.Bytes.Slice
import Mathlib.Data.Nat.Digits.Defs
import Mathlib.Data.Nat.Log
import Mathlib.Data.List.Induction

namespace Bytes

/-! ### Positional notation -/

/-- The value of a digit string, most significant digit first. -/
def fromDigits (B : ℕ) (ds : List ℕ) : ℕ := ds.foldl (fun v d => v * B + d) 0

/-- The last `w` digits of `n`, most significant first. -/
def toDigits (B : ℕ) : ℕ → ℕ → List ℕ
  | 0, _ => []
  | w + 1, n => toDigits B w (n / B) ++ [n % B]

/-- Without digits the value is `0`. -/
@[simp] theorem fromDigits_nil (B : ℕ) : fromDigits B [] = 0 := rfl

/-- A digit written behind a string: the value moves up one place. -/
@[simp] theorem fromDigits_concat (B : ℕ) (ds : List ℕ) (d : ℕ) :
    fromDigits B (ds ++ [d]) = fromDigits B ds * B + d := by
  simp [fromDigits]

/-- The value is the one of the library, which reads the digits from the last on. -/
theorem fromDigits_eq_ofDigits (B : ℕ) (ds : List ℕ) :
    fromDigits B ds = Nat.ofDigits B ds.reverse := by
  induction ds using List.reverseRecOn with
  | nil => rfl
  | append_singleton ds d ih =>
    rw [fromDigits_concat, List.reverse_append, List.reverse_singleton, List.singleton_append,
      Nat.ofDigits_cons, ih, Nat.add_comm, Nat.mul_comm]

/-- A string of `w` digits denotes a number below `B ^ w`. -/
theorem fromDigits_lt {B : ℕ} (hB : 1 < B) {ds : List ℕ} (h : ∀ d ∈ ds, d < B) :
    fromDigits B ds < B ^ ds.length := by
  rw [fromDigits_eq_ofDigits, ← List.length_reverse]
  exact Nat.ofDigits_lt_base_pow_length hB fun d hd => h d (List.mem_reverse.1 hd)

/-- A numeral is as wide as it is asked to be. -/
@[simp] theorem length_toDigits (B w n : ℕ) : (toDigits B w n).length = w := by
  induction w generalizing n with
  | zero => rfl
  | succ w ih => rw [toDigits, List.length_append, ih, List.length_singleton]

/-- What stands in a numeral is a digit of its base. -/
theorem lt_of_mem_toDigits {B : ℕ} (hB : 0 < B) {w n d : ℕ} (h : d ∈ toDigits B w n) : d < B := by
  induction w generalizing n with
  | zero => exact absurd h List.not_mem_nil
  | succ w ih =>
    rcases List.mem_append.1 h with h | h
    · exact ih h
    · rw [List.mem_singleton.1 h]
      exact Nat.mod_lt n hB

/-- **Writing and reading a numeral.**  The last `w` digits of `n` denote `n`
modulo `B ^ w`. -/
theorem fromDigits_toDigits (B w n : ℕ) : fromDigits B (toDigits B w n) = n % B ^ w := by
  induction w generalizing n with
  | zero => simp [toDigits, Nat.mod_one]
  | succ w ih =>
    rw [toDigits, fromDigits_concat, ih, Nat.pow_succ', Nat.mod_mul, Nat.mul_comm, Nat.add_comm]

/-! ### Hexadecimal text -/

/-- The lower-case hexadecimal digit of `d < 16`, in ASCII. -/
def hexChar (d : ℕ) : UInt8 := UInt8.ofNat (if d < 10 then 48 + d else 87 + d)

/-- The value of a hexadecimal digit of either case. -/
def hexDigit? (c : UInt8) : Option ℕ :=
  if 48 ≤ c ∧ c ≤ 57 then some (c.toNat - 48)
  else if 97 ≤ c ∧ c ≤ 102 then some (c.toNat - 97 + 10)
  else if 65 ≤ c ∧ c ≤ 70 then some (c.toNat - 65 + 10)
  else none

/-- The value of a string of hexadecimal digits; any other byte counts as `0`. -/
def hexValue (b : List UInt8) : ℕ := fromDigits 16 (b.map fun c => (hexDigit? c).getD 0)

/-- `n` in lower-case hexadecimal, at least `8` digits wide: `format(n, '08x')`. -/
def fmt08x (n : ℕ) : List UInt8 := (toDigits 16 (max 8 (Nat.log 16 n + 1)) n).map hexChar

/-- A written digit reads back. -/
theorem hexDigit?_hexChar {d : ℕ} (h : d < 16) : hexDigit? (hexChar d) = some d := by
  decide +revert

/-- A digit that is read is below `16`. -/
theorem hexDigit?_lt {c : UInt8} {d : ℕ} (h : hexDigit? c = some d) : d < 16 := by
  unfold hexDigit? at h
  split_ifs at h with h1 h2 h3 <;> simp only [UInt8.le_iff_toNat_le, Option.some.injEq] at * <;>
    simp at * <;> omega

/-- Text of `w` bytes denotes a number below `16 ^ w`, whatever it holds. -/
theorem hexValue_lt (b : List UInt8) : hexValue b < 16 ^ b.length := by
  have hlt : ∀ d ∈ b.map fun c => (hexDigit? c).getD 0, d < 16 := by
    intro d hd
    obtain ⟨c, -, rfl⟩ := List.mem_map.1 hd
    cases hc : hexDigit? c with
    | none => exact Nat.succ_pos 15
    | some x => exact hexDigit?_lt hc
  simpa only [hexValue, List.length_map] using fromDigits_lt (by omega) hlt

/-- Below `2 ^ 32` the minimal width is the width. -/
theorem fmt08x_eq {n : ℕ} (h : n < 2 ^ 32) : fmt08x n = (toDigits 16 8 n).map hexChar := by
  have : Nat.log 16 n < 8 := by
    rcases Nat.eq_zero_or_pos n with rfl | hn
    · simp
    · exact Nat.log_lt_of_lt_pow hn.ne' (by simpa using h)
  rw [fmt08x, Nat.max_eq_left (by omega)]

/-- Below `2 ^ 32` a formatted number fits its field of eight bytes. -/
theorem length_fmt08x {n : ℕ} (h : n < 2 ^ 32) : (fmt08x n).length = 8 := by
  rw [fmt08x_eq h, List.length_map, length_toDigits]

/-- A formatted number holds hexadecimal digits only. -/
theorem isSome_hexDigit?_of_mem_fmt08x {n : ℕ} {c : UInt8} (h : c ∈ fmt08x n) :
    (hexDigit? c).isSome := by
  obtain ⟨d, hd, rfl⟩ := List.mem_map.1 h
  rw [hexDigit?_hexChar (lt_of_mem_toDigits (by omega) hd)]
  rfl

/-- **A formatted number reads back,** however wide it is. -/
theorem hexValue_fmt08x (n : ℕ) : hexValue (fmt08x n) = n := by
  have hmap (w : ℕ) : ((toDigits 16 w n).map hexChar).map (fun c => (hexDigit? c).getD 0)
      = toDigits 16 w n := by
    rw [List.map_map]
    refine (List.map_congr_left fun d hd => ?_).trans (List.map_id _)
    rw [Function.comp_apply, hexDigit?_hexChar (lt_of_mem_toDigits (by omega) hd)]
    rfl
  have hlt : n < 16 ^ max 8 (Nat.log 16 n + 1) :=
    (Nat.lt_pow_succ_log_self (by omega) n).trans_le
      (Nat.pow_le_pow_right (by omega) (le_max_right _ _))
  rw [fmt08x, hexValue, hmap, fromDigits_toDigits, Nat.mod_eq_of_lt hlt]

/-- Different numbers are formatted differently. -/
theorem fmt08x_injective : Function.Injective fmt08x :=
  Function.LeftInverse.injective hexValue_fmt08x

/-! ### Integers in bytes -/

/-- An unsigned big-endian integer. -/
def beNat (b : List UInt8) : ℕ := fromDigits 256 (b.map UInt8.toNat)

/-- `n` in `w` bytes, most significant first. -/
def beBytes (w n : ℕ) : List UInt8 := (toDigits 256 w n).map UInt8.ofNat

/-- An unsigned little-endian integer. -/
def leNat (b : List UInt8) : ℕ := beNat b.reverse

/-- `n` in `w` bytes, least significant first. -/
def leBytes (w n : ℕ) : List UInt8 := (beBytes w n).reverse

/-- `w` bytes are `w` bytes long. -/
@[simp] theorem length_beBytes (w n : ℕ) : (beBytes w n).length = w := by
  rw [beBytes, List.length_map, length_toDigits]

/-- `w` bytes are `w` bytes long, in the other order too. -/
@[simp] theorem length_leBytes (w n : ℕ) : (leBytes w n).length = w := by
  rw [leBytes, List.length_reverse, length_beBytes]

/-- A stored integer reads back, as far as its bytes hold it. -/
theorem beNat_beBytes (w n : ℕ) : beNat (beBytes w n) = n % 256 ^ w := by
  have hmap : ((toDigits 256 w n).map UInt8.ofNat).map UInt8.toNat = toDigits 256 w n := by
    rw [List.map_map]
    refine (List.map_congr_left fun d hd => ?_).trans (List.map_id _)
    have hd : d < 256 := lt_of_mem_toDigits (by omega) hd
    exact UInt8.toNat_ofNat_of_lt' hd
  rw [beNat, beBytes, hmap, fromDigits_toDigits]

/-- A stored integer reads back, in the other order too. -/
theorem leNat_leBytes (w n : ℕ) : leNat (leBytes w n) = n % 256 ^ w := by
  rw [leNat, leBytes, List.reverse_reverse, beNat_beBytes]

/-- `w` bytes hold a number below `256 ^ w`. -/
theorem leNat_lt (b : List UInt8) : leNat b < 256 ^ b.length := by
  have hlt : ∀ d ∈ b.reverse.map UInt8.toNat, d < 256 := by
    intro d hd
    obtain ⟨x, -, rfl⟩ := List.mem_map.1 hd
    exact x.toNat_lt
  simpa only [leNat, beNat, List.length_map, List.length_reverse] using
    fromDigits_lt (by omega) hlt

end Bytes

/-
# Python's byte buffers: slices, slice assignment and `struct`

Offsets are integers, and a negative one counts from the end.  A slice is clamped
to the buffer and never fails, a slice assignment may change the length of the
buffer, and `struct` refuses what does not fit.  For offsets inside the buffer all
of these are the plain `slice` and `splice` (`assign_eq`, `unpackFrom_eq`,
`packInto_eq`).
-/

import Twrp.Bytes.Digits

namespace Python

open Bytes

/-- A slice bound as an offset: counted from the end when negative, and clamped. -/
def bound (len : ℕ) (i : ℤ) : ℕ := min len (if i < 0 then i + len else i).toNat

/-- `d[i:]`. -/
def sliceFrom (d : List UInt8) (i : ℤ) : List UInt8 := d.drop (bound d.length i)

/-- `d[i:j]`. -/
def sliceOf (d : List UInt8) (i j : ℤ) : List UInt8 :=
  (d.take (bound d.length j)).drop (bound d.length i)

/-- `d[i:j] = x`. -/
def assign (d : List UInt8) (i j : ℤ) (x : List UInt8) : List UInt8 :=
  splice d (bound d.length i) (bound d.length j) x

/-- `d[i:] = x`. -/
def assignFrom (d : List UInt8) (i : ℤ) (x : List UInt8) : List UInt8 :=
  splice d (bound d.length i) d.length x

/-- Where `struct` finds `w` bytes at `off`; `none` where it raises `struct.error`. -/
def window (len : ℕ) (off : ℤ) (w : ℕ) : Option ℕ :=
  if off < 0 ∧ (0 < off + w ∨ off + len < 0) then none
  else
    let i := (if off < 0 then off + len else off).toNat
    if i + w ≤ len then some i else none

/-- The `w` bytes that `struct.unpack_from` reads at `off`. -/
def unpackFrom (w : ℕ) (d : List UInt8) (off : ℤ) : Option (List UInt8) :=
  (window d.length off w).map fun i => slice d i w

/-- The little-endian numbers in the fields of the widths `ws`, one behind the other. -/
def fields : List ℕ → List UInt8 → List ℕ
  | [], _ => []
  | w :: ws, b => leNat (b.take w) :: fields ws (b.drop w)

/-- `struct.unpack_from` with a little-endian format of unsigned fields. -/
def unpackFields (ws : List ℕ) (d : List UInt8) (off : ℤ) : Option (List ℕ) :=
  (unpackFrom ws.sum d off).map (fields ws)

/-- A number of `w` bytes in two's complement. -/
def toSigned (w n : ℕ) : ℤ := if n < 2 ^ (8 * w - 1) then n else (n : ℤ) - 2 ^ (8 * w)

/-- `d.find(bytes([b]), start)`. -/
def find (d : List UInt8) (b : UInt8) (start : ℕ) : ℤ :=
  match (d.drop start).findIdx? (· = b) with
  | some k => start + k
  | none => -1

/-- `struct.pack_into` of the packed bytes `x` at `off`. -/
def packInto (d : List UInt8) (off : ℤ) (x : List UInt8) : Option (List UInt8) :=
  (window d.length off x.length).map fun i => splice d i (i + x.length) x

/-- The `w` bytes of `n`, most significant first; `none` where it does not fit. -/
def packBE (w n : ℕ) : Option (List UInt8) := if n < 256 ^ w then some (beBytes w n) else none

/-- The `w` bytes of `n`, least significant first; `none` where it does not fit. -/
def packLE (w n : ℕ) : Option (List UInt8) := if n < 256 ^ w then some (leBytes w n) else none

/-- `struct.pack` with a little-endian format: the width and the value of each field. -/
def packFields : List (ℕ × ℕ) → Option (List UInt8)
  | [] => some []
  | (w, n) :: fs => do
    let x ← packLE w n
    let rest ← packFields fs
    some (x ++ rest)

/-- `bytes(n)` and `b'\x00' * n`: a size must fit a signed 64-bit integer. -/
def zeroBytes (n : ℕ) : Option (List UInt8) := if n < 2 ^ 63 then some (zeros n) else none

/-- `bytearray(n)`, which refuses a negative size, too. -/
def byteArray (n : ℤ) : Option (List UInt8) := if n < 0 then none else zeroBytes n.toNat

/-! ### Offsets inside the buffer -/

/-- A bound that is not negative is only clamped. -/
theorem bound_natCast (len i : ℕ) : bound len i = min len i := by
  rw [bound, if_neg (by omega), Int.toNat_natCast]

/-- A size below `2 ^ 63` is not refused. -/
theorem byteArray_natCast {n : ℕ} (h : n < 2 ^ 63) : byteArray n = some (zeros n) := by
  rw [byteArray, if_neg (by omega), Int.toNat_natCast, zeroBytes, if_pos h]

/-- A number that fits its field is packed. -/
theorem packLE_eq {w n : ℕ} (h : n < 256 ^ w) : packLE w n = some (leBytes w n) := if_pos h

/-- Fields that fit are packed one behind the other. -/
theorem packFields_eq {fs : List (ℕ × ℕ)} (h : ∀ f ∈ fs, f.2 < 256 ^ f.1) :
    packFields fs = some (fs.flatMap fun f => leBytes f.1 f.2) := by
  induction fs with
  | nil => rfl
  | cons f fs ih =>
    obtain ⟨hf, hfs⟩ := List.forall_mem_cons.1 h
    rw [packFields, packLE_eq hf, ih hfs]
    rfl

/-- What was packed is unpacked. -/
theorem fields_leBytes {fs : List (ℕ × ℕ)} (h : ∀ f ∈ fs, f.2 < 256 ^ f.1) :
    fields (fs.map Prod.fst) (fs.flatMap fun f => leBytes f.1 f.2) = fs.map Prod.snd := by
  induction fs with
  | nil => rfl
  | cons f fs ih =>
    obtain ⟨hf, hfs⟩ := List.forall_mem_cons.1 h
    rw [List.map_cons, List.map_cons, List.flatMap_cons, fields,
      List.take_left' (length_leBytes ..), List.drop_left' (length_leBytes ..), leNat_leBytes,
      Nat.mod_eq_of_lt hf, ih hfs]

/-- One field that does not fit is enough. -/
theorem packFields_eq_none {fs : List (ℕ × ℕ)} {f : ℕ × ℕ} (hf : f ∈ fs) (h : 256 ^ f.1 ≤ f.2) :
    packFields fs = none := by
  induction fs with
  | nil => exact absurd hf List.not_mem_nil
  | cons g fs ih =>
    rw [packFields]
    rcases List.mem_cons.1 hf with rfl | hf
    · rw [packLE, if_neg (Nat.not_lt.2 h)]
      rfl
    · rw [ih hf]
      cases packLE g.1 g.2 <;> rfl

/-- From an offset that is not negative, the slice is what is left there. -/
theorem sliceFrom_eq (d : List UInt8) (i : ℕ) : sliceFrom d i = d.drop i := by
  rw [sliceFrom, bound_natCast]
  rcases Nat.le_total d.length i with h | h
  · rw [Nat.min_eq_left h, List.drop_length, List.drop_eq_nil_of_le h]
  · rw [Nat.min_eq_right h]

/-- From a negative one, it is the last bytes. -/
theorem sliceFrom_neg {d : List UInt8} {n : ℕ} (hn : 0 < n) (h : n ≤ d.length) :
    sliceFrom d (-n) = d.drop (d.length - n) := by
  have hb : bound d.length (-n) = d.length - n := by
    rw [bound, if_pos (by omega)]
    omega
  rw [sliceFrom, hb]

/-- Between offsets that are not negative, the slice is the plain one, clamped or not. -/
theorem sliceOf_eq (d : List UInt8) (i n : ℕ) : sliceOf d i (i + n : ℕ) = slice d i n := by
  rw [sliceOf, bound_natCast, bound_natCast, slice]
  rcases Nat.le_total d.length i with h | h
  · rw [Nat.min_eq_left h, List.drop_eq_nil_of_le (by rw [List.length_take]; omega),
      List.drop_eq_nil_of_le h, List.take_nil]
  · rw [Nat.min_eq_right h, List.drop_take]
    rcases Nat.le_total d.length (i + n) with hj | hj
    · rw [Nat.min_eq_left hj, List.take_of_length_le (by rw [List.length_drop]),
        List.take_of_length_le (by rw [List.length_drop]; omega)]
    · rw [Nat.min_eq_right hj, Nat.add_sub_cancel_left]

/-- Inside the buffer, a slice assignment puts the bytes in place of the slice. -/
theorem assign_eq {d : List UInt8} {i j : ℕ} (hi : i ≤ d.length) (hj : j ≤ d.length)
    (x : List UInt8) : assign d i j x = splice d i j x := by
  rw [assign, bound_natCast, bound_natCast, Nat.min_eq_right hi, Nat.min_eq_right hj]

/-- Overwriting as many bytes by a slice assignment never shortens the buffer. -/
theorem length_assign_ge (d : List UInt8) (i : ℕ) (x : List UInt8) :
    d.length ≤ (assign d i (i + x.length : ℕ) x).length := by
  rw [assign, bound_natCast, bound_natCast, splice]
  simp only [List.length_append, List.length_take, List.length_drop]
  omega

/-- A slice assignment that starts inside the buffer and reaches past its end makes the
buffer longer. -/
theorem length_assign_gt {d : List UInt8} {i : ℕ} {x : List UInt8} (hx : x ≠ [])
    (h : d.length < i + x.length) :
    d.length < (assign d i (i + x.length : ℕ) x).length := by
  have hpos := List.length_pos_iff.2 hx
  rw [assign, bound_natCast, bound_natCast, splice]
  simp only [List.length_append, List.length_take, List.length_drop]
  omega

/-- A window inside the buffer is found where it is asked for. -/
theorem window_natCast {len i w : ℕ} (h : i + w ≤ len) : window len i w = some i := by
  have hi : (if (i : ℤ) < 0 then (i : ℤ) + len else i).toNat = i := by
    rw [if_neg (by omega), Int.toNat_natCast]
  rw [window, if_neg (by omega)]
  dsimp only
  rw [hi, if_pos h]

/-- A window asked for from the end is found there. -/
theorem window_neg {len n w : ℕ} (hw : w ≤ n) (hn : n ≤ len) (h0 : 0 < n) :
    window len (-n) w = some (len - n) := by
  have hi : (if (-n : ℤ) < 0 then (-n : ℤ) + len else -n).toNat = len - n := by
    rw [if_pos (by omega)]
    omega
  rw [window, if_neg (by omega)]
  dsimp only
  rw [hi, if_pos (by omega)]

/-- What is unpacked inside the buffer is the slice. -/
theorem unpackFrom_eq {w : ℕ} {d : List UInt8} {i : ℕ} (h : i + w ≤ d.length) :
    unpackFrom w d i = some (slice d i w) := by
  rw [unpackFrom, window_natCast h, Option.map_some]

/-- The numbers of the widths `ws` that stand at `i`. -/
def fieldsAt (d : List UInt8) : List ℕ → ℕ → List ℕ
  | [], _ => []
  | w :: ws, i => leNat (slice d i w) :: fieldsAt d ws (i + w)

/-- The fields of a record are the numbers at their places. -/
theorem fields_slice (ws : List ℕ) (d : List UInt8) (i : ℕ) :
    fields ws (slice d i ws.sum) = fieldsAt d ws i := by
  induction ws generalizing i with
  | nil => rfl
  | cons w ws ih =>
    have htake : (slice d i (w + ws.sum)).take w = slice d i w := by
      rw [slice, List.take_take, Nat.min_eq_left (Nat.le_add_right ..), slice]
    rw [List.sum_cons, fields, htake, drop_slice, Nat.add_sub_cancel_left, ih, fieldsAt]

/-- Several fields are unpacked at their places. -/
theorem unpackFields_eq {ws : List ℕ} {d : List UInt8} {i : ℕ} (h : i + ws.sum ≤ d.length) :
    unpackFields ws d i = some (fieldsAt d ws i) := by
  rw [unpackFields, unpackFrom_eq h, Option.map_some, fields_slice]

/-- The sign is of no matter for a small number. -/
theorem toSigned_eq_iff {w n k : ℕ} (hk : k < 2 ^ (8 * w - 1)) (hn : n < 2 ^ (8 * w)) :
    toSigned w n = k ↔ n = k := by
  unfold toSigned
  split_ifs with h
  · exact Nat.cast_inj
  · have hneg : (n : ℤ) < 2 ^ (8 * w) := by exact_mod_cast hn
    omega

/-- The first zero byte behind bytes that are not zero. -/
theorem find_eq {d b rest : List UInt8} {i : ℕ} (hd : d.drop i = b ++ 0 :: rest)
    (hb : (0 : UInt8) ∉ b) : find d 0 i = (i + b.length : ℕ) := by
  have hfirst : (b ++ 0 :: rest).findIdx? (· = 0) = some b.length := by
    have hnone : b.findIdx? (· = 0) = none :=
      List.findIdx?_eq_none_iff.2 fun x hx => by simpa using fun h0 : x = 0 => hb (h0 ▸ hx)
    rw [List.findIdx?_append, hnone, Option.none_or, List.findIdx?_cons, if_pos (by simp)]
    simp
  rw [find, hd, hfirst]
  push_cast
  rfl

/-- What is packed inside the buffer stands there, and the rest is kept. -/
theorem packInto_eq {d x : List UInt8} {i : ℕ} (h : i + x.length ≤ d.length) :
    packInto d i x = some (splice d i (i + x.length) x) := by
  rw [packInto, window_natCast h, Option.map_some]

/-- Writing a blank buffer from the front. -/
theorem packInto_append_zeros {a x : List UInt8} {i m n : ℕ} (hi : i = a.length)
    (hm : m = x.length + n) : packInto (a ++ zeros m) i x = some (a ++ x ++ zeros n) := by
  subst hi hm
  rw [packInto_eq (by rw [List.length_append, length_zeros]; omega), splice,
    Nat.max_eq_right (Nat.le_add_right ..), List.take_left, List.drop_append, zeros_add,
    List.drop_eq_nil_of_le (Nat.le_add_right ..), List.nil_append, Nat.add_sub_cancel_left,
    List.drop_left' (length_zeros _)]

end Python

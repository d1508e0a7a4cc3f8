/-
# Python's readings of bytes as text

`int(b, 16)` and `b.decode(errors='replace')` accept more than the plain forms:
the first takes surrounding white space, a sign, a `0x` prefix and single
underscores between digits, the second decodes UTF-8 and puts U+FFFD in place of
every maximal piece of a broken sequence.  The lemmas say that nothing of this
matters for plain hexadecimal digits (`int16_of_hex`) and that only the ASCII bytes
themselves decode to an ASCII text (`decodeReplace_eq_iff`), and that what was encoded
is decoded whatever its characters (`decodeReplace_encode`).  The strict `b.decode()` is
Lean's own UTF-8 decoder.
-/

import Twrp.Bytes.Digits
import Twrp.Bytes.Text
import Mathlib.Data.List.DropRight

namespace Python

open Bytes

/-! ### Integers -/

/-- The white space of C's `isspace`. -/
def isSpace (b : UInt8) : Bool := b == 32 || (9 ≤ b && b ≤ 13)

/-- A sign in front of a literal, and what follows it. -/
def sign : List UInt8 → ℤ × List UInt8
  | 43 :: r => (1, r)
  | 45 :: r => (-1, r)
  | r => (1, r)

/-- `0x` or `0X` dropped from the front, with one underscore behind it. -/
def dropPrefix16 : List UInt8 → List UInt8
  | 48 :: 120 :: 95 :: r | 48 :: 88 :: 95 :: r => r
  | 48 :: 120 :: r | 48 :: 88 :: r => r
  | r => r

/-- `int(b, 16)`; `none` where it raises `ValueError`. -/
def int16 (b : List UInt8) : Option ℤ :=
  let (sgn, r) := sign (b.dropWhile isSpace)
  let groups := ((dropPrefix16 r).rdropWhile isSpace).splitOn 95
  if groups.all fun g => !g.isEmpty && g.all fun c => (hexDigit? c).isSome then
    some (sgn * hexValue groups.flatten)
  else none

/-- A hexadecimal digit comes behind the signs and the blanks. -/
theorem le_of_hex {c : UInt8} (h : (hexDigit? c).isSome) : 48 ≤ c := by
  unfold hexDigit? at h
  split_ifs at h with h1 h2 h3
  · exact h1.1
  · exact UInt8.le_trans (show (48 : UInt8) ≤ 97 by decide) h2.1
  · exact UInt8.le_trans (show (48 : UInt8) ≤ 65 by decide) h3.1
  · simp at h

/-- A hexadecimal digit is no white space. -/
theorem isSpace_of_hex {c : UInt8} (h : (hexDigit? c).isSome) : isSpace c = false := by
  have h48 := UInt8.le_iff_toNat_le.1 (le_of_hex h)
  have h32 : c ≠ 32 := by
    rintro rfl
    exact absurd h48 (by decide)
  have h13 : ¬ c ≤ 13 := fun h13 => absurd (h48.trans (UInt8.le_iff_toNat_le.1 h13)) (by decide)
  simp [isSpace, h32, h13]

/-- Digits have no sign in front. -/
theorem sign_of_hex {b : List UInt8} (h : ∀ c ∈ b, (hexDigit? c).isSome) : sign b = (1, b) := by
  unfold sign
  split
  · exact absurd (h 43 (List.mem_cons_self ..)) (by decide)
  · exact absurd (h 45 (List.mem_cons_self ..)) (by decide)
  · rfl

/-- Digits have no `0x` in front. -/
theorem dropPrefix16_of_hex {b : List UInt8} (h : ∀ c ∈ b, (hexDigit? c).isSome) :
    dropPrefix16 b = b := by
  unfold dropPrefix16
  split
  · exact absurd (h 120 (List.mem_cons_of_mem _ (List.mem_cons_self ..))) (by decide)
  · exact absurd (h 88 (List.mem_cons_of_mem _ (List.mem_cons_self ..))) (by decide)
  · exact absurd (h 120 (List.mem_cons_of_mem _ (List.mem_cons_self ..))) (by decide)
  · exact absurd (h 88 (List.mem_cons_of_mem _ (List.mem_cons_self ..))) (by decide)
  · rfl

/-- **Plain digits** are read as what they are. -/
theorem int16_of_hex {b : List UInt8} (hne : b ≠ []) (h : ∀ c ∈ b, (hexDigit? c).isSome) :
    int16 b = some (hexValue b) := by
  have hleft : b.dropWhile isSpace = b :=
    List.dropWhile_eq_self_iff.2 fun hl => by simp [isSpace_of_hex (h _ (List.getElem_mem hl))]
  have hright : b.rdropWhile isSpace = b :=
    List.rdropWhile_eq_self_iff.2 fun hl => by simp [isSpace_of_hex (h _ (List.getLast_mem hl))]
  have hsplit : b.splitOn 95 = [b] :=
    List.splitOn_eq_singleton fun h95 => absurd (h 95 h95) (by decide)
  unfold int16
  rw [hleft, sign_of_hex h]
  dsimp only
  rw [dropPrefix16_of_hex h, hright, hsplit, if_pos (by simpa using ⟨hne, h⟩)]
  simp

/-! ### Text -/

/-- The ranges of the bytes that follow a lead byte; `none` for a byte that cannot
lead. -/
def continuations (b : UInt8) : Option (List (ℕ × ℕ)) :=
  let n := b.toNat
  if n < 0x80 then some []
  else if 0xC2 ≤ n ∧ n ≤ 0xDF then some [(0x80, 0xBF)]
  else if n = 0xE0 then some [(0xA0, 0xBF), (0x80, 0xBF)]
  else if n = 0xED then some [(0x80, 0x9F), (0x80, 0xBF)]
  else if 0xE1 ≤ n ∧ n ≤ 0xEF then some [(0x80, 0xBF), (0x80, 0xBF)]
  else if n = 0xF0 then some [(0x90, 0xBF), (0x80, 0xBF), (0x80, 0xBF)]
  else if n = 0xF4 then some [(0x80, 0x8F), (0x80, 0xBF), (0x80, 0xBF)]
  else if 0xF1 ≤ n ∧ n ≤ 0xF3 then some [(0x80, 0xBF), (0x80, 0xBF), (0x80, 0xBF)]
  else none

/-- How many of the bytes lie in their ranges, up to the first that does not. -/
def matched : List (ℕ × ℕ) → List UInt8 → ℕ
  | r :: rs, b :: bs => if r.1 ≤ b.toNat ∧ b.toNat ≤ r.2 then matched rs bs + 1 else 0
  | _, _ => 0

/-- The code point of a lead byte and its continuation bytes. -/
def codePoint (b : UInt8) (tail : List UInt8) : ℕ :=
  tail.foldl (fun v c => v * 64 + c.toNat % 64)
    (if tail = [] then b.toNat else b.toNat % 2 ^ (6 - tail.length))

/-- U+FFFD, which stands in for what cannot be decoded. -/
def replacement : Char := Char.ofNat 0xFFFD

/-- `b.decode(errors='replace')`. -/
def decodeReplace : List UInt8 → List Char
  | [] => []
  | b :: bs =>
    match continuations b with
    | none => replacement :: decodeReplace bs
    | some rs =>
      let k := matched rs bs
      (if k = rs.length then Char.ofNat (codePoint b (bs.take k)) else replacement) ::
        decodeReplace (bs.drop k)
termination_by bs => bs.length

/-- `b.decode()`; `none` where it raises `UnicodeDecodeError`. -/
def decode (b : List UInt8) : Option (List Char) :=
  b.toByteArray.utf8Decode?.map Array.toList

/-- What was encoded and cut at a NUL can be decoded. -/
theorem isSome_decode_cstr_encode (s : String) : (decode (cstr (encode s))).isSome := by
  rw [encode, cstr_flatMap_utf8EncodeChar, decode, ← List.utf8Encode, List.utf8Decode?_utf8Encode]
  rfl

/-- A sequence of bytes in their ranges, the first one taken apart. -/
theorem matched_cons {r : ℕ × ℕ} {rs : List (ℕ × ℕ)} {bs : List UInt8}
    (h : matched (r :: rs) bs = (r :: rs).length) :
    ∃ x t, bs = x :: t ∧ r.1 ≤ x.toNat ∧ x.toNat ≤ r.2 ∧ matched rs t = rs.length := by
  cases bs with
  | nil => exact absurd h (Nat.succ_ne_zero _).symm
  | cons x t =>
    rw [matched] at h
    split_ifs at h with hr
    exact ⟨x, t, rfl, hr.1, hr.2, Nat.succ.inj h⟩

/-- A sequence of more than one byte spells no ASCII character. -/
theorem le_codePoint {b : UInt8} {rs : List (ℕ × ℕ)} {bs : List UInt8}
    (hb : continuations b = some rs) (hne : rs ≠ []) (hk : matched rs bs = rs.length) :
    128 ≤ (Char.ofNat (codePoint b (bs.take rs.length))).toNat := by
  suffices h : 128 ≤ codePoint b (bs.take rs.length) ∧
      Nat.isValidChar (codePoint b (bs.take rs.length)) by
    rw [Char.ofNat, dif_pos h.2]
    exact h.1
  have hbl := b.toNat_lt
  have two : ∀ {x : UInt8} {t : List UInt8}, codePoint b ((x :: t).take 1) =
      b.toNat % 32 * 64 + x.toNat % 64 := by
    intros
    rfl
  have three : ∀ {x y : UInt8} {t : List UInt8}, codePoint b ((x :: y :: t).take 2) =
      (b.toNat % 16 * 64 + x.toNat % 64) * 64 + y.toNat % 64 := by
    intros
    rfl
  have four : ∀ {x y z : UInt8} {t : List UInt8}, codePoint b ((x :: y :: z :: t).take 3) =
      ((b.toNat % 8 * 64 + x.toNat % 64) * 64 + y.toNat % 64) * 64 + z.toNat % 64 := by
    intros
    rfl
  unfold continuations at hb
  unfold Nat.isValidChar
  dsimp only at hb
  split_ifs at hb <;> obtain rfl := Option.some.inj hb
  · exact absurd rfl hne
  all_goals obtain ⟨x, t, rfl, hx1, hx2, hk⟩ := matched_cons hk
  · simp only [List.length_cons, List.length_nil, Nat.reduceAdd, two]
    omega
  all_goals
    obtain ⟨y, t, rfl, hy1, hy2, hk⟩ := matched_cons hk
    simp only [List.length_cons, List.length_nil, Nat.reduceAdd]
  iterate 3
    · rw [three]
      omega
  all_goals
    obtain ⟨z, t, rfl, hz1, hz2, -⟩ := matched_cons hk
    rw [four]
    omega

/-- Below 128 a number is a character. -/
theorem toNat_ofNat_of_lt {n : ℕ} (h : n < 128) : (Char.ofNat n).toNat = n := by
  rw [Char.ofNat, dif_pos (Or.inl (by omega))]
  rfl

/-- An ASCII byte spells itself. -/
theorem decodeReplace_cons_of_lt {b : UInt8} (hb : b.toNat < 128) (bs : List UInt8) :
    decodeReplace (b :: bs) = Char.ofNat b.toNat :: decodeReplace bs := by
  have hc : continuations b = some [] := if_pos hb
  rw [decodeReplace, hc]
  rfl

/-- Any other byte starts with a character that is not ASCII. -/
theorem decodeReplace_cons_of_le {b : UInt8} (hb : 128 ≤ b.toNat) (bs : List UInt8) :
    ∃ c cs, decodeReplace (b :: bs) = c :: cs ∧ 128 ≤ c.toNat := by
  rw [decodeReplace]
  cases hc : continuations b with
  | none => exact ⟨_, _, rfl, by decide⟩
  | some rs =>
    refine ⟨_, _, rfl, ?_⟩
    split_ifs with hk
    · have hne : rs ≠ [] := by
        rintro rfl
        unfold continuations at hc
        dsimp only at hc
        rw [if_neg (by omega)] at hc
        split_ifs at hc <;> exact absurd (Option.some.inj hc) (by simp)
      rw [hk]
      exact le_codePoint hc hne hk
    · decide

/-- **Only the bytes of an ASCII text decode to it,** whatever else is replaced. -/
theorem decodeReplace_eq_iff {b : List UInt8} {s : String} (hs : IsAscii s) :
    decodeReplace b = s.toList ↔ b = ascii s := by
  unfold IsAscii at hs
  unfold ascii
  generalize s.toList = cs at hs ⊢
  induction cs generalizing b with
  | nil =>
    cases b with
    | nil => simp [decodeReplace]
    | cons x bs =>
      rcases Nat.lt_or_ge x.toNat 128 with hx | hx
      · simp [decodeReplace_cons_of_lt hx]
      · obtain ⟨c, cs, h, -⟩ := decodeReplace_cons_of_le hx bs
        simp [h]
  | cons c cs ih =>
    obtain ⟨hc, hcs⟩ := List.forall_mem_cons.1 hs
    cases b with
    | nil => simp [decodeReplace]
    | cons x bs =>
      have hbyte : (UInt8.ofNat c.toNat).toNat = c.toNat :=
        UInt8.toNat_ofNat_of_lt' (lt_trans hc (by decide))
      rw [List.map_cons, List.cons.injEq, ← ih hcs]
      rcases Nat.lt_or_ge x.toNat 128 with hx | hx
      · rw [decodeReplace_cons_of_lt hx, List.cons.injEq]
        refine and_congr_left fun _ => ⟨?_, ?_⟩
        · rintro rfl
          rw [toNat_ofNat_of_lt hx, UInt8.ofNat_toNat]
        · rintro rfl
          rw [hbyte, Char.ofNat_toNat]
      · obtain ⟨y, ys, h, hy⟩ := decodeReplace_cons_of_le hx bs
        rw [h, List.cons.injEq]
        refine iff_of_false ?_ ?_
        · rintro ⟨rfl, -⟩
          omega
        · rintro ⟨rfl, -⟩
          omega

/-! ### What was encoded -/

/-- The bytes `b :: tail` are one sequence, of the code point `v`. -/
def Spells (b : UInt8) (tail : List UInt8) (v : ℕ) : Prop :=
  ∃ rs, continuations b = some rs ∧
    List.Forall₂ (fun r c => r.1 ≤ c.toNat ∧ c.toNat ≤ r.2) rs tail ∧ codePoint b tail = v

/-- Bytes in their ranges are matched, whatever follows. -/
theorem matched_append {rs : List (ℕ × ℕ)} {tail : List UInt8}
    (h : List.Forall₂ (fun r c => r.1 ≤ c.toNat ∧ c.toNat ≤ r.2) rs tail) (bs : List UInt8) :
    matched rs (tail ++ bs) = rs.length := by
  induction h with
  | nil => rfl
  | cons hc _ ih => rw [List.cons_append, matched, if_pos hc, ih, List.length_cons]

/-- A whole sequence is decoded to its character. -/
theorem Spells.decodeReplace {b : UInt8} {tail : List UInt8} {v : ℕ} (h : Spells b tail v)
    (bs : List UInt8) :
    decodeReplace (b :: (tail ++ bs)) = Char.ofNat v :: decodeReplace bs := by
  obtain ⟨rs, hb, htail, rfl⟩ := h
  have hk : matched rs (tail ++ bs) = tail.length :=
    (matched_append htail bs).trans htail.length_eq
  rw [Python.decodeReplace, hb]
  dsimp only
  rw [hk, if_pos htail.length_eq.symm, List.take_left, List.drop_left]

/-- The byte for six bits of a code point. -/
theorem toNat_continuation (n : ℕ) : (UInt8.ofNat (n % 64 + 0x80)).toNat = n % 64 + 0x80 :=
  UInt8.toNat_ofNat_of_lt' (show n % 64 + 0x80 < 256 by omega)

/-- A continuation byte is in its range. -/
theorem continuation_mem (n : ℕ) : 0x80 ≤ (UInt8.ofNat (n % 64 + 0x80)).toNat ∧
    (UInt8.ofNat (n % 64 + 0x80)).toNat ≤ 0xBF := by
  rw [toNat_continuation]
  omega

/-- One byte. -/
theorem spells_one {v : ℕ} (hv : v < 0x80) : Spells (UInt8.ofNat v) [] v := by
  have hlead : (UInt8.ofNat v).toNat = v :=
    UInt8.toNat_ofNat_of_lt' (lt_trans hv (by decide))
  exact ⟨[], if_pos (hlead.trans_lt hv), .nil, hlead⟩

/-- Two bytes. -/
theorem spells_two {v : ℕ} (hv : 0x80 ≤ v) (hv' : v < 0x800) :
    Spells (UInt8.ofNat (v / 64 % 32 + 0xc0)) [UInt8.ofNat (v % 64 + 0x80)] v := by
  have hlead : (UInt8.ofNat (v / 64 % 32 + 0xc0)).toNat = v / 64 % 32 + 0xc0 :=
    UInt8.toNat_ofNat_of_lt' (show v / 64 % 32 + 0xc0 < 256 by omega)
  refine ⟨[(0x80, 0xBF)], ?_, .cons (continuation_mem v) .nil, ?_⟩
  · unfold continuations
    rw [hlead]
    dsimp only
    rw [if_neg (by omega), if_pos (by omega)]
  · simp only [codePoint, List.foldl_cons, List.foldl_nil, List.length_singleton]
    rw [hlead, toNat_continuation, if_neg (by simp)]
    omega

/-- Surrogates excepted: behind `0xED` no second byte reaches them. -/
theorem spells_three {v : ℕ} (hv : 0x800 ≤ v) (hv' : v < 0x10000)
    (hsurr : v < 0xD800 ∨ 0xDFFF < v) :
    Spells (UInt8.ofNat (v / 4096 % 16 + 0xe0))
      [UInt8.ofNat (v / 64 % 64 + 0x80), UInt8.ofNat (v % 64 + 0x80)] v := by
  have hlead : (UInt8.ofNat (v / 4096 % 16 + 0xe0)).toNat = v / 4096 % 16 + 0xe0 :=
    UInt8.toNat_ofNat_of_lt' (show v / 4096 % 16 + 0xe0 < 256 by omega)
  have hcode : codePoint (UInt8.ofNat (v / 4096 % 16 + 0xe0))
      [UInt8.ofNat (v / 64 % 64 + 0x80), UInt8.ofNat (v % 64 + 0x80)] = v := by
    simp only [codePoint, List.foldl_cons, List.foldl_nil, List.length_cons, List.length_nil]
    rw [hlead, toNat_continuation, toNat_continuation, if_neg (by simp)]
    omega
  -- two of the lead bytes admit fewer second bytes than the others
  suffices h : ∃ r : ℕ × ℕ, (r.1 ≤ v / 64 % 64 + 0x80 ∧ v / 64 % 64 + 0x80 ≤ r.2) ∧
      continuations (UInt8.ofNat (v / 4096 % 16 + 0xe0)) = some [r, (0x80, 0xBF)] by
    obtain ⟨r, hr, hb⟩ := h
    exact ⟨_, hb, .cons (by rwa [toNat_continuation]) (.cons (continuation_mem v) .nil), hcode⟩
  unfold continuations
  rw [hlead]
  dsimp only
  rw [if_neg (by omega), if_neg (by omega)]
  by_cases hlow : v / 4096 = 0
  · exact ⟨(0xA0, 0xBF), by dsimp only; omega, if_pos (by omega)⟩
  · rw [if_neg (by omega)]
    by_cases hd : v / 4096 = 0xD
    · exact ⟨(0x80, 0x9F), by dsimp only; omega, if_pos (by omega)⟩
    · rw [if_neg (by omega), if_pos (by omega)]
      exact ⟨(0x80, 0xBF), by dsimp only; omega, rfl⟩

/-- Four bytes. -/
theorem spells_four {v : ℕ} (hv : 0x10000 ≤ v) (hv' : v < 0x110000) :
    Spells (UInt8.ofNat (v / 262144 % 8 + 0xf0)) [UInt8.ofNat (v / 4096 % 64 + 0x80),
      UInt8.ofNat (v / 64 % 64 + 0x80), UInt8.ofNat (v % 64 + 0x80)] v := by
  have hlead : (UInt8.ofNat (v / 262144 % 8 + 0xf0)).toNat = v / 262144 % 8 + 0xf0 :=
    UInt8.toNat_ofNat_of_lt' (show v / 262144 % 8 + 0xf0 < 256 by omega)
  have hcode : codePoint (UInt8.ofNat (v / 262144 % 8 + 0xf0)) [UInt8.ofNat (v / 4096 % 64 + 0x80),
      UInt8.ofNat (v / 64 % 64 + 0x80), UInt8.ofNat (v % 64 + 0x80)] = v := by
    simp only [codePoint, List.foldl_cons, List.foldl_nil, List.length_cons, List.length_nil]
    rw [hlead, toNat_continuation, toNat_continuation, toNat_continuation, if_neg (by simp)]
    omega
  suffices h : ∃ r : ℕ × ℕ, (r.1 ≤ v / 4096 % 64 + 0x80 ∧ v / 4096 % 64 + 0x80 ≤ r.2) ∧
      continuations (UInt8.ofNat (v / 262144 % 8 + 0xf0)) =
        some [r, (0x80, 0xBF), (0x80, 0xBF)] by
    obtain ⟨r, hr, hb⟩ := h
    exact ⟨_, hb, .cons (by rwa [toNat_continuation])
      (.cons (continuation_mem (v / 64)) (.cons (continuation_mem v) .nil)), hcode⟩
  unfold continuations
  rw [hlead]
  dsimp only
  rw [if_neg (by omega), if_neg (by omega), if_neg (by omega), if_neg (by omega),
    if_neg (by omega)]
  by_cases hlow : v / 262144 = 0
  · exact ⟨(0x90, 0xBF), by dsimp only; omega, if_pos (by omega)⟩
  · rw [if_neg (by omega)]
    by_cases hhigh : v / 262144 = 4
    · exact ⟨(0x80, 0x8F), by dsimp only; omega, if_pos (by omega)⟩
    · rw [if_neg (by omega), if_pos (by omega)]
      exact ⟨(0x80, 0xBF), by dsimp only; omega, rfl⟩

/-- An encoded character is one sequence. -/
theorem exists_spells (c : Char) :
    ∃ b tail, String.utf8EncodeChar c = b :: tail ∧ Spells b tail c.toNat := by
  have hvalid : c.toNat < 0xD800 ∨ 0xDFFF < c.toNat ∧ c.toNat < 0x110000 := c.valid
  unfold String.utf8EncodeChar
  rw [show c.val.toNat = c.toNat from rfl]
  dsimp only
  split_ifs with h1 h2 h3
  · exact ⟨_, _, rfl, spells_one (by omega)⟩
  · exact ⟨_, _, rfl, spells_two (by omega) (by omega)⟩
  · exact ⟨_, _, rfl, spells_three (by omega) (by omega) (by omega)⟩
  · exact ⟨_, _, rfl, spells_four (by omega) (by omega)⟩

/-- **What was encoded is decoded.** -/
theorem decodeReplace_encode (s : String) : decodeReplace (encode s) = s.toList := by
  unfold encode
  induction s.toList with
  | nil => rw [List.flatMap_nil, decodeReplace]
  | cons c cs ih =>
    obtain ⟨b, tail, hc, hspells⟩ := exists_spells c
    rw [List.flatMap_cons, hc, List.cons_append, hspells.decodeReplace, ih, Char.ofNat_toNat]

end Python

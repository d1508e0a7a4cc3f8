/-
# Text in byte strings

Three readings of text meet in these tools: string literals of C, which are ASCII
(`ascii`), Python strings, which are encoded as UTF-8 when they are written
(`encode`), and C strings, which end at their first NUL byte (`cstr`).  On ASCII
text the first two agree, byte for character, and on NUL-free bytes the last one
changes nothing.
-/

import Twrp.Bytes.Slice
import Mathlib.Data.List.TakeWhile
import Mathlib.Data.List.Basic

namespace Bytes

/-- The characters of `s` as bytes, one each. -/
def ascii (s : String) : List UInt8 := s.toList.map fun c => UInt8.ofNat c.toNat

/-- `s.encode()`: the UTF-8 encoding. -/
def encode (s : String) : List UInt8 := s.toList.flatMap String.utf8EncodeChar

/-- Every character of `s` is an ASCII character. -/
def IsAscii (s : String) : Prop := ∀ c ∈ s.toList, c.toNat < 128

instance (s : String) : Decidable (IsAscii s) :=
  List.decidableBAll (fun c : Char => c.toNat < 128) s.toList

/-- The C string stored in a buffer: the bytes before the first NUL. -/
def cstr (b : List UInt8) : List UInt8 := b.takeWhile (· ≠ 0)

@[simp] theorem length_ascii (s : String) : (ascii s).length = s.length := by
  rw [ascii, List.length_map, String.length_toList]

/-- An ASCII character is one byte. -/
theorem utf8EncodeChar_of_lt {c : Char} (h : c.toNat < 128) :
    String.utf8EncodeChar c = [UInt8.ofNat c.toNat] := by
  unfold String.utf8EncodeChar
  exact if_pos (Nat.le_of_lt_succ h)

/-- **On ASCII text, encoding is one byte for each character.** -/
theorem encode_eq_ascii {s : String} (h : IsAscii s) : encode s = ascii s := by
  unfold encode ascii
  rw [List.map_eq_flatMap]
  exact List.flatMap_congr fun c hc => utf8EncodeChar_of_lt (h c hc)

/-- ASCII text is determined by its bytes. -/
theorem ascii_injOn {s t : String} (hs : IsAscii s) (ht : IsAscii t) (h : ascii s = ascii t) :
    s = t := by
  have back : ∀ {u : String}, IsAscii u →
      (ascii u).map (fun b => Char.ofNat b.toNat) = u.toList := by
    intro u hu
    rw [ascii, List.map_map]
    refine (List.map_congr_left fun c hc => ?_).trans (List.map_id _)
    have hc : c.toNat < 256 := lt_trans (hu c hc) (by omega)
    rw [Function.comp_apply, UInt8.toNat_ofNat_of_lt' hc, Char.ofNat_toNat, id]
  exact String.toList_inj.1 (by rw [← back hs, h, back ht])

/-- Only NUL is encoded with a zero byte. -/
theorem zero_notMem_utf8EncodeChar {c : Char} (hc : c ≠ Char.ofNat 0) :
    (0 : UInt8) ∉ String.utf8EncodeChar c := by
  have hv : c.val.toNat ≠ 0 := fun h => hc (Char.ext (UInt32.toNat_inj.1 h))
  have hne : ∀ {n : ℕ}, 0 < n → n < 256 → (0 : UInt8) ≠ UInt8.ofNat n := by
    intro n h0 h1 h
    have := congrArg UInt8.toNat h
    rw [UInt8.toNat_ofNat_of_lt' h1] at this
    exact h0.ne this
  unfold String.utf8EncodeChar
  intro h
  simp only at h
  split_ifs at h <;> simp only [List.mem_cons, List.not_mem_nil, or_false] at h
  · exact hne (by omega) (by omega) h
  · rcases h with h | h <;> exact hne (by omega) (by omega) h
  · rcases h with h | h | h <;> exact hne (by omega) (by omega) h
  · rcases h with h | h | h | h <;> exact hne (by omega) (by omega) h

/-- Encoding puts no NUL byte where the text has no NUL character. -/
theorem zero_notMem_encode {s : String} (h : Char.ofNat 0 ∉ s.toList) : (0 : UInt8) ∉ encode s := by
  intro h0
  obtain ⟨c, hc, h0⟩ := List.mem_flatMap.1 h0
  exact zero_notMem_utf8EncodeChar (fun he => h (he ▸ hc)) h0

/-! ### C strings -/

/-- Without a NUL a C string is all of the buffer. -/
theorem cstr_of_notMem {b : List UInt8} (h : (0 : UInt8) ∉ b) : cstr b = b :=
  List.takeWhile_eq_self_iff.2 fun x hx => by simpa using fun he : x = 0 => h (he ▸ hx)

/-- A run ends at the first element without the property. -/
theorem takeWhile_append_cons {α : Type*} {p : α → Bool} {c : α} (hc : p c = false)
    (b x : List α) : (b ++ c :: x).takeWhile p = b.takeWhile p := by
  induction b with
  | nil => exact List.takeWhile_cons_of_neg (by rw [hc]; exact Bool.false_ne_true)
  | cons y b ih =>
    by_cases hy : p y
    · rw [List.cons_append, List.takeWhile_cons_of_pos hy, List.takeWhile_cons_of_pos hy, ih]
    · rw [List.cons_append, List.takeWhile_cons_of_neg hy, List.takeWhile_cons_of_neg hy]

/-- What comes behind a NUL is not seen. -/
theorem cstr_append_zero (b x : List UInt8) : cstr (b ++ 0 :: x) = cstr b :=
  takeWhile_append_cons (by decide) b x

/-- A C string has no NUL. -/
theorem zero_notMem_cstr (b : List UInt8) : (0 : UInt8) ∉ cstr b := fun h => by
  simpa using List.mem_takeWhile_imp h

/-- A string with its NUL, in what holds one. -/
theorem exists_eq_cstr_append (b x : List UInt8) : ∃ y, b ++ 0 :: x = cstr b ++ 0 :: y := by
  induction b with
  | nil => exact ⟨x, rfl⟩
  | cons z b ih =>
    by_cases hz : z = 0
    · subst hz
      exact ⟨b ++ 0 :: x, rfl⟩
    · obtain ⟨y, hy⟩ := ih
      refine ⟨y, ?_⟩
      unfold cstr at hy ⊢
      rw [List.takeWhile_cons_of_pos (by simpa using hz), List.cons_append, hy, List.cons_append]

/-- What comes behind a fill of zeros is not seen. -/
theorem cstr_append_zeros (b : List UInt8) (n : ℕ) : cstr (b ++ zeros n) = cstr b := by
  cases n with
  | zero => rw [zeros_zero, List.append_nil]
  | succ n => exact cstr_append_zero b (zeros n)

/-- Cutting at the first NUL byte is cutting at the first NUL character. -/
theorem cstr_flatMap_utf8EncodeChar (cs : List Char) :
    cstr (cs.flatMap String.utf8EncodeChar) =
      (cs.takeWhile (· ≠ Char.ofNat 0)).flatMap String.utf8EncodeChar := by
  induction cs with
  | nil => rfl
  | cons c cs ih =>
    by_cases hc : c = Char.ofNat 0
    · subst hc
      rw [List.flatMap_cons, List.takeWhile_cons_of_neg (by decide)]
      rfl
    · have hbytes : ∀ b ∈ String.utf8EncodeChar c, decide (b ≠ 0) = true := fun b hb =>
        decide_eq_true fun h0 => zero_notMem_utf8EncodeChar hc (h0 ▸ hb)
      rw [List.flatMap_cons, List.takeWhile_cons_of_pos (by simpa using hc), List.flatMap_cons,
        ← ih, cstr, List.takeWhile_append_of_pos hbytes]
      rfl

end Bytes

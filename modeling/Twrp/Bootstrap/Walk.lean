/-
# Where the cursor of `unpack_cpio` stops

The cursor never depends on what the kernel answers.  `walk p s` is its path
alone: from offset `p`, with `s` left of the buffer, the list of the entries it
stops at and the return code it ends with.  `unpackLoop_eq` says that the C loop
is exactly this walk with `unpackNode` run at each stop, so every fact about what
the unpacker finds in an archive is a fact about `walk`, and every fact about what
it asks of the kernel is one about `unpackNode`.
-/

import Twrp.Bootstrap.Unpack

namespace Twrp
namespace Bootstrap

open Bytes Interaction Cpio

/-! ### The walk -/

/-- An entry the cursor stops at: its offset, the header fields the unpacker uses,
the name with one leading `./` removed, and the `filesize` bytes behind the name. -/
structure Stop where
  off : ℕ
  mode : UInt32
  filesize : UInt32
  rdevmaj : UInt32
  rdevmin : UInt32
  namesize : UInt32
  name : Buf
  data : Buf
  deriving DecidableEq, Repr

/-- The header field at offset `i` of the header that starts `s`. -/
def field (s : Buf) (i : ℕ) : UInt32 := (slice s i 8).foldl hxStep 0

/-- The name of the entry that starts `s`, as a C string. -/
def rawName (s : Buf) : Buf := cstr (slice s 110 ((field s 94).toNat - 1))

/-- The entry that starts `s`, met at offset `p`. -/
def stopAt (p : ℕ) (s : Buf) : Stop where
  off := p
  mode := field s 14
  filesize := field s 54
  rdevmaj := field s 78
  rdevmin := field s 86
  namesize := field s 94
  name := dropDotSlash (rawName s)
  data := slice s (110 + (field s 94).toNat) (field s 54).toNat

/-- How far the cursor moves over the entry that starts `s`. -/
def advance (s : Buf) : ℕ :=
  total (field s 94) (field s 54) + pad4 (total (field s 94) (field s 54))

/-- The cursor moves over a header at least. -/
theorem advance_pos (s : Buf) : 110 ≤ advance s := by
  unfold advance total
  omega

/-- The path of the cursor over `s`, which starts at offset `p`: the entries it
stops at, and the return code. -/
def walk (p : ℕ) (s : Buf) : List Stop × ℤ :=
  if _h : 110 ≤ s.length then
    if magic <+: s then
      if field s 94 = 0 ∨ 1024 ≤ field s 94 then ([], -2)
      else if s.length < total (field s 94) (field s 54) then ([], -3)
      else if rawName s = ascii "TRAILER!!!" then ([], 0)
      else
        let r := walk (p + advance s) (s.drop (advance s))
        (stopAt p s :: r.1, r.2)
    else
      match _hs : seek magic 110 s.tail with
      | none => ([], -1)
      | some s' => walk (p + (s.length - s'.length)) s'
  else ([], -4)
termination_by s.length
decreasing_by
  · have := advance_pos s
    rw [List.length_drop]
    omega
  · have := (seek_spec _hs).1.length_le
    rw [List.length_tail] at this
    omega

/-- The end of the buffer: no header fits any more. -/
theorem walk_of_length_lt {p : ℕ} {s : Buf} (h : s.length < 110) : walk p s = ([], -4) := by
  rw [walk, dif_neg (by omega)]

/-- A header: it is rejected, or it is the trailer, or the cursor stops and moves on. -/
theorem walk_header {p : ℕ} {s : Buf} (h : 110 ≤ s.length) (hm : magic <+: s) :
    walk p s =
      if field s 94 = 0 ∨ 1024 ≤ field s 94 then ([], -2)
      else if s.length < total (field s 94) (field s 54) then ([], -3)
      else if rawName s = ascii "TRAILER!!!" then ([], 0)
      else (stopAt p s :: (walk (p + advance s) (s.drop (advance s))).1,
        (walk (p + advance s) (s.drop (advance s))).2) := by
  rw [walk, dif_pos h, if_pos hm]

/-- No header, and none behind: the walk is rejected. -/
theorem walk_of_seek_eq_none {p : ℕ} {s : Buf} (h : 110 ≤ s.length) (hm : ¬ magic <+: s)
    (hs : seek magic 110 s.tail = none) : walk p s = ([], -1) := by
  rw [walk, dif_pos h, if_neg hm]
  split
  · rfl
  next s' hs' => exact absurd (hs.symm.trans hs') (by simp)

/-- No header: the walk goes on at the next one. -/
theorem walk_of_seek_eq_some {p : ℕ} {s s' : Buf} (h : 110 ≤ s.length) (hm : ¬ magic <+: s)
    (hs : seek magic 110 s.tail = some s') : walk p s = walk (p + (s.length - s'.length)) s' := by
  rw [walk, dif_pos h, if_neg hm]
  split
  next hs' => exact absurd (hs.symm.trans hs') (by simp)
  next t hs' => rw [Option.some.inj (hs.symm.trans hs')]

/-- The line of the log that goes with a return code. -/
def message (code : ℤ) : String :=
  if code = 0 then "unpack done\n"
  else if code = -1 then "no resync\n"
  else if code = -2 then "bad namesize\n"
  else if code = -3 then "overflow\n"
  else "no trailer\n"

/-- Log the outcome and return it. -/
def finish (logfd code : ℤ) : Sys ℤ := do
  L logfd (message code)
  pure code

/-- `unpackNode` at a stop. -/
def visit (root d : Buf) (e : Stop) : Sys Unit :=
  unpackNode root e.name d (e.off + 110 + e.namesize.toNat) e.mode e.filesize e.rdevmaj e.rdevmin

/-! ### The loop is the walk -/

/-- A read inside the buffer does not fault. -/
theorem readAt_eq {d : Buf} {p n : ℕ} (h : p + n ≤ d.length) : readAt d p n = .ret (slice d p n) :=
  if_pos h

/-- A header field inside the buffer is read. -/
theorem hx_eq {d : Buf} {p i : ℕ} (h : p + i + 8 ≤ d.length) :
    hx d (p + i) = .ret (field (d.drop p) i) := by
  rw [hx, readAt_eq h, field, slice_drop]
  rfl

/-- The scan of the C loop finds what `seek` finds. -/
theorem resync_eq (d : Buf) (p q : ℕ) (hq : p < q) :
    (seek magic 110 (d.drop q) = none → resync d p q hq = .ret none) ∧
      ∀ s', seek magic 110 (d.drop q) = some s' →
        ∃ h, resync d p q hq = .ret (some ⟨d.length - s'.length, h⟩) := by
  induction hn : d.length - q using Nat.strong_induction_on generalizing q with
  | _ n ih =>
    rw [resync]
    by_cases hle : q + 110 ≤ d.length
    · have hcons : d.drop q = d[q] :: d.drop (q + 1) := List.drop_eq_getElem_cons (by omega)
      rw [if_pos hle, readAt_eq (by omega), Prog.ret_bind]
      by_cases hm : slice d q 6 = magic
      · have hseek : seek magic 110 (d.drop q) = some (d.drop q) :=
          seek_of_prefix (by omega) (slice_eq_magic_iff.1 hm) (by rw [List.length_drop]; omega)
        have hq' : d.length - (d.drop q).length = q := by
          rw [List.length_drop]
          omega
        rw [if_pos hm, hseek]
        refine ⟨fun h => by simp at h, fun s' h => ?_⟩
        obtain rfl := Option.some.inj h
        exact ⟨by omega, by simp only [hq']; rfl⟩
      · have hm' : ¬ magic <+: d[q] :: d.drop (q + 1) := hcons ▸ mt slice_eq_magic_iff.2 hm
        have hlen : 110 ≤ (d[q] :: d.drop (q + 1)).length := by
          rw [List.length_cons, List.length_drop]
          omega
        rw [if_neg hm, hcons, seek, if_pos hlen, if_neg hm']
        exact ih (d.length - (q + 1)) (by omega) (q + 1) _ rfl
    · have hseek : seek magic 110 (d.drop q) = none :=
        seek_of_length_lt (by rw [List.length_drop]; omega)
      rw [if_neg hle, hseek]
      exact ⟨fun _ => rfl, fun s' h => by simp at h⟩

/-- A name that lies inside the buffer is copied and terminated as a C string. -/
theorem readName_eq {d : Buf} {p : ℕ} {ns fs : UInt32} (hns : ¬ (ns = 0 ∨ 1024 ≤ ns))
    (hlen : ¬ d.length - p < total ns fs) :
    (readAt d (p + 110) (ns.toNat - 1) >>= storeStr 1024) =
      .ret (cstr (slice (d.drop p) 110 (ns.toNat - 1))) := by
  have h1 : ns.toNat < 1024 := by
    simpa [UInt32.le_iff_toNat_le] using (not_or.1 hns).2
  have h2 : (slice d (p + 110) (ns.toNat - 1)).length < 1024 := by
    rw [length_slice]
    omega
  unfold total at hlen
  rw [readAt_eq (by omega), Prog.ret_bind, storeStr, if_pos h2, slice_drop]
  rfl

/-- **One pass over a header.**  With a header at the cursor the loop reads its
fields, and then rejects it, ends at the trailer, or creates the entry and moves
on. -/
theorem unpackLoop_header {logfd : ℤ} {root d : Buf} {p : ℕ} (hp : p + 110 ≤ d.length)
    (hm : magic <+: d.drop p) :
    unpackLoop logfd root d p =
      let s := d.drop p
      if field s 94 = 0 ∨ 1024 ≤ field s 94 then finish logfd (-2)
      else if s.length < total (field s 94) (field s 54) then finish logfd (-3)
      else if rawName s = ascii "TRAILER!!!" then finish logfd 0
      else (do
        visit root d (stopAt p s)
        unpackLoop logfd root d (p + advance s)) := by
  conv_lhs => rw [unpackLoop]
  rw [dif_pos hp, readAt_eq (by omega), Prog.ret_bind, if_neg (not_not.2 (slice_eq_magic_iff.2 hm))]
  simp only [hx_eq (show p + 14 + 8 ≤ d.length by omega),
    hx_eq (show p + 54 + 8 ≤ d.length by omega),
    hx_eq (show p + 78 + 8 ≤ d.length by omega), hx_eq (show p + 86 + 8 ≤ d.length by omega),
    hx_eq (show p + 94 + 8 ≤ d.length by omega), Prog.ret_bind, List.length_drop]
  by_cases h1 : field (d.drop p) 94 = 0 ∨ 1024 ≤ field (d.drop p) 94
  · rw [if_pos h1, if_pos h1]
    rfl
  by_cases h2 : d.length - p < total (field (d.drop p) 94) (field (d.drop p) 54)
  · rw [if_neg h1, if_neg h1, if_pos h2, if_pos h2]
    rfl
  rw [if_neg h1, if_neg h1, if_neg h2, if_neg h2, ← Prog.bind_assoc, readName_eq h1 h2,
    Prog.ret_bind]
  by_cases h3 : rawName (d.drop p) = ascii "TRAILER!!!"
  · rw [if_pos h3]
    exact if_pos h3
  · rw [if_neg h3]
    exact if_neg h3

/-- **One pass without a header.**  The loop goes on at the next header, if there
is one. -/
theorem unpackLoop_resync {logfd : ℤ} {root d : Buf} {p : ℕ} (hp : p + 110 ≤ d.length)
    (hm : ¬ magic <+: d.drop p) :
    unpackLoop logfd root d p =
      match seek magic 110 (d.drop (p + 1)) with
      | none => finish logfd (-1)
      | some s' => unpackLoop logfd root d (d.length - s'.length) := by
  conv_lhs => rw [unpackLoop]
  rw [dif_pos hp, readAt_eq (by omega), Prog.ret_bind, if_pos (mt slice_eq_magic_iff.1 hm)]
  obtain ⟨hnone, hsome⟩ := resync_eq d p (p + 1) (Nat.lt_succ_self p)
  cases hs : seek magic 110 (d.drop (p + 1)) with
  | none => rw [hnone hs]; rfl
  | some s' =>
    obtain ⟨h, hres⟩ := hsome s' hs
    rw [hres]
    rfl

/-- **The C loop is the walk,** with `unpackNode` at each stop and one log line at
the end. -/
theorem unpackLoop_eq (logfd : ℤ) (root d : Buf) (p : ℕ) :
    unpackLoop logfd root d p = (do
      Prog.each (walk p (d.drop p)).1 (visit root d)
      finish logfd (walk p (d.drop p)).2) := by
  induction hn : d.length - p using Nat.strong_induction_on generalizing p with
  | _ n ih =>
    by_cases hp : p + 110 ≤ d.length
    swap
    · rw [unpackLoop, walk, dif_neg hp, dif_neg (by rw [List.length_drop]; omega)]
      rfl
    have hlen : 110 ≤ (d.drop p).length := by
      rw [List.length_drop]
      omega
    by_cases hm : magic <+: d.drop p
    · rw [unpackLoop_header hp hm, walk_header hlen hm]
      dsimp only
      split_ifs
      · rfl
      · rfl
      · rfl
      · have hadv := advance_pos (d.drop p)
        rw [ih (d.length - (p + advance (d.drop p))) (by omega) (p + advance (d.drop p)) rfl,
          List.drop_drop]
        simp only [Prog.each, Prog.bind_assoc]
    · rw [unpackLoop_resync hp hm]
      cases hs : seek magic 110 (d.drop (p + 1)) with
      | none =>
        rw [walk_of_seek_eq_none hlen hm (by rwa [List.tail_drop])]
        rfl
      | some s' =>
        have hsuf := (seek_spec hs).1
        have hle := hsuf.length_le
        rw [List.length_drop] at hle
        have hdrop : d.drop (d.length - s'.length) = s' :=
          (List.suffix_iff_eq_drop.1 (hsuf.trans (List.drop_suffix _ d))).symm
        have hoff : p + ((d.drop p).length - s'.length) = d.length - s'.length := by
          rw [List.length_drop]
          omega
        rw [walk_of_seek_eq_some hlen hm (by rwa [List.tail_drop]), hoff]
        dsimp only
        rw [ih (d.length - (d.length - s'.length)) (by omega) (d.length - s'.length) rfl, hdrop]

end Bootstrap
end Twrp

/-
# Archives with damaged magics

What does the scan for the next header do to an archive some of whose headers have lost
their magic?  It runs, byte by byte, over all of a damaged entry: over the rest of its
header, its name and its data.  It cannot tell an archive inside the data from the
archive around it, and stops at the first magic it meets (`walk_damaged`).  So the entries
whose headers are intact are created, and nothing else, if the scan meets no magic before
the next intact header; if it meets one, the run goes on there, and nothing that was not
in the archive is created if that header is rejected (`resyncs_of_rejected`).  Without
such a condition a file can bring entries of its own, and a trailer that hides the rest
(`not_resyncs_nested`).
-/

import Twrp.Bootstrap.Compact

namespace Twrp
namespace Bootstrap

open Bytes Interaction Cpio

/-! ### Damaged archives -/

/-- Six other bytes in the place of a magic. -/
structure Damage where
  bytes : Buf
  length_eq : bytes.length = 6
  ne_magic : bytes ≠ magic

/-- An entry as it stands in a damaged archive: its header may have lost its magic. -/
def damaged : Entry × Option Damage → Buf
  | (e, none) => e.bytes .compact
  | (e, some w) => w.bytes ++ (e.bytes .compact).drop 6

/-- The entries of an archive, each with its damage, and what stands behind them. -/
def damagedArchive (xs : List (Entry × Option Damage)) (rest : Buf) : Buf :=
  xs.flatMap damaged ++ rest

/-- The same archive before the damage. -/
def intactArchive (xs : List (Entry × Option Damage)) (rest : Buf) : Buf :=
  (xs.map Prod.fst).flatMap (Entry.bytes · .compact) ++ rest

/-- The first magic that starts inside a damaged entry. -/
def falseHeader (rest : Buf) : List (Entry × Option Damage) → Option Buf
  | [] => none
  | (_, none) :: xs => falseHeader rest xs
  | (e, some w) :: xs =>
    (occurrence magic (damaged (e, some w)) (damagedArchive xs rest)).or (falseHeader rest xs)

/-- The stops at the intact entries in front of the first such magic. -/
def reached (rest : Buf) (p : ℕ) : List (Entry × Option Damage) → List Stop
  | [] => []
  | (e, none) :: xs => entryStop p .compact e :: reached rest (p + (damaged (e, none)).length) xs
  | (e, some w) :: xs =>
    match occurrence magic (damaged (e, some w)) (damagedArchive xs rest) with
    | some _ => []
    | none => reached rest (p + (damaged (e, some w)).length) xs

/-- The entries whose own headers are intact. -/
def intact (xs : List (Entry × Option Damage)) : List Entry :=
  (xs.filter fun x => x.2.isNone).map Prod.fst

theorem damagedArchive_cons (x : Entry × Option Damage) (xs : List (Entry × Option Damage))
    (rest : Buf) : damagedArchive (x :: xs) rest = damaged x ++ damagedArchive xs rest := by
  rw [damagedArchive, List.flatMap_cons, List.append_assoc]
  rfl

/-! ### The walk -/

theorem length_compact (e : Entry) : (e.bytes .compact).length = e.total + pad4 e.total := by
  rcases e.length_bytes_eq .compact with h | ⟨h, -⟩
  · exact h
  · exact absurd h (by decide)

/-- Over an entry of the compact layout the cursor comes to its very end. -/
theorem drop_compact (e : Entry) (r : Buf) :
    (e.bytes .compact ++ r).drop (e.total + pad4 e.total) = r := by
  rw [← length_compact, List.drop_left]

/-- **The walk over a damaged archive.**  It stops at the intact entries up to the first
magic inside a damaged one, and goes on from that magic. -/
theorem walk_damaged {rest : Buf} (hm : magic <+: rest) (hlen : 110 ≤ rest.length)
    {xs : List (Entry × Option Damage)} (hxs : ∀ x ∈ xs, Ordinary x.1) {junk : Buf}
    (hjunk : Clean magic junk (damagedArchive xs rest)) (p : ℕ) :
    ∃ o, walk p (junk ++ damagedArchive xs rest) =
      (reached rest (p + junk.length) xs ++ (walk o ((falseHeader rest xs).getD rest)).1,
        (walk o ((falseHeader rest xs).getD rest)).2) := by
  induction xs generalizing junk p with
  | nil => exact ⟨_, walk_clean hjunk hm hlen p⟩
  | cons x xs ih =>
    obtain ⟨e, w⟩ := x
    obtain ⟨he, hall⟩ := List.forall_mem_cons.1 hxs
    have htail : 110 ≤ (damagedArchive xs rest).length := by
      rw [damagedArchive, List.length_append]
      omega
    rw [damagedArchive_cons] at hjunk ⊢
    cases w with
    | none =>
      obtain ⟨o, ho⟩ := ih hall (clean_nil _ _) (p + junk.length + (e.total + pad4 e.total))
      refine ⟨o, ?_⟩
      rw [walk_clean hjunk (e.magic_prefix_bytes .compact _) (by rw [List.length_append]; omega),
        damaged, walk_entry he.1, if_neg he.2]
      dsimp only
      rw [drop_compact]
      rw [List.nil_append] at ho
      rw [ho, reached, falseHeader, damaged, length_compact]
      rfl
    | some w =>
      cases hocc : occurrence magic (damaged (e, some w)) (damagedArchive xs rest) with
      | some s =>
        obtain ⟨u, t, hsplit, -, rfl, hpre, hclean⟩ := occurrence_spec hocc
        refine ⟨p + (junk ++ u).length, ?_⟩
        simp only [falseHeader, reached, hocc, Option.some_or, Option.getD_some, List.nil_append]
        rw [hsplit, List.append_assoc] at hjunk ⊢
        rw [← List.append_assoc]
        exact walk_clean (hjunk.append hclean) hpre (by rw [List.length_append]; omega) p
      | none =>
        have hclean := clean_of_occurrence_eq_none hocc
        obtain ⟨o, ho⟩ := ih hall (hjunk.append hclean) p
        refine ⟨o, ?_⟩
        simp only [falseHeader, reached, hocc, Option.none_or]
        rw [← List.append_assoc, ho, List.length_append, Nat.add_assoc]

/-! ### What is created -/

/-- The creating calls for an entry of the archive. -/
def entryCalls (root : Buf) (e : Entry) : List Call := createCalls root (entryStop 0 .compact e)

/-- Nothing but entries of the archive is created before the first false header. -/
theorem reached_sublist (root rest : Buf) (p : ℕ) (xs : List (Entry × Option Damage)) :
    ((reached rest p xs).flatMap (createCalls root)).Sublist
      ((xs.map Prod.fst).flatMap (entryCalls root)) := by
  induction xs generalizing p with
  | nil => exact List.Sublist.refl _
  | cons x xs ih =>
    obtain ⟨e, w⟩ := x
    rw [List.map_cons, List.flatMap_cons]
    cases w with
    | none =>
      rw [reached, List.flatMap_cons]
      exact (List.Sublist.refl (entryCalls root e)).append (ih _)
    | some w =>
      rw [reached]
      split
      · exact List.nil_sublist _
      · exact (ih _).trans (List.sublist_append_right ..)

/-- Without a false header every intact entry is created. -/
theorem reached_eq {rest : Buf} {xs : List (Entry × Option Damage)}
    (h : falseHeader rest xs = none) (root : Buf) (p : ℕ) :
    (reached rest p xs).flatMap (createCalls root) = (intact xs).flatMap (entryCalls root) := by
  induction xs generalizing p with
  | nil => rfl
  | cons x xs ih =>
    obtain ⟨e, w⟩ := x
    cases w with
    | none =>
      rw [reached, List.flatMap_cons, ih h]
      rfl
    | some w =>
      rw [falseHeader, Option.or_eq_none_iff] at h
      rw [reached, h.1]
      exact ih h.2 _

/-- A header that `unpack_cpio` rejects. -/
def Rejected (s : Buf) : Prop :=
  field s 94 = 0 ∨ 1024 ≤ field s 94 ∨ s.length < total (field s 94) (field s 54)

instance (s : Buf) : Decidable (Rejected s) :=
  inferInstanceAs (Decidable (_ ∨ _ ∨ _))

/-- What one would like the scan to guarantee for an archive of the entries `xs`, of which
the damaged ones have lost their magic, and `rest` behind them. -/
structure Resyncs (xs : List (Entry × Option Damage)) (rest : Buf) : Prop where
  /-- Nothing is created that the archive did not create before the damage. -/
  sublist : ∀ {σ : Type} (kernel : σ → Call → ℤ × σ) (s : σ) (logfd : ℤ) (root : Buf),
    (creating (traceOf kernel s logfd root (damagedArchive xs rest))).Sublist
      (creating (traceOf kernel s logfd root (intactArchive xs rest)))
  /-- A run that succeeds has created every entry whose own header is intact. -/
  created : ∀ {σ : Type} (kernel : σ → Call → ℤ × σ) (s : σ) (logfd : ℤ) (root : Buf),
    codeOf kernel s logfd root (damagedArchive xs rest) = some 0 →
      ((intact xs).flatMap (entryCalls root)).Sublist
        (creating (traceOf kernel s logfd root (damagedArchive xs rest)))

theorem walk_rejected {s : Buf} (hlen : 110 ≤ s.length) (hm : magic <+: s) (h : Rejected s)
    (p : ℕ) : (walk p s).1 = [] ∧ (walk p s).2 ≠ 0 := by
  rw [walk_header hlen hm]
  by_cases hns : field s 94 = 0 ∨ 1024 ≤ field s 94
  · rw [if_pos hns]
    exact ⟨rfl, show (-2 : ℤ) ≠ 0 by decide⟩
  · have hover : s.length < total (field s 94) (field s 54) := by
      rcases h with h | h | h
      · exact absurd (.inl h) hns
      · exact absurd (.inr h) hns
      · exact h
    rw [if_neg hns, if_pos hover]
    exact ⟨rfl, show (-3 : ℤ) ≠ 0 by decide⟩

/-- A false header is a magic with a whole header behind it. -/
theorem falseHeader_spec {rest s : Buf} (hlen : 110 ≤ rest.length)
    {xs : List (Entry × Option Damage)} (h : falseHeader rest xs = some s) :
    magic <+: s ∧ 110 ≤ s.length := by
  induction xs with
  | nil => exact absurd h (by simp [falseHeader])
  | cons x xs ih =>
    obtain ⟨e, w⟩ := x
    cases w with
    | none => exact ih h
    | some w =>
      rw [falseHeader, Option.or_eq_some_iff] at h
      rcases h with h | ⟨-, h⟩
      · obtain ⟨u, t, -, -, rfl, hpre, -⟩ := occurrence_spec h
        refine ⟨hpre, ?_⟩
        rw [damagedArchive, List.length_append, List.length_append]
        omega
      · exact ih h

/-- Before the damage every entry is created. -/
theorem walk_intactArchive {rest : Buf} (hm : magic <+: rest) (hlen : 110 ≤ rest.length)
    (hend : ∀ o, (walk o rest).1 = []) {es : List Entry} (hes : ∀ e ∈ es, Ordinary e)
    (root : Buf) :
    (walk 0 (es.flatMap (Entry.bytes · .compact) ++ rest)).1.flatMap (createCalls root) =
      es.flatMap (entryCalls root) := by
  -- an archive without damage is an archive with none of its entries damaged
  have harch : es.flatMap (Entry.bytes · .compact) ++ rest =
      damagedArchive (es.map fun e => (e, none)) rest := by
    rw [damagedArchive, List.flatMap_map]
    rfl
  have hfalse : falseHeader rest (es.map fun e => (e, none)) = none := by
    clear hes harch
    induction es with
    | nil => rfl
    | cons e es ih => exact ih
  have hintact : intact (es.map fun e => (e, none)) = es := by
    rw [intact, List.filter_eq_self.2 (List.forall_mem_map.2 fun _ _ => rfl), List.map_map]
    exact List.map_id _
  have hord : ∀ y ∈ es.map fun e => (e, (none : Option Damage)), Ordinary y.1 :=
    List.forall_mem_map.2 hes
  obtain ⟨o, hwalk⟩ := walk_damaged hm hlen hord (clean_nil _ _) 0
  rw [List.nil_append, hfalse, Option.getD_none, hend, List.append_nil] at hwalk
  rw [harch, hwalk, reached_eq hfalse, hintact]

/-- **The scan mistakes no contents for entries** if the first magic inside a damaged entry,
should there be one, is a header that `unpack_cpio` rejects. -/
theorem resyncs_of_rejected {xs : List (Entry × Option Damage)} (hxs : ∀ x ∈ xs, Ordinary x.1)
    {t : Entry} (ht : t.name = ascii "TRAILER!!!") (x : Buf)
    (h : ∀ s, falseHeader (t.bytes .compact ++ x) xs = some s → Rejected s) :
    Resyncs xs (t.bytes .compact ++ x) := by
  have hm := t.magic_prefix_bytes .compact x
  have hlen : 110 ≤ (t.bytes .compact ++ x).length := by
    have := length_entry_append t .compact x
    unfold Entry.total at this
    omega
  have hend : ∀ o, (walk o (t.bytes .compact ++ x)).1 = [] := fun o => by rw [walk_trailer ht]
  obtain ⟨o, hwalk⟩ := walk_damaged hm hlen hxs (clean_nil _ _) 0
  rw [List.nil_append] at hwalk
  cases hfalse : falseHeader (t.bytes .compact ++ x) xs with
  | none =>
    rw [hfalse, Option.getD_none, walk_trailer ht, List.append_nil] at hwalk
    constructor
    · intro σ kernel s logfd root
      rw [creating_traceOf, creating_traceOf, hwalk, intactArchive,
        walk_intactArchive hm hlen hend (List.forall_mem_map.2 hxs)]
      exact reached_sublist ..
    · intro σ kernel s logfd root _
      rw [creating_traceOf, hwalk, reached_eq hfalse]
  | some s =>
    obtain ⟨hpre, h110⟩ := falseHeader_spec hlen hfalse
    obtain ⟨hstops, hcode⟩ := walk_rejected h110 hpre (h s hfalse) o
    rw [hfalse, Option.getD_some, hstops, List.append_nil] at hwalk
    constructor
    · intro σ kernel s logfd root
      rw [creating_traceOf, creating_traceOf, hwalk, intactArchive,
        walk_intactArchive hm hlen hend (List.forall_mem_map.2 hxs)]
      exact reached_sublist ..
    · intro σ kernel s logfd root h0
      rw [codeOf_eq, hwalk, Option.some.injEq] at h0
      exact absurd h0 hcode

/-- Zeros in the place of a magic. -/
def zeroed : Damage := ⟨zeros 6, rfl, by decide⟩

/-- A file that names the magic, but with no header behind it. -/
def mentionItem : Item := { name := "notes", data := .str "070701 is the magic", mode := 0o100644 }

/-- The hypotheses are satisfiable: the magic in the text of a damaged file, with text where
the scan looks for a header. -/
theorem resyncs_mentionItem :
    Resyncs [(DevNodes.compactEntry mentionItem (by decide), some zeroed)]
      ((DevNodes.compactEntry DevNodes.trailerItem (by decide)).bytes .compact ++ []) :=
  resyncs_of_rejected (List.forall_mem_singleton.2 ⟨by decide, by decide⟩) rfl []
    (by decide +kernel)

/-- A file with an archive in it. -/
def nestedItem : Item where
  name := "outer"
  data := .bytes (DevNodes.entry "evil" (.str "data") 0o100755 0 0 ++
    DevNodes.entry "TRAILER!!!" (.bytes []) 0 0 0)
  mode := 0o100644

theorem valid_nestedItem : nestedItem.Valid := by decide +kernel

/-- That file, which has lost its magic, and an intact one. -/
def nested : List (Entry × Option Damage) :=
  [(DevNodes.compactEntry nestedItem valid_nestedItem, some zeroed),
    (DevNodes.compactEntry mentionItem (by decide), none)]

/-- **An archive inside a file is taken for the archive around it.**  Its file is created,
its trailer ends the run with success, and the intact file behind it is lost. -/
theorem not_resyncs_nested :
    (∀ x ∈ nested, Ordinary x.1) ∧
    ¬ Resyncs nested
      ((DevNodes.compactEntry DevNodes.trailerItem (by decide)).bytes .compact ++ []) := by
  refine ⟨List.forall_mem_cons.2 ⟨⟨by decide, by decide⟩,
    List.forall_mem_singleton.2 ⟨by decide, by decide⟩⟩, fun h => ?_⟩
  have hcode := h.created obligingKernel () (-1) (ascii ".") (by decide +kernel)
  exact absurd hcode (by decide +kernel)

end Bootstrap
end Twrp

/-
# What reaches the files

`files` reads off a trace, for every file that was opened, its path and the bytes
the kernel accepted for it.  `fileRefusals` lists the `open` and `write` calls of
those files that were refused.  The two are complementary (`unpackCpio_files`): in
every run, the files hold exactly the data of the regular-file stops if and only
if nothing was refused.  The C code looks at neither.
-/

import Twrp.Bootstrap.Calls

namespace Twrp
namespace Bootstrap

open Bytes Interaction Cpio

/-- The files written in a trace, with the bytes accepted for each.  The first
argument is the file that is open, if one is. -/
def files : Option (Buf × Buf) → Trace → List (Buf × Buf)
  | _, [] => []
  | none, (.openFile path _ _, r) :: t =>
    if 0 ≤ r then files (some (path, [])) t else files none t
  | some x, (.write _ b, r) :: t => files (some (x.1, x.2 ++ b.take r.toNat)) t
  | some x, (.close _, _) :: t => x :: files none t
  | o, _ :: t => files o t

/-- The refused calls among the `open` calls of a trace and the `write` calls made
while a file is open. -/
def fileRefusals : Bool → Trace → List Call
  | _, [] => []
  | false, (.openFile path flags mode, r) :: t =>
    if 0 ≤ r then fileRefusals true t else .openFile path flags mode :: fileRefusals false t
  | true, (.write f b, r) :: t =>
    if 0 < r then fileRefusals true t else .write f b :: fileRefusals true t
  | true, (.close _, _) :: t => fileRefusals false t
  | o, _ :: t => fileRefusals o t

/-- The files that a stop calls for: its own, with its data, if it is regular. -/
def expectedFiles (root : Buf) (e : Stop) : List (Buf × Buf) :=
  if kind e.mode = .reg then [(fullPath root e, e.data)] else []

/-- Directories are no files. -/
theorem files_mkdirs {mk : Trace} {ps : List Buf}
    (h : mk.map Prod.fst = ps.map (Call.mkdir · 0o755))
    (t : Trace) : files none (mk ++ t) = files none t ∧
      fileRefusals false (mk ++ t) = fileRefusals false t := by
  induction mk generalizing ps with
  | nil => exact ⟨rfl, rfl⟩
  | cons x mk ih =>
    obtain ⟨c, r⟩ := x
    cases ps with
    | nil => exact absurd h (by simp)
    | cons p ps =>
      obtain ⟨rfl, htl⟩ := List.cons.inj h
      exact ih htl

/-- Nor is the log. -/
theorem files_log {logfd : ℤ} {t : Trace} (h : LogOnly logfd t) :
    files none t = [] ∧ fileRefusals false t = [] := by
  induction t with
  | nil => exact ⟨rfl, rfl⟩
  | cons x t ih =>
    obtain ⟨c, r⟩ := x
    have ht := ih fun y hy => h y (List.mem_cons_of_mem _ hy)
    rcases h (c, r) (List.mem_cons_self ..) with ⟨b, rfl⟩ | rfl <;> exact ht

/-- The write loop of one file: what was accepted is all of it unless a call was
refused. -/
theorem Writes.observe {f : ℤ} {b : Buf} {ws : Trace} (h : Writes f b ws) :
    ∃ got refused,
      (∀ p acc t, files (some (p, acc)) (ws ++ t) = files (some (p, acc ++ got)) t) ∧
      (∀ t, fileRefusals true (ws ++ t) = refused ++ fileRefusals true t) ∧
      (got = b ↔ refused = []) := by
  induction h with
  | done => exact ⟨[], [], fun p acc t => by simp, fun t => rfl, by simp⟩
  | @stop b w hb hw =>
    refine ⟨[], [.write f b], fun p acc t => ?_, fun t => ?_, by simp [hb.symm]⟩
    · rw [List.singleton_append, files, Int.toNat_of_nonpos hw, List.take_zero]
    · rw [List.singleton_append, fileRefusals, if_neg (by omega), List.singleton_append]
  | @more b w t hb hw _ ih =>
    obtain ⟨got, refused, h1, h2, h3⟩ := ih
    refine ⟨b.take w.toNat ++ got, refused, fun p acc u => ?_, fun u => ?_, ?_⟩
    · rw [List.cons_append, files, h1, List.append_assoc]
    · rw [List.cons_append, fileRefusals, if_pos hw, h2]
    · rw [← h3]
      constructor
      · intro h
        exact List.append_cancel_left (h.trans (List.take_append_drop w.toNat b).symm)
      · intro h
        rw [h, List.take_append_drop]

/-- **One stop.**  It contributes its own file and its own refusals to the trace,
and the file is the expected one exactly when there are no refusals. -/
theorem Handled.observe {root : Buf} {e : Stop} {t : Trace} (h : Handled root e t) :
    ∃ fs refused, (∀ u, files none (t ++ u) = fs ++ files none u) ∧
      (∀ u, fileRefusals false (t ++ u) = refused ++ fileRefusals false u) ∧
      fs.length ≤ (expectedFiles root e).length ∧
      (fs = expectedFiles root e ↔ refused = []) := by
  obtain ⟨mk, node, rfl, hmk, hnode⟩ := h
  suffices ∃ fs refused, (∀ u, files none (node ++ u) = fs ++ files none u) ∧
      (∀ u, fileRefusals false (node ++ u) = refused ++ fileRefusals false u) ∧
      fs.length ≤ (expectedFiles root e).length ∧ (fs = expectedFiles root e ↔ refused = []) by
    obtain ⟨fs, refused, h1, h2, h3⟩ := this
    refine ⟨fs, refused, fun u => ?_, fun u => ?_, h3⟩
    · rw [List.append_assoc, (files_mkdirs hmk _).1, h1]
    · rw [List.append_assoc, (files_mkdirs hmk _).2, h2]
  unfold NodeTrace at hnode
  unfold expectedFiles
  cases hk : kind e.mode <;> rw [hk] at hnode
  case reg =>
    rw [if_pos rfl]
    obtain ⟨f, ⟨hf, rfl⟩ | ⟨hf, ws, r₁, r₂, hws, rfl⟩⟩ := hnode
    · refine ⟨[], [.openFile (fullPath root e) createFlags (e.mode &&& 0o7777)], fun u => ?_,
        fun u => ?_, by simp, by simp⟩
      · rw [List.singleton_append, files, if_neg (by omega), List.nil_append]
      · rw [List.singleton_append, fileRefusals, if_neg (by omega), List.singleton_append]
    · obtain ⟨got, refused, h1, h2, h3⟩ := hws.observe
      refine ⟨[(fullPath root e, got)], refused, fun u => ?_, fun u => ?_, by simp, by simp [h3]⟩
      · rw [List.cons_append, files, if_pos hf, List.append_assoc, h1]
        rfl
      · rw [List.cons_append, fileRefusals, if_pos hf, List.append_assoc, h2]
        rfl
  case other =>
    subst hnode
    exact ⟨[], [], fun u => rfl, fun u => rfl, by simp, by simp⟩
  all_goals
    obtain ⟨r, rfl⟩ := hnode
    exact ⟨[], [], fun u => rfl, fun u => rfl, by simp, by simp⟩

/-- Segment by segment, the same of a list of stops. -/
theorem observe_segments {root : Buf} {stops : List Stop} {segs : List Trace}
    (h : List.Forall₂ (Handled root) stops segs) :
    ∃ fs refused, (∀ u, files none (segs.flatten ++ u) = fs ++ files none u) ∧
      (∀ u, fileRefusals false (segs.flatten ++ u) = refused ++ fileRefusals false u) ∧
      fs.length ≤ (stops.flatMap (expectedFiles root)).length ∧
      (fs = stops.flatMap (expectedFiles root) ↔ refused = []) := by
  induction h with
  | nil => exact ⟨[], [], fun u => rfl, fun u => rfl, le_rfl, by simp⟩
  | @cons e seg stops segs hseg _ ih =>
    obtain ⟨fs₁, ref₁, h₁, h₁', hlen₁, hiff₁⟩ := hseg.observe
    obtain ⟨fs₂, ref₂, h₂, h₂', hlen₂, hiff₂⟩ := ih
    refine ⟨fs₁ ++ fs₂, ref₁ ++ ref₂, fun u => ?_, fun u => ?_, ?_, ?_⟩
    · rw [List.flatten_cons, List.append_assoc, h₁, h₂, List.append_assoc]
    · rw [List.flatten_cons, List.append_assoc, h₁', h₂', List.append_assoc]
    · rw [List.flatMap_cons, List.length_append, List.length_append]
      omega
    · rw [List.flatMap_cons, List.append_eq_nil_iff, ← hiff₁, ← hiff₂]
      constructor
      · intro heq
        -- no segment has more files than its stop calls for, so equal totals are equal parts
        have hlen := congrArg List.length heq
        rw [List.length_append, List.length_append] at hlen
        exact List.append_inj heq (by omega)
      · rintro ⟨rfl, rfl⟩
        rfl

/-- **The files of a run** are the regular-file stops with their data exactly when
no `open` and no `write` of a file was refused; there are never more of them. -/
theorem unpackCpio_files (logfd : ℤ) (d root : Buf) :
    (unpackCpio logfd d root).wp fun t _ =>
      (files none t).length ≤ ((walk 0 d).1.flatMap (expectedFiles root)).length ∧
      (files none t = (walk 0 d).1.flatMap (expectedFiles root) ↔ fileRefusals false t = []) := by
  refine (unpackCpio_runs logfd d root).mono ?_
  rintro t rc ⟨-, segs, log, rfl, hsegs, hlog⟩
  obtain ⟨fs, refused, h1, h2, hlen, hiff⟩ := observe_segments hsegs
  rw [h1, h2, (files_log hlog).1, (files_log hlog).2, List.append_nil, List.append_nil]
  exact ⟨hlen, hiff⟩

section Run

variable {σ : Type} (kernel : σ → Call → ℤ × σ) (s : σ) (logfd : ℤ) (root d : Buf)

/-- **The files arrive as they are seen** exactly when no file call is refused. -/
theorem files_traceOf_iff :
    files none (traceOf kernel s logfd root d) = (walk 0 d).1.flatMap (expectedFiles root) ↔
      fileRefusals false (traceOf kernel s logfd root d) = [] := by
  obtain ⟨-, -, -, h⟩ := Prog.wp_exec (unpackCpio_files logfd d root) kernel s
  exact h

/-- No run leaves more files than the archive has. -/
theorem length_files_traceOf :
    (files none (traceOf kernel s logfd root d)).length ≤
      ((walk 0 d).1.flatMap (expectedFiles root)).length := by
  obtain ⟨-, -, h, -⟩ := Prog.wp_exec (unpackCpio_files logfd d root) kernel s
  exact h

end Run

/-- A kernel that opens every file and accepts every write in full. -/
def obligingKernel (s : Unit) : Call → ℤ × Unit
  | .openFile .. => (3, s)
  | .write _ b => (b.length, s)
  | _ => (0, s)

end Bootstrap
end Twrp

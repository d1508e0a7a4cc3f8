/-
# What `unpack_cpio` asks of the kernel

`Handled root e t` describes every trace `t` that one stop `e` of the cursor can
leave: `make_path` first, one `mkdir` for each ancestor of the path, and then the
calls of the branch that the entry's mode selects, whose number depends on the
answers only for a regular file.  `unpackCpio_runs` cuts a whole run into one such
segment per stop and the last lines of the log.

Three observers read a trace.  `creating` keeps the calls that create something,
`files` collects for each file that was opened the bytes the kernel accepted for
it, and `refusals` the calls for an entry that the kernel refused.
-/

import Twrp.Bootstrap.Walk

namespace Twrp
namespace Bootstrap

open Bytes Interaction Cpio

/-! ### One entry -/

/-- The branches of the dispatch on the entry's type. -/
inductive Kind where
  | dir | link | dev | reg | other
  deriving DecidableEq, Repr

/-- The branch `unpack_cpio` takes for `mode`, tested in its order. -/
def kind (mode : UInt32) : Kind :=
  if S_ISDIR mode then .dir
  else if S_ISLNK mode then .link
  else if S_ISCHR mode || S_ISBLK mode then .dev
  else if S_ISREG mode then .reg
  else .other

/-- The paths `make_path` creates: what stands before each `/` but a leading one. -/
def ancestors (done : Buf) : Buf → List Buf
  | [] => []
  | c :: rest => (if c = 47 then [done] else []) ++ ancestors (done ++ [c]) rest

/-- The ancestors of `root/name` in the buffer of `make_path`. -/
def parents (root name : Buf) : List Buf :=
  ancestors ((snprintf 1024 root name).take 1) ((snprintf 1024 root name).drop 1)

/-- The path of an entry, as `full` holds it. -/
def fullPath (root : Buf) (e : Stop) : Buf := snprintf 2048 root e.name

/-- The flags every file is opened with. -/
def createFlags : List OFlag := [.wronly, .creat, .trunc]

/-- The calls of the write loop for the bytes `b`: it ends when all of them are
accepted, or at the first call that accepts none. -/
inductive Writes (f : ℤ) : Buf → Trace → Prop
  | done : Writes f [] []
  | stop {b : Buf} {w : ℤ} (hb : b ≠ []) (hw : w ≤ 0) : Writes f b [(.write f b, w)]
  | more {b : Buf} {w : ℤ} {t : Trace} (hb : b ≠ []) (hw : 0 < w)
      (h : Writes f (b.drop w.toNat) t) : Writes f b ((.write f b, w) :: t)

/-- The traces of the branch for the entry's type. -/
def NodeTrace (root : Buf) (e : Stop) (t : Trace) : Prop :=
  match kind e.mode with
  | .dir => ∃ r, t = [(.mkdir (fullPath root e) (e.mode &&& 0o7777), r)]
  | .link => ∃ r, t = [(.symlink (cstr (e.data.take 1023)) (fullPath root e), r)]
  | .dev => ∃ r, t = [(.mknod (fullPath root e) e.mode (makedev e.rdevmaj e.rdevmin), r)]
  | .reg => ∃ f, (f < 0 ∧ t = [(.openFile (fullPath root e) createFlags (e.mode &&& 0o7777), f)]) ∨
      0 ≤ f ∧ ∃ ws r₁ r₂, Writes f e.data ws ∧
        t = (.openFile (fullPath root e) createFlags (e.mode &&& 0o7777), f) ::
          (ws ++ [(.close f, r₁), (.chmod (fullPath root e) (e.mode &&& 0o7777), r₂)])
  | .other => t = []

/-- The traces of one stop: `make_path`, then the branch. -/
def Handled (root : Buf) (e : Stop) (t : Trace) : Prop :=
  ∃ mk node, t = mk ++ node ∧
    mk.map Prod.fst = (parents root e.name).map (Call.mkdir · 0o755) ∧ NodeTrace root e node

/-- A stop whose entry lies inside the buffer `d`, with its own data. -/
def InBuf (d : Buf) (e : Stop) : Prop :=
  e.off + total e.namesize e.filesize ≤ d.length ∧
    e.data = slice d (e.off + 110 + e.namesize.toNat) e.filesize.toNat

/-- A call stands first in the trace, with any result. -/
theorem sys_wp {α : Type} {c : Call} {f : ℤ → Sys α} {Q : Trace → α → Prop} :
    (sys c >>= f).wp Q ↔ ∀ r, (f r).wp fun t a => Q ((c, r) :: t) a :=
  Iff.rfl

/-- `make_path` asks for each directory above, whatever it is told. -/
theorem makePathLoop_wp (done rest : Buf) :
    (makePathLoop done rest).wp fun t _ =>
      t.map Prod.fst = (ancestors done rest).map (Call.mkdir · 0o755) := by
  induction rest generalizing done with
  | nil => rfl
  | cons c rest ih =>
    rw [makePathLoop, ancestors]
    split_ifs
    · exact fun r => (ih (done ++ [c])).mono fun t _ ht => by simp [ht]
    · exact (ih (done ++ [c])).mono fun t _ ht => by simp [ht]

/-- The write loop, on the bytes that are left. -/
def writeAll (f : ℤ) (b : Buf) : Sys Unit :=
  if _h : b = [] then pure ()
  else do
    let w ← sys (.write f b)
    if _hw : w ≤ 0 then pure () else writeAll f (b.drop w.toNat)
termination_by b.length
decreasing_by
  have := List.length_pos_iff.2 _h
  rw [List.length_drop]
  omega

/-- **The write loop** passes the bytes that are left. -/
theorem writeLoop_eq (f : ℤ) {d : Buf} {data filesize : ℕ} (hd : data + filesize ≤ d.length)
    (off : ℕ) :
    writeLoop f d data filesize off = writeAll f (slice d (data + off) (filesize - off)) := by
  induction hn : filesize - off using Nat.strong_induction_on generalizing off with
  | _ n ih =>
    subst hn
    rw [writeLoop, writeAll]
    by_cases hoff : off < filesize
    · have hne : slice d (data + off) (filesize - off) ≠ [] :=
        List.ne_nil_of_length_pos (by rw [length_slice]; omega)
      rw [if_pos hoff, dif_neg hne, readAt_eq (by omega), Prog.ret_bind]
      refine congrArg (sys _ >>= ·) (funext fun w => ?_)
      by_cases hw : w ≤ 0
      · rw [dif_pos hw, dif_pos hw]
      · rw [dif_neg hw, dif_neg hw, ih (filesize - (off + w.toNat)) (by omega) (off + w.toNat) rfl,
          drop_slice, Nat.add_assoc, Nat.sub_sub]
    · have hnil : slice d (data + off) (filesize - off) = [] := by
        rw [Nat.sub_eq_zero_of_le (by omega)]
        rfl
      rw [if_neg hoff, dif_pos hnil]

/-- It stops where the kernel accepts none of them. -/
theorem writeAll_wp (f : ℤ) (b : Buf) : (writeAll f b).wp fun t _ => Writes f b t := by
  fun_induction writeAll f b with
  | case1 => exact .done
  | case2 b hb ih =>
    refine sys_wp.2 fun w => ?_
    by_cases hw : w ≤ 0
    · rw [dif_pos hw]
      exact .stop hb hw
    · rw [dif_neg hw]
      exact (ih w hw).mono fun t _ ht => .more hb (by omega) ht

/-- The data a symlink entry is read with: at most `1023` bytes, up to a NUL. -/
theorem readTarget_eq {d : Buf} {data : ℕ} {filesize : UInt32}
    (h : data + filesize.toNat ≤ d.length) :
    (readAt d data (if filesize < 1023 then filesize.toNat else 1023) >>= storeStr 1024) =
      .ret (cstr ((slice d data filesize.toNat).take 1023)) := by
  have hlt : filesize < 1023 ↔ filesize.toNat < 1023 := UInt32.lt_iff_toNat_lt
  have hmin : (if filesize < 1023 then filesize.toNat else 1023) = min 1023 filesize.toNat := by
    rw [ite_congr (propext hlt) (fun _ => rfl) fun _ => rfl]
    split_ifs <;> omega
  have hlen : (slice d data (min 1023 filesize.toNat)).length < 1024 := by
    rw [length_slice]
    omega
  rw [hmin, readAt_eq (by omega), Prog.ret_bind, storeStr, if_pos hlen, slice, slice,
    List.take_take]
  rfl

/-- What `unpack_cpio` asks for an entry when its ancestors are there, by the type of the
entry. -/
def node (root : Buf) (e : Stop) : Sys Unit :=
  match kind e.mode with
  | .dir => do
    let _ ← sys (.mkdir (fullPath root e) (e.mode &&& 0o7777))
  | .link => do
    let _ ← sys (.symlink (cstr (e.data.take 1023)) (fullPath root e))
  | .dev => do
    let _ ← sys (.mknod (fullPath root e) e.mode (makedev e.rdevmaj e.rdevmin))
  | .reg => do
    let f ← sys (.openFile (fullPath root e) createFlags (e.mode &&& 0o7777))
    if 0 ≤ f then
      writeAll f e.data
      let _ ← sys (.close f)
      let _ ← sys (.chmod (fullPath root e) (e.mode &&& 0o7777))
  | .other => pure ()

/-- **One entry** lies inside the buffer, so no read of its data faults. -/
theorem visit_eq {root d : Buf} {e : Stop} (h : InBuf d e) :
    visit root d e = makePath root e.name >>= fun _ => node root e := by
  obtain ⟨hlen, hdata⟩ := h
  unfold total at hlen
  rw [visit, unpackNode]
  refine congrArg (makePath root e.name >>= ·) (funext fun _ => ?_)
  unfold node kind
  by_cases h1 : S_ISDIR e.mode
  · rw [if_pos h1, if_pos h1]
    rfl
  rw [if_neg h1, if_neg h1]
  by_cases h2 : S_ISLNK e.mode
  · rw [if_pos h2, if_pos h2]
    dsimp only
    rw [← Prog.bind_assoc, readTarget_eq (by omega), Prog.ret_bind, ← hdata]
    rfl
  rw [if_neg h2, if_neg h2]
  by_cases h3 : S_ISCHR e.mode || S_ISBLK e.mode
  · rw [if_pos h3, if_pos h3]
    rfl
  rw [if_neg h3, if_neg h3]
  by_cases h4 : S_ISREG e.mode
  · rw [if_pos h4, if_pos h4]
    refine congrArg (sys _ >>= ·) (funext fun f => ?_)
    by_cases hf : 0 ≤ f
    · rw [if_pos hf, if_pos hf, writeLoop_eq f (by omega) 0, Nat.add_zero, Nat.sub_zero, ← hdata]
      rfl
    · rw [if_neg hf, if_neg hf]
  · rw [if_neg h4, if_neg h4]

/-- Whatever the kernel answers, the branch for the type leaves a trace of its kind. -/
theorem node_wp (root : Buf) (e : Stop) : (node root e).wp fun t _ => NodeTrace root e t := by
  unfold node NodeTrace
  cases kind e.mode with
  | dir | link | dev => exact sys_wp.2 fun r => ⟨r, rfl⟩
  | other => rfl
  | reg =>
    refine sys_wp.2 fun f => ?_
    by_cases hf : 0 ≤ f
    · rw [if_pos hf]
      refine Prog.wp_bind.2 ((writeAll_wp f e.data).mono fun ws _ hws => ?_)
      exact sys_wp.2 fun r₁ => sys_wp.2 fun r₂ => ⟨f, Or.inr ⟨hf, ws, r₁, r₂, hws, rfl⟩⟩
    · rw [if_neg hf]
      exact ⟨f, Or.inl ⟨by omega, rfl⟩⟩

/-- **One entry.**  Whatever the kernel answers, a stop leaves a trace of its kind. -/
theorem visit_wp {root d : Buf} {e : Stop} (h : InBuf d e) :
    (visit root d e).wp fun t _ => Handled root e t := by
  rw [visit_eq h]
  have hmk := makePathLoop_wp ((snprintf 1024 root e.name).take 1)
    ((snprintf 1024 root e.name).drop 1)
  refine Prog.wp_bind.2 (hmk.mono fun mk _ hmk => ?_)
  exact (node_wp root e).mono fun t _ ht => ⟨mk, t, rfl, hmk, ht⟩

/-! ### The whole run -/

/-- An entry that is not rejected lies inside the buffer. -/
theorem inBuf_stopAt {d : Buf} {p : ℕ} (hp : p + 110 ≤ d.length)
    (hlen : ¬ (d.drop p).length < total (field (d.drop p) 94) (field (d.drop p) 54)) :
    InBuf d (stopAt p (d.drop p)) := by
  rw [List.length_drop] at hlen
  constructor
  · show p + total _ _ ≤ _
    simp only [stopAt]
    omega
  · simp only [stopAt, slice_drop, Nat.add_assoc]

/-- Everything the walk stops at lies inside the buffer. -/
theorem walk_inBuf {d : Buf} {p : ℕ} {s : Buf} (hs : s = d.drop p) :
    ∀ e ∈ (walk p s).1, InBuf d e := by
  fun_induction walk p s with
  | case1 | case2 | case3 | case5 | case7 => simp
  | case4 p s h hm hns hlen hname r ih =>
    intro e he
    rcases List.mem_cons.1 he with rfl | he
    · subst hs
      rw [List.length_drop] at h
      exact inBuf_stopAt (by omega) hlen
    · exact ih (by rw [hs, List.drop_drop]) e he
  | case6 p s h hm s' hseek ih =>
    have hsuf := (seek_spec hseek).1.trans (List.tail_suffix s)
    refine ih ?_
    calc s' = s.drop (s.length - s'.length) := List.suffix_iff_eq_drop.1 hsuf
      _ = d.drop (p + (s.length - s'.length)) := by
        conv_lhs => rw [hs]
        rw [List.drop_drop, hs]

/-- A trace of log calls only. -/
def LogOnly (logfd : ℤ) (t : Trace) : Prop :=
  ∀ x ∈ t, (∃ b, x.1 = .write logfd b) ∨ x.1 = .fsync logfd

/-- The end writes to the log only. -/
theorem finish_wp (logfd code : ℤ) :
    (finish logfd code).wp fun t rc => LogOnly logfd t ∧ rc = code := by
  unfold finish L
  by_cases h : 0 ≤ logfd
  · rw [if_pos h]
    refine sys_wp.2 fun r₁ => sys_wp.2 fun r₂ => ⟨?_, rfl⟩
    intro x hx
    rcases List.mem_cons.1 hx with rfl | hx
    · exact Or.inl ⟨_, rfl⟩
    · rw [List.mem_singleton.1 hx]
      exact Or.inr rfl
  · rw [if_neg h]
    exact ⟨fun x hx => absurd hx List.not_mem_nil, rfl⟩

/-- **A run of `unpack_cpio`** returns the code of the walk, and its trace is one
segment for each stop, in order, followed by log lines. -/
theorem unpackCpio_runs (logfd : ℤ) (d root : Buf) :
    (unpackCpio logfd d root).wp fun t rc => rc = (walk 0 d).2 ∧
      ∃ segs log, t = segs.flatten ++ log ∧ List.Forall₂ (Handled root) (walk 0 d).1 segs ∧
        LogOnly logfd log := by
  rw [unpackCpio, unpackLoop_eq, List.drop_zero]
  refine Prog.wp_bind.2 ((Prog.wp_each fun e he => visit_wp (walk_inBuf rfl e he)).mono ?_)
  rintro t - ⟨segs, rfl, hsegs⟩
  refine (finish_wp logfd _).mono fun log rc hlog => ?_
  exact ⟨hlog.2, segs, log, rfl, hsegs, hlog.1⟩

/-! ### Creating calls -/

/-- The calls that create a file-system object. -/
def Call.creates : Call → Bool
  | .mkdir .. | .symlink .. | .mknod .. => true
  | .openFile _ flags _ => flags.contains .creat
  | _ => false

/-- The creating calls of a trace, in order. -/
def creating (t : Trace) : List Call := (t.map Prod.fst).filter Call.creates

/-- The creating call of an entry's own branch. -/
def nodeCalls (root : Buf) (e : Stop) : List Call :=
  match kind e.mode with
  | .dir => [.mkdir (fullPath root e) (e.mode &&& 0o7777)]
  | .link => [.symlink (cstr (e.data.take 1023)) (fullPath root e)]
  | .dev => [.mknod (fullPath root e) e.mode (makedev e.rdevmaj e.rdevmin)]
  | .reg => [.openFile (fullPath root e) createFlags (e.mode &&& 0o7777)]
  | .other => []

/-- The creating calls of a stop: its ancestors, then its own. -/
def createCalls (root : Buf) (e : Stop) : List Call :=
  (parents root e.name).map (Call.mkdir · 0o755) ++ nodeCalls root e

/-- The creating calls of traces one after the other. -/
theorem creating_append (t u : Trace) : creating (t ++ u) = creating t ++ creating u := by
  simp [creating]

/-- Writes create nothing. -/
theorem Writes.creating_eq {f : ℤ} {b : Buf} {t : Trace} (h : Writes f b t) : creating t = [] := by
  induction h with
  | done => rfl
  | stop => rfl
  | more _ _ _ ih => exact ih

/-- The log creates nothing. -/
theorem LogOnly.creating_eq {logfd : ℤ} {t : Trace} (h : LogOnly logfd t) : creating t = [] := by
  refine List.filter_eq_nil_iff.2 fun c hc => ?_
  obtain ⟨x, hx, rfl⟩ := List.mem_map.1 hc
  rcases h x hx with ⟨b, hb⟩ | hb <;> rw [hb] <;> exact Bool.false_ne_true

/-- The creating calls of a stop do not depend on the answers. -/
theorem Handled.creating_eq {root : Buf} {e : Stop} {t : Trace} (h : Handled root e t) :
    creating t = createCalls root e := by
  obtain ⟨mk, node, rfl, hmk, hnode⟩ := h
  have hmkc : creating mk = (parents root e.name).map (Call.mkdir · 0o755) := by
    rw [creating, hmk, List.filter_eq_self]
    intro c hc
    obtain ⟨a, -, rfl⟩ := List.mem_map.1 hc
    rfl
  rw [creating_append, hmkc, createCalls]
  congr 1
  unfold NodeTrace at hnode
  unfold nodeCalls
  cases hk : kind e.mode <;> rw [hk] at hnode
  case other => subst hnode; rfl
  case reg =>
    obtain ⟨f, ⟨-, rfl⟩ | ⟨-, ws, r₁, r₂, hws, rfl⟩⟩ := hnode
    · rfl
    · rw [← List.singleton_append, creating_append, creating_append, hws.creating_eq]
      rfl
  all_goals
    obtain ⟨r, rfl⟩ := hnode
    rfl

/-- **The creating calls of a run** are those of the stops of the walk. -/
theorem unpackCpio_creating (logfd : ℤ) (d root : Buf) :
    (unpackCpio logfd d root).wp fun t rc =>
      rc = (walk 0 d).2 ∧ creating t = (walk 0 d).1.flatMap (createCalls root) := by
  refine (unpackCpio_runs logfd d root).mono ?_
  rintro t rc ⟨hrc, segs, log, rfl, hsegs, hlog⟩
  refine ⟨hrc, ?_⟩
  rw [creating_append, hlog.creating_eq, List.append_nil]
  generalize (walk 0 d).1 = stops at hsegs ⊢
  induction hsegs with
  | nil => rfl
  | cons hseg _ ih =>
    rw [List.flatten_cons, creating_append, hseg.creating_eq, ih, List.flatMap_cons]

/-! ### Runs against a kernel -/

section Run

variable {σ : Type} (kernel : σ → Call → ℤ × σ) (s : σ) (logfd : ℤ) (root d : Buf)

/-- The return code of `unpack_cpio` on `d`, run against `kernel`. -/
def codeOf : Option ℤ := ((unpackCpio logfd d root).exec kernel s).result

/-- The calls of `unpack_cpio` on `d`, run against `kernel`, with their answers. -/
def traceOf : Trace := ((unpackCpio logfd d root).exec kernel s).trace

/-- **The return code is that of the walk,** whatever the kernel answers. -/
theorem codeOf_eq : codeOf kernel s logfd root d = some (walk 0 d).2 := by
  obtain ⟨rc, hrc, rfl, -⟩ := Prog.wp_exec (unpackCpio_creating logfd d root) kernel s
  exact hrc

/-- **The creating calls are those of the walk,** too. -/
theorem creating_traceOf :
    creating (traceOf kernel s logfd root d) = (walk 0 d).1.flatMap (createCalls root) := by
  obtain ⟨rc, -, -, hc⟩ := Prog.wp_exec (unpackCpio_creating logfd d root) kernel s
  exact hc

end Run

end Bootstrap
end Twrp

/-
# Modes

Which modes `unpack_cpio` leaves behind in a directory that was empty.  `make_path` creates
what is missing above an entry with the mode `0755`, and `mkdir` and `mknod` subject the
mode of the entry to the mask of the process; only for regular files a `chmod` follows.
`attempts` lists what a run tries to create, in order; what comes first at a place stays
(`extracted_laid`), and from that it can be read off which modes survive
(`unpackCpio_modes_iff`).
-/

import Twrp.Bootstrap.Extract
import Twrp.Posix.Fresh

namespace Twrp
namespace Bootstrap

open Bytes Interaction Cpio Posix

/-! ### What a run attempts -/

/-- Where the entry is to stand. -/
def Stop.place (r : Loc) (e : Stop) : Loc := follow r (comps e.name)

/-- What `make_path` sees of the name: its buffer holds `1023` bytes of `root/name`. -/
def seen (root : Buf) (e : Stop) : Buf := e.name.take (1022 - root.length)

/-- What `make_path` attempts on the way of the path `x`. -/
def made (u : UInt32) (r : Loc) (x : Path) : List (Loc × Object) :=
  (through r x).map fun l => (l, .dir (0o755 &&& ~~~u))

/-- What is attempted for the entry itself; a regular file gets its mode by `chmod`. -/
def Stop.own (u : UInt32) (r : Loc) (e : Stop) : List (Loc × Object) :=
  match kind e.mode with
  | .dir => [(e.place r, .dir (e.mode &&& 0o7777 &&& ~~~u))]
  | .link =>
    if cstr (e.data.take 1023) = [] then []
    else [(e.place r, .link (cstr (e.data.take 1023)))]
  | .dev =>
    [(e.place r,
      .node ⟨e.mode &&& 0o170000, e.rdevmaj, e.rdevmin⟩ (e.mode &&& 0o7777 &&& ~~~u))]
  | .reg => [(e.place r, .file (e.mode &&& 0o7777) e.data)]
  | .other => []

def Stop.attempts (u : UInt32) (root : Buf) (r : Loc) (e : Stop) : List (Loc × Object) :=
  made u r (seen root e) ++ e.own u r

section Run

variable {w₀ w : World} {root : Buf} {r : Loc} {as : List (Loc × Object)}

/-! ### `make_path` -/

/-- Up to the name, `make_path` asks for directories that are there. -/
theorem makePathLoop_root (h : LeadsTo w root r) {done rest : Buf} (hdone : done ≠ [])
    (hroot : done ++ rest = root) (y : Buf) {Q : Unit → World → Prop} :
    (makePathLoop done (rest ++ slash :: y)).after kernel w Q ↔
      (makePathLoop (root ++ [slash]) y).after kernel w Q := by
  induction rest generalizing done with
  | nil =>
    rw [List.append_nil] at hroot
    rw [List.nil_append, makePathLoop, if_pos (by rfl), sys_after, hroot,
      kernel_mkdir_none (h.mkdir_self _)]
  | cons c rest ih =>
    have hstep := @ih (done ++ [c]) (by simp) (by simpa using hroot)
    rw [List.cons_append, makePathLoop]
    split_ifs with hc
    · have habove : w.mkdir done 0o755 = none := by
        rw [← hroot, hc] at h
        exact LeadsTo.mkdir_above h hdone _
      rw [sys_after, kernel_mkdir_none habove]
      exact hstep
    · exact hstep

/-- Nothing but directories has been attempted at these places. -/
def OnlyDirs (as : List (Loc × Object)) (ls : List Loc) : Prop :=
  ∀ l ∈ ls, ∀ o, (l, o) ∈ as → ∃ perm, o = .dir perm

theorem keys_made (u : UInt32) (r : Loc) (x : Path) : (made u r x).map Prod.fst = through r x := by
  rw [made, List.map_map]
  exact List.map_id _

theorem mem_made {u : UInt32} {x : Path} {l : Loc} {o : Object} :
    (l, o) ∈ made u r x ↔ l ∈ through r x ∧ o = .dir (0o755 &&& ~~~u) := by
  rw [made, List.mem_map]
  constructor
  · rintro ⟨l, hl, heq⟩
    obtain ⟨rfl, rfl⟩ := Prod.mk.inj heq
    exact ⟨hl, rfl⟩
  · rintro ⟨hl, rfl⟩
    exact ⟨l, hl, rfl⟩

theorem OnlyDirs.made {ls : List Loc} (h : OnlyDirs as ls) (u : UInt32) (r : Loc) (x : Path) :
    OnlyDirs (as ++ made u r x) ls := by
  intro l hl o ho
  rcases List.mem_append.1 ho with ho | ho
  · exact h l hl o ho
  · exact ⟨_, (mem_made.1 ho).2⟩

/-- **The loop of `make_path`** in the name, `x` of which it has been over. -/
theorem makePathLoop_laid {x y : Buf} (hin : ∀ l ∈ through r (x ++ y), r <+: l)
    (hdirs : OnlyDirs as (through r (x ++ y)))
    (h : Laid root r w₀ (as ++ made w₀.umask r x) w) :
    (makePathLoop (root ++ slash :: x) y).after kernel w
      fun _ => Laid root r w₀ (as ++ made w₀.umask r (x ++ y)) := by
  induction y generalizing x w with
  | nil => rwa [List.append_nil]
  | cons c y ih =>
    have hsplit : x ++ c :: y = x ++ [c] ++ y := List.append_cons ..
    have hdone : root ++ slash :: x ++ [c] = root ++ slash :: (x ++ [c]) := by
      rw [List.append_assoc, List.cons_append]
    rw [hsplit] at hin hdirs ⊢
    rw [makePathLoop, hdone]
    split_ifs with hc
    · obtain rfl : c = slash := hc
      have hpre := through_subset r (x ++ [slash]) y
      have hself : follow r (comps x) ∈ through r (x ++ [slash]) := by
        rw [through_slash]
        exact List.mem_append_right _ (List.mem_singleton_self _)
      have hpaved : Paved w.fs r (comps x) := fun front n rest hx _ => by
        have hfront : follow r front ∈ through r x :=
          mem_through.2 ⟨front, n :: rest, hx, by simp, rfl⟩
        have hall := hpre (through_subset r x [slash] hfront)
        refine h.isDir (hin _ hall) (hdirs.made _ _ _ _ hall) (h.ne_none (hin _ hall) fun _ => ?_)
        rw [List.map_append, keys_made]
        exact List.mem_append_right _ hfront
      have hmk := h.mkdir hpaved (hin _ (hpre hself))
        (h.isDir (hin _ (hpre hself)) (hdirs.made _ _ _ _ (hpre hself))) 0o755
      rw [List.append_assoc] at hmk
      rw [sys_after, kernel, answer_snd]
      refine ih hin hdirs ?_
      rw [made, through_slash, List.map_append]
      exact hmk
    · refine ih hin hdirs ?_
      rwa [made, through_concat r x hc]

/-- The buffer of `make_path`. -/
theorem snprintf_eq_seen (hroot : root.length ≤ 1022) (e : Stop) :
    snprintf 1024 root e.name = root ++ slash :: seen root e := by
  have hone : ascii "/" = [slash] := by decide
  have hn : 1024 - 1 - root.length - 1 = 1022 - root.length := by omega
  rw [snprintf, seen, hone, List.append_assoc, List.take_append, List.take_of_length_le (by omega),
    List.singleton_append, List.take_cons (by omega), hn]

/-- **`make_path`** attempts a directory at every place on the way of what it sees. -/
theorem makePath_laid (h : Laid root r w₀ as w) (hroot : root.length ≤ 1022) {e : Stop}
    (hin : ∀ l ∈ through r (seen root e), r <+: l)
    (hdirs : OnlyDirs as (through r (seen root e))) :
    (makePath root e.name).after kernel w
      fun _ => Laid root r w₀ (as ++ made w₀.umask r (seen root e)) := by
  obtain ⟨c, cs, rfl⟩ := List.exists_cons_of_ne_nil h.leads.1
  have hloop := makePathLoop_laid (x := []) hin hdirs (h.skip fun _ hne => absurd rfl hne)
  rw [makePath, snprintf_eq_seen hroot]
  exact (makePathLoop_root h.leads (by simp) rfl _).2 hloop

/-! ### The entry itself -/

/-- A write of all the bytes at once. -/
theorem writeAll_file {fd : ℤ} {l : Loc} {perm : UInt32} (b : Buf) (hfd : w.fds fd = some l)
    (hfile : w.fs l = some (.file perm [])) :
    (writeAll fd b).after kernel w fun _ w' => Within (fun _ => True) w w' ∧ w'.fds = w.fds ∧
      w'.fs = Function.update w.fs l (some (.file perm b)) := by
  rw [writeAll]
  by_cases hb : b = []
  · rw [dif_pos hb, hb, ← hfile, Function.update_eq_self]
    exact ⟨.refl _ w, rfl, rfl⟩
  · have hw : w.write fd b = some (w.put l (.file perm b)) := by
      rw [World.write, hfd, Option.map_some, hfile]
      rfl
    rw [dif_neg hb, sys_after, kernel_write hw, dif_neg (by simpa using hb), Int.toNat_natCast,
      List.drop_length, writeAll, dif_pos rfl]
    exact ⟨.write hfd trivial (fun _ _ _ => trivial) hw, rfl, rfl⟩

/-- **A regular file** ends up with its data and with its mode, whatever the mask. -/
theorem reg_laid (h : Laid root r w₀ as w) (hlen : root.length ≤ 1024) {e : Stop}
    (hname : e.name.length ≤ 1022) (hk : kind e.mode = .reg) (ho : Opens w r e.name) :
    (node root e).after kernel w fun _ => Laid root r w₀ (as ++ e.own w₀.umask r) := by
  obtain ⟨w₁, hopen, hwithin, hfds₁, hfs₁⟩ := ho.openTrunc h.leads w.nextFd (e.mode &&& 0o7777)
  rw [node, hk, Stop.own, hk, fullPath_eq hlen hname, sys_after, kernel_openFile hopen]
  dsimp only
  rw [if_pos (Int.natCast_nonneg _)]
  refine Prog.after_bind.2 ((writeAll_file e.data (by rw [hfds₁, Function.update_self])
    (by rw [hfs₁, Function.update_self])).mono fun _ w₂ hw₂ => ?_)
  obtain ⟨hwrite, hfds₂, hfs₂⟩ := hw₂
  -- the file is found where it has been created
  set w₃ := w₂.close w.nextFd
  have hclose : Within (fun _ => True) w w₃ := hwithin.trans (hwrite.trans (.close w₂ _))
  have hthere : w₃.fs (follow r (comps e.name)) =
      some (.file (e.mode &&& 0o7777 &&& ~~~w.umask) e.data) := by
    show w₂.fs _ = _
    rw [hfs₂, Function.update_self]
  have hfind := World.find_of_vacant (by simp) (ho.vacant h.leads) hclose.cwd hclose.grows
    fun t ht => by simp [hthere] at ht
  have hchmod : w₃.chmod (root ++ slash :: e.name) (e.mode &&& 0o7777) =
      some (w₃.put (follow r (comps e.name)) (.file (e.mode &&& 0o7777) e.data)) := by
    rw [World.chmod, hfind]
    dsimp only
    rw [hthere]
  rw [sys_after, kernel, sys_after, kernel, hchmod]
  refine h.new (hclose.trans (.put trivial fun o' ho' => ?_)) (fun fd' l hl => ?_) ?_ ho.free
  · obtain rfl := Option.some.inj (hthere.symm.trans ho')
    exact trivial
  · change Function.update w₂.fds w.nextFd none fd' = some l at hl
    rw [hfds₂, hfds₁, Function.update_idem] at hl
    rcases eq_or_ne fd' w.nextFd with rfl | hne
    · rw [Function.update_self] at hl
      exact absurd hl (by simp)
    · rwa [Function.update_of_ne hne] at hl
  · show Function.update w₂.fs _ _ = _
    rw [hfs₂, hfs₁, Function.update_idem, Function.update_idem]
    rfl

/-- **The entry itself** is one attempt. -/
theorem node_laid (h : Laid root r w₀ as w) (hlen : root.length ≤ 1024) {e : Stop}
    (hname : e.name.length ≤ 1022) (hp : Paved w.fs r (comps e.name)) (hr : r <+: e.place r)
    (hdir : kind e.mode = .dir → w.fs (e.place r) ≠ none → IsDir w.fs (e.place r))
    (hnew : kind e.mode ≠ .dir → Opens w r e.name) :
    (node root e).after kernel w fun _ => Laid root r w₀ (as ++ e.own w₀.umask r) := by
  cases hk : kind e.mode with
  | reg => exact reg_laid h hlen hname hk (hnew (by simp [hk]))
  | dir =>
    rw [node, hk, Stop.own, hk, fullPath_eq hlen hname, sys_after, kernel, answer_snd]
    exact h.mkdir hp hr (hdir hk) _
  | dev =>
    rw [node, hk, Stop.own, hk, fullPath_eq hlen hname, sys_after, kernel, answer_snd]
    exact h.mknod (hnew (by simp [hk])) _ _ _
  | other =>
    rw [node, hk, Stop.own, hk, List.append_nil]
    exact h
  | link =>
    rw [node, hk, Stop.own, hk, fullPath_eq hlen hname, sys_after, kernel, answer_snd]
    dsimp only
    split_ifs with ht
    · rw [List.append_nil, World.symlink, if_pos ht]
      exact h
    · exact h.symlink (hnew (by simp [hk])) ht

/-! ### The whole run -/

/-- An archive of a tree: its paths stay below `r`, no two of them lead to the same place, and
only directories are on the way of another one. -/
structure TreeLike (r : Loc) (es : List Stop) : Prop where
  inside : ∀ e ∈ es, ∀ cs, cs <+: comps e.name → r <+: follow r cs
  distinct : (es.map (Stop.place r)).Nodup
  way : ∀ e ∈ es, kind e.mode ≠ .dir → ∀ e' ∈ es, e.place r ∉ through r e'.name

instance (r : Loc) (es : List Stop) : Decidable (TreeLike r es) :=
  decidable_of_iff
    ((∀ e ∈ es, ∀ cs ∈ (comps e.name).inits, r <+: follow r cs) ∧
      (es.map (Stop.place r)).Nodup ∧
        ∀ e ∈ es, kind e.mode ≠ .dir → ∀ e' ∈ es, e.place r ∉ through r e'.name)
    ⟨fun ⟨h₁, h₂, h₃⟩ => ⟨fun e he cs hcs => h₁ e he cs ((List.mem_inits ..).2 hcs), h₂, h₃⟩,
      fun ⟨h₁, h₂, h₃⟩ => ⟨fun e he cs hcs => h₁ e he cs ((List.mem_inits ..).1 hcs), h₂, h₃⟩⟩

/-- The directory that `root` leads to is empty, and the log lies elsewhere. -/
structure Fresh (w : World) (root : Buf) (r : Loc) (logfd : ℤ) : Prop where
  leads : LeadsTo w root r
  empty : ∀ l, r <+: l → l ≠ r → w.fs l = none
  log : ∀ l, 0 ≤ logfd → w.fds logfd = some l → ¬ r <+: l

theorem Fresh.laid {logfd : ℤ} (h : Fresh w root r logfd) : Laid root r w [] w :=
  ⟨h.leads, rfl, fun _ _ hl => hl, rfl, h.empty⟩

/-- What `make_path` sees of a name is the name, or lacks its last byte. -/
theorem seen_cases {e : Stop} (hlen : root.length + e.name.length ≤ 1023) :
    e.name = seen root e ∨ ∃ c, e.name = seen root e ++ [c] := by
  have hsplit : e.name = seen root e ++ e.name.drop (1022 - root.length) :=
    (List.take_append_drop ..).symm
  have hdrop : (e.name.drop (1022 - root.length)).length ≤ 1 := by
    rw [List.length_drop]
    omega
  rcases Nat.le_one_iff_eq_zero_or_eq_one.1 hdrop with h0 | h1
  · rw [List.length_eq_zero_iff.1 h0, List.append_nil] at hsplit
    exact .inl hsplit
  · obtain ⟨c, hc⟩ := List.length_eq_one_iff.1 h1
    exact .inr ⟨c, hc ▸ hsplit⟩

theorem through_seen_subset (root : Buf) (r : Loc) (e : Stop) :
    through r (seen root e) ⊆ through r e.name := by
  have h := through_subset r (seen root e) (e.name.drop (1022 - root.length))
  rwa [seen, List.take_append_drop] at h

/-- **Below what `make_path` has created,** the path of the entry leads through directories. -/
theorem paved_seen {e : Stop} (hlen : root.length + e.name.length ≤ 1023) {fs : FS}
    (h : ∀ l ∈ through r (seen root e), IsDir fs l) : Paved fs r (comps e.name) := by
  intro front n rest hx hn
  refine h _ ?_
  rcases seen_cases hlen with hseen | ⟨c, hseen⟩
  · exact mem_through.2 ⟨front, n :: rest, hseen ▸ hx, by simp, rfl⟩
  · exact mem_through_of_concat (hseen ▸ hx) hn

end Run

section Tree

variable {r : Loc} {root : Buf} {u : UInt32} {es pre post : List Stop} {e : Stop} {o : Object}

theorem Stop.mem_own {l : Loc} (h : (l, o) ∈ e.own u r) : l = e.place r := by
  unfold Stop.own at h
  cases hk : kind e.mode <;> rw [hk] at h
  case other => exact absurd h List.not_mem_nil
  case link =>
    dsimp only at h
    split_ifs at h
    · exact absurd h List.not_mem_nil
    · exact (Prod.mk.inj (List.mem_singleton.1 h)).1
  all_goals exact (Prod.mk.inj (List.mem_singleton.1 h)).1

theorem TreeLike.place_ne (ht : TreeLike r es) (hes : es = pre ++ e :: post) {e' : Stop}
    (he' : e' ∈ pre) : e'.place r ≠ e.place r := by
  have h := ht.distinct
  rw [hes, List.map_append, List.nodup_append] at h
  exact h.2.2 _ (List.mem_map_of_mem he') _ (List.mem_map_of_mem (List.mem_cons_self ..))

/-- **Before it is its turn,** the place of an entry is at most one on the way of others. -/
theorem TreeLike.mem_before (ht : TreeLike r es) (hes : es = pre ++ e :: post)
    (h : (e.place r, o) ∈ pre.flatMap (Stop.attempts u root r) ++ made u r (seen root e)) :
    (∃ e' ∈ pre ++ [e], e.place r ∈ through r (seen root e')) ∧ o = .dir (0o755 &&& ~~~u) := by
  have hmade : ∀ e' ∈ pre ++ [e], (e.place r, o) ∈ made u r (seen root e') →
      (∃ e' ∈ pre ++ [e], e.place r ∈ through r (seen root e')) ∧ o = .dir (0o755 &&& ~~~u) :=
    fun e' he' h => ⟨⟨e', he', (mem_made.1 h).1⟩, (mem_made.1 h).2⟩
  rcases List.mem_append.1 h with h | h
  · obtain ⟨e', he', h⟩ := List.mem_flatMap.1 h
    rcases List.mem_append.1 h with h | h
    · exact hmade e' (List.mem_append_left _ he') h
    · exact absurd (Stop.mem_own h).symm (ht.place_ne hes he')
  · exact hmade e (by simp) h

theorem TreeLike.not_through (ht : TreeLike r es) (hes : es = pre ++ e :: post)
    (hk : kind e.mode ≠ .dir) : ¬ ∃ e' ∈ pre ++ [e], e.place r ∈ through r (seen root e') := by
  rintro ⟨e', he', h⟩
  refine ht.way e (by simp [hes]) hk e' ?_ (through_seen_subset root r e' h)
  rw [hes, List.append_cons]
  exact List.mem_append_left _ he'

/-- On the way of an entry only directories are ever attempted. -/
theorem TreeLike.onlyDirs (ht : TreeLike r es) (hpre : pre ⊆ es) (he : e ∈ es) :
    OnlyDirs (pre.flatMap (Stop.attempts u root r)) (through r e.name) := by
  intro l hl o ho
  obtain ⟨e', he', h⟩ := List.mem_flatMap.1 ho
  rcases List.mem_append.1 h with h | h
  · exact ⟨_, (mem_made.1 h).2⟩
  · by_cases hk : kind e'.mode = .dir
    · rw [Stop.own, hk] at h
      exact ⟨_, (Prod.mk.inj (List.mem_singleton.1 h)).2⟩
    · exact absurd (Stop.mem_own h ▸ hl) (ht.way e' (hpre he') hk e he)

/-- **One entry** adds its attempts. -/
theorem visit_laid {w₀ w : World} {d : Buf} (ht : TreeLike r es) (hes : es = pre ++ e :: post)
    (hin : InBuf d e) (hroot : root.length ≤ 1) (hname : e.name.length ≤ 1022)
    (h : Laid root r w₀ (pre.flatMap (Stop.attempts w₀.umask root r)) w) :
    (visit root d e).after kernel w fun _ =>
      Laid root r w₀ ((pre ++ [e]).flatMap (Stop.attempts w₀.umask root r)) := by
  have he : e ∈ es := by simp [hes]
  have hpre : pre ⊆ es := by simp [hes]
  have hbelow : ∀ l ∈ through r e.name, r <+: l := fun l hl => by
    obtain ⟨front, rest, hx, -, rfl⟩ := mem_through.1 hl
    exact ht.inside e he front ⟨rest, hx.symm⟩
  have hplace : r <+: e.place r := ht.inside e he _ List.prefix_rfl
  have hsub := through_seen_subset root r e
  have hdirs : OnlyDirs (pre.flatMap (Stop.attempts w₀.umask root r)) (through r (seen root e)) :=
    fun l hl => ht.onlyDirs hpre he l (hsub hl)
  rw [visit_eq hin]
  refine Prog.after_bind.2 ((makePath_laid h (by omega) (fun l hl => hbelow l (hsub hl))
    hdirs).mono fun _ w₁ h₁ => ?_)
  have hpaved : Paved w₁.fs r (comps e.name) := by
    have hfits : root.length + e.name.length ≤ 1023 := by omega
    refine paved_seen hfits fun l hl => ?_
    refine h₁.isDir (hbelow l (hsub hl)) (hdirs.made _ _ _ l hl)
      (h₁.ne_none (hbelow l (hsub hl)) fun _ => ?_)
    rw [List.map_append, keys_made]
    exact List.mem_append_right _ hl
  rw [List.flatMap_append, List.flatMap_singleton, Stop.attempts, ← List.append_assoc]
  refine node_laid h₁ (by omega) hname hpaved hplace (fun _ => ?_) fun hk => ?_
  · exact h₁.isDir hplace fun o ho => ⟨_, (ht.mem_before hes ho).2⟩
  · have hlast : e.place r ∉ through r e.name := ht.way e he hk e he
    refine ⟨hpaved, hplace, hlast, ?_⟩
    by_contra hsome
    obtain ⟨o, ho⟩ := Option.ne_none_iff_exists'.1 hsome
    have hne : e.place r ≠ r := fun heq => by
      rw [heq] at hlast
      exact hlast (self_mem_through r e.name)
    exact ht.not_through hes hk (ht.mem_before hes (h₁.mem hplace hne ho)).1

/-- **The directory holds what was attempted first.** -/
theorem extracted_laid {w : World} {logfd : ℤ} {d : Buf} (hw : Fresh w root r logfd)
    (hroot : root.length ≤ 1) (ht : TreeLike r (walk 0 d).1) :
    (extracted logfd root d w).fs r = w.fs r ∧ ∀ l, r <+: l → l ≠ r →
      (extracted logfd root d w).fs l =
        ((walk 0 d).1.flatMap (Stop.attempts w.umask root r)).lookup l := by
  have hentries : (Prog.each (walk 0 d).1 (visit root d)).after kernel w
      fun _ => Laid root r w ((walk 0 d).1.flatMap (Stop.attempts w.umask root r)) := by
    refine Prog.after_each (I := fun pre => Laid root r w (pre.flatMap _))
      (fun pre e post hsplit w₁ h₁ => ?_) hw.laid
    have he : e ∈ (walk 0 d).1 := by simp [hsplit]
    exact visit_laid ht hsplit (walk_inBuf rfl e he) hroot (length_name_le e he) h₁
  have hrun : (unpackCpio logfd d root).after kernel w fun _ w' =>
      w'.fs r = w.fs r ∧ ∀ l, r <+: l → l ≠ r →
        w'.fs l = ((walk 0 d).1.flatMap (Stop.attempts w.umask root r)).lookup l := by
    rw [unpackCpio, unpackLoop_eq, List.drop_zero]
    refine Prog.after_bind.2 (hentries.mono fun _ w₁ h₁ => ?_)
    -- the line of the log goes elsewhere
    refine (finish_after kernel_obeys (P := fun p => ∀ l, p = .loc l → ¬ r <+: l)
      (fun l hlog hl => ⟨?_, by simp⟩) _).mono fun _ w₂ h₂ => ?_
    · rintro l' ⟨rfl⟩
      exact hw.log l hlog (h₁.fds logfd l hl)
    have hsame : ∀ l, r <+: l → w₂.fs l = w₁.fs l := fun l hl =>
      h₂.2.fs l fun hout => hout l rfl hl
    exact ⟨(hsame r List.prefix_rfl).trans h₁.top,
      fun l hl hne => (hsame l hl).trans (h₁.below l hl hne)⟩
  obtain ⟨_, -, h⟩ := Prog.after_exec hrun
  exact h

/-- **What ends up at the place of an entry:** a directory of `make_path`, if the place is on
the way of an entry up to it, and else what the entry brings. -/
theorem TreeLike.lookup_place (ht : TreeLike r es) (hes : es = pre ++ e :: post) :
    (es.flatMap (Stop.attempts u root r)).lookup (e.place r) =
      if ∃ e' ∈ pre ++ [e], e.place r ∈ through r (seen root e') then
        some (.dir (0o755 &&& ~~~u))
      else (e.own u r ++ post.flatMap (Stop.attempts u root r)).lookup (e.place r) := by
  have hsplit : es.flatMap (Stop.attempts u root r) =
      pre.flatMap (Stop.attempts u root r) ++ made u r (seen root e) ++
        (e.own u r ++ post.flatMap (Stop.attempts u root r)) := by
    rw [hes, List.flatMap_append, List.flatMap_cons, Stop.attempts]
    simp only [List.append_assoc]
  rw [hsplit, List.lookup_append]
  cases hfirst : (pre.flatMap (Stop.attempts u root r) ++ made u r (seen root e)).lookup
      (e.place r) with
  | some o =>
    obtain ⟨hway, rfl⟩ := ht.mem_before hes (mem_of_lookup hfirst)
    rw [if_pos hway, Option.some_or]
  | none =>
    rw [Option.none_or, if_neg]
    rintro ⟨e', he', hway⟩
    rw [List.lookup_eq_none_iff] at hfirst
    have hmem : (e.place r, .dir (0o755 &&& ~~~u)) ∈
        pre.flatMap (Stop.attempts u root r) ++ made u r (seen root e) := by
      rcases List.mem_append.1 he' with he' | he'
      · exact List.mem_append_left _ (List.mem_flatMap.2 ⟨e', he', List.mem_append_left _
          (mem_made.2 ⟨hway, rfl⟩)⟩)
      · obtain rfl := List.mem_singleton.1 he'
        exact List.mem_append_right _ (mem_made.2 ⟨hway, rfl⟩)
    exact absurd (hfirst _ hmem) (by simp)

end Tree

/-! ### Which modes survive -/

/-- The object has the type and the permission bits of `mode`. -/
def HasMode (mode : UInt32) : Object → Prop
  | .dir perm => kind mode = .dir ∧ perm = mode &&& 0o7777
  | .file perm _ => kind mode = .reg ∧ perm = mode &&& 0o7777
  | .node x perm => kind mode = .dev ∧ x.fmt = fmt mode ∧ perm = mode &&& 0o7777
  | .link _ => kind mode = .link

instance (mode : UInt32) : (o : Object) → Decidable (HasMode mode o)
  | .dir _ => inferInstanceAs (Decidable (_ ∧ _))
  | .file .. => inferInstanceAs (Decidable (_ ∧ _))
  | .node .. => inferInstanceAs (Decidable (_ ∧ _ ∧ _))
  | .link _ => inferInstanceAs (Decidable (_ = _))

/-- A directory, a regular file or a device exists with its type and its permission bits. -/
def Stop.Survives (fs : FS) (r : Loc) (e : Stop) : Prop :=
  kind e.mode = .dir ∨ kind e.mode = .reg ∨ kind e.mode = .dev →
    ∃ o, fs (e.place r) = some o ∧ HasMode e.mode o

instance (fs : FS) (r : Loc) (e : Stop) : Decidable (e.Survives fs r) :=
  inferInstanceAs (Decidable (_ → ∃ o ∈ fs (e.place r), HasMode e.mode o))

/-- What the mode of an entry is up against when the entries `pre` come before it.  The root
directory keeps the mode it has.  A directory on the way of an entry up to its own (its own
path is one, if it ends in a slash) has the mode `make_path` gives it.  Other directories and
all devices lose the bits in the mask; regular files lose nothing. -/
def Stop.Keeps (w : World) (root : Buf) (r : Loc) (pre : List Stop) (e : Stop) : Prop :=
  match kind e.mode with
  | .dir =>
    if e.place r = r then w.fs r = some (.dir (e.mode &&& 0o7777))
    else if ∃ e' ∈ pre ++ [e], e.place r ∈ through r (seen root e') then
      e.mode &&& 0o7777 = 0o755 &&& ~~~w.umask
    else e.mode &&& 0o7777 &&& w.umask = 0
  | .dev => e.mode &&& 0o7777 &&& w.umask = 0
  | .link | .reg | .other => True

theorem and_not_eq_iff (a u : UInt32) : a &&& ~~~u = a ↔ a &&& u = 0 := by
  constructor
  · intro h
    rw [← h, UInt32.and_assoc, UInt32.not_and_self, UInt32.and_zero]
  · intro h
    calc a &&& ~~~u = (a &&& u) ||| (a &&& ~~~u) := by rw [h, UInt32.zero_or]
      _ = a &&& (u ||| ~~~u) := UInt32.toBitVec_inj.1 BitVec.and_or_distrib_left.symm
      _ = a := by rw [UInt32.or_not_self, UInt32.and_neg_one]

section Survives

variable {w : World} {root d : Buf} {r : Loc} {logfd : ℤ} {pre post : List Stop} {e : Stop}

theorem Stop.survives_iff {fs : FS} {o : Object} (hk : kind e.mode = .dir ∨ kind e.mode = .reg ∨
    kind e.mode = .dev) (ho : fs (e.place r) = some o) : e.Survives fs r ↔ HasMode e.mode o := by
  rw [Stop.Survives, ho]
  simp [hk]

/-- One entry. -/
theorem survives_iff_keeps (hw : Fresh w root r logfd) (hroot : root.length ≤ 1)
    (ht : TreeLike r (walk 0 d).1) (hsplit : (walk 0 d).1 = pre ++ e :: post) :
    e.Survives (extracted logfd root d w).fs r ↔ e.Keeps w root r pre := by
  obtain ⟨htop, hbelow⟩ := extracted_laid hw hroot ht
  have he : e ∈ (walk 0 d).1 := by simp [hsplit]
  have hplace : r <+: e.place r := ht.inside e he _ List.prefix_rfl
  -- where an entry that is no directory is to stand, nothing comes before it
  have hown : kind e.mode ≠ .dir → (extracted logfd root d w).fs (e.place r) =
      (e.own w.umask r ++ post.flatMap (Stop.attempts w.umask root r)).lookup (e.place r) := by
    intro hk
    have hne : e.place r ≠ r := fun heq =>
      ht.way e he hk e he (heq.symm ▸ self_mem_through r e.name)
    rw [hbelow _ hplace hne, ht.lookup_place hsplit, if_neg (ht.not_through hsplit hk)]
  cases hk : kind e.mode with
  | link | other => simp [Stop.Survives, Stop.Keeps, hk]
  | reg =>
    have ho := hown (by simp [hk])
    rw [Stop.own, hk, List.singleton_append, List.lookup_cons_self] at ho
    rw [Stop.survives_iff (by simp [hk]) ho]
    simp [HasMode, Stop.Keeps, hk]
  | dev =>
    have ho := hown (by simp [hk])
    rw [Stop.own, hk, List.singleton_append, List.lookup_cons_self] at ho
    rw [Stop.survives_iff (by simp [hk]) ho]
    simp [HasMode, Stop.Keeps, hk, fmt, and_not_eq_iff]
  | dir =>
    rw [Stop.Keeps, hk]
    dsimp only
    split_ifs with hr hway
    · obtain ⟨perm, hperm⟩ := hw.leads.2.2
      rw [Stop.survives_iff (o := .dir perm) (by simp [hk]) (by rw [hr, htop, hperm]), hperm]
      simp [HasMode, hk]
    · have ho := hbelow _ hplace hr
      rw [ht.lookup_place hsplit, if_pos hway] at ho
      rw [Stop.survives_iff (by simp [hk]) ho]
      simp only [HasMode, hk, true_and]
      exact eq_comm
    · have ho := hbelow _ hplace hr
      rw [ht.lookup_place hsplit, if_neg hway, Stop.own, hk, List.singleton_append,
        List.lookup_cons_self] at ho
      rw [Stop.survives_iff (by simp [hk]) ho]
      simp only [HasMode, hk, true_and]
      exact and_not_eq_iff ..

/-- **All modes survive** if and only if each entry keeps its own. -/
theorem unpackCpio_modes_iff (hw : Fresh w root r logfd) (hroot : root.length ≤ 1)
    (ht : TreeLike r (walk 0 d).1) :
    (∀ e ∈ (walk 0 d).1, e.Survives (extracted logfd root d w).fs r) ↔
      ∀ pre e post, (walk 0 d).1 = pre ++ e :: post → e.Keeps w root r pre := by
  constructor
  · intro h pre e post hsplit
    exact (survives_iff_keeps hw hroot ht hsplit).1 (h e (by simp [hsplit]))
  · intro h e he
    obtain ⟨pre, post, hsplit⟩ := List.append_of_mem he
    exact (survives_iff_keeps hw hroot ht hsplit).2 (h pre e post hsplit)

end Survives

/-- A file, behind it its directory with a slash at the end of its name, and a device. -/
def lateArchive : Buf :=
  compactArchive [({ name := "etc/rc", data := .bytes [], mode := 0o100600 }, 0),
    ({ name := "etc/", data := .bytes [], mode := 0o040700 }, 0),
    ({ name := "null", data := .bytes [], mode := 0o020666, rdevMajor := 1, rdevMinor := 3 }, 0)]
    DevNodes.trailerItem []

theorem mountedWorld_fresh : Fresh mountedWorld (ascii ".") [ascii "newroot"] (-1) where
  leads := mountedWorld_leadsTo
  empty := fun l hl hne => by
    have hlen := hl.length_le
    simp only [mountedWorld]
    rw [if_neg]
    rintro (rfl | rfl | rfl)
    · exact absurd hlen (by decide)
    · exact hne rfl
    · exact absurd hl (by decide)
  log := fun _ h => absurd h (by decide)

/-- The hypotheses are satisfiable: a tree whose directory comes late. -/
theorem unpackCpio_modes_lateArchive :
    (∀ e ∈ (walk 0 lateArchive).1, e.Survives
      (extracted (-1) (ascii ".") lateArchive mountedWorld).fs [ascii "newroot"]) ↔
      ∀ pre e post, (walk 0 lateArchive).1 = pre ++ e :: post →
        e.Keeps mountedWorld (ascii ".") [ascii "newroot"] pre :=
  unpackCpio_modes_iff mountedWorld_fresh (by decide) (by decide +kernel)

/-- **Two modes are lost there:** the directory is open to everyone, and the device is not. -/
theorem not_survives_lateArchive :
    TreeLike [ascii "newroot"] (walk 0 lateArchive).1 ∧
    codeOf kernel mountedWorld (-1) (ascii ".") lateArchive = some 0 ∧
    (extracted (-1) (ascii ".") lateArchive mountedWorld).fs [ascii "newroot", ascii "etc"] =
      some (.dir 0o755) ∧
    (extracted (-1) (ascii ".") lateArchive mountedWorld).fs [ascii "newroot", ascii "null"] =
      some (.node ⟨0o020000, 1, 3⟩ 0o644) ∧
    ¬ ∀ e ∈ (walk 0 lateArchive).1, e.Survives
      (extracted (-1) (ascii ".") lateArchive mountedWorld).fs [ascii "newroot"] := by
  decide +kernel

end Bootstrap
end Twrp

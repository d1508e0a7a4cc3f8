/-
# Extraction below the root

`unpack_cpio` run on a file system with `..` and symbolic links.  Nothing in it looks at
the names and the targets that an archive brings: a `..` in a name leads out of the root
directory, and so does a link that an earlier entry has created; and a file that is opened
where a device node stands is the device, which is nowhere below the root.

But these are the only ways out.  If no name has a component `..`, no link leads up and no
device stands in front of a file (`Stop.Contained`), or if the path of each entry as it stands
stays below the root and meets no link and no node (`Stop.Direct`), every object that is
created, truncated, written or changed lies below the root, and apart from the log nothing
else changes (`unpackCpio_within`).  The kernel may refuse any call and cut any write short.
-/

import Twrp.Bootstrap.Compact
import Twrp.Bootstrap.Kernel
import Twrp.Posix.Below

namespace Twrp
namespace Bootstrap

open Bytes Interaction Cpio Posix

/-- What `unpack_cpio` leaves of a world, when nothing is refused without need. -/
def extracted (logfd : ℤ) (root d : Buf) (w : World) : World :=
  ((unpackCpio logfd d root).exec kernel w).state

theorem sys_after {σ α : Type} {h : σ → Call → ℤ × σ} {s : σ} {c : Call} {f : ℤ → Sys α}
    {Q : α → σ → Prop} :
    (sys c >>= f).after h s Q ↔ (f (h s c).1).after h (h s c).2 Q :=
  Iff.rfl

/-! ### One entry -/

/-- Where the links and nodes that `L` allows stand, the entry changes nothing but places in
`P`, and leaves only links and nodes that `L'` allows. -/
structure Stop.Admitted (P : Place → Prop) (L L' : Loc → Target → Prop) (r : Loc) (e : Stop) :
    Prop where
  mono : ∀ l x, L l x → L' l x
  front : FrontStays P L r (comps e.name)
  whole : kind e.mode = .reg → Stays P L r (comps e.name)
  link : kind e.mode = .link → Allows L L' r (comps e.name) (.path (cstr (e.data.take 1023)))
  node : kind e.mode = .dev →
    Allows L L' r (comps e.name) (.device ⟨e.mode &&& 0o170000, e.rdevmaj, e.rdevmin⟩)

section Entry

variable {P : Place → Prop} {L L' : Loc → Target → Prop} {w w' : World} {root : Buf} {r : Loc}

/-- A call that is refused leaves everything as it is. -/
theorem confined_of (hs : Sealed L w.fs r) {o : Option World} (h : w' = w ∨ o = some w')
    (ho : ∀ w', o = some w' → Confined P L r w w') : Confined P L r w w' := by
  rcases h with rfl | h
  · exact .refl hs
  · exact ho w' h

/-- **A directory that `make_path` asks for** lies below the root, or is there. -/
theorem Answers.mkdir_above {p y name : Buf} {mode : UInt32} {a : ℤ}
    (ha : Answers w (.mkdir p mode) a w') (h : LeadsTo w root r) (hs : Sealed L w.fs r)
    (hp : p ≠ []) (hpre : p ++ slash :: y = root ++ slash :: name)
    (hname : FrontStays P L r (comps name)) : Confined P L r w w' := by
  refine confined_of hs ha.of_mkdir fun w₁ hw₁ => ?_
  have hthere : ¬ w.mkdir p mode = none := by
    rw [hw₁]
    exact Option.some_ne_none w₁
  rcases List.append_eq_append_iff.1 hpre with ⟨b, hb, hrest⟩ | ⟨b, rfl, hrest⟩
  · cases b with
    | nil =>
      refine absurd ?_ hthere
      rw [← List.append_nil p, ← hb]
      exact h.mkdir_self mode
    | cons c b =>
      -- a directory above the root
      obtain rfl : slash = c := (List.cons.inj hrest).1
      exact absurd (LeadsTo.mkdir_above (hb ▸ h) hp mode) hthere
  · cases b with
    | nil =>
      refine absurd ?_ hthere
      rw [List.append_nil]
      exact h.mkdir_self mode
    | cons c x =>
      -- a directory of the name
      obtain rfl : slash = c := (List.cons.inj hrest).1
      have hx : name = x ++ slash :: y := (List.cons.inj hrest).2
      rw [hx, comps_append] at hname
      exact h.mkdir_below hs hname.of_append hw₁

/-- The whole path fits into `full`. -/
theorem fullPath_eq (hlen : root.length ≤ 1024) {e : Stop} (hname : e.name.length ≤ 1022) :
    fullPath root e = root ++ slash :: e.name := by
  rw [fullPath, snprintf, List.append_assoc]
  refine List.take_of_length_le ?_
  rw [List.length_append, List.length_append, length_ascii]
  have : "/".length = 1 := by decide
  omega

variable {σ : Type} {kernel : σ → Call → ℤ × σ} {view : σ → World} (hk : Obeys kernel view)

include hk

/-- The loop of `make_path` changes nothing outside. -/
theorem makePathLoop_after {s : σ} (h : LeadsTo (view s) root r) (hs : Sealed L (view s).fs r)
    {name : Buf} (hname : FrontStays P L r (comps name)) {rest done : Buf} (hdone : done ≠ [])
    (hpre : done ++ rest <+: root ++ slash :: name) :
    (makePathLoop done rest).after kernel s fun _ s' => Confined P L r (view s) (view s') := by
  induction rest generalizing done s with
  | nil => exact Confined.refl hs
  | cons c rest ih =>
    have hpre' : done ++ [c] ++ rest <+: root ++ slash :: name := by
      rwa [List.append_assoc, List.singleton_append]
    rw [makePathLoop]
    split_ifs with hc
    · obtain ⟨y, hy⟩ := hpre
      have hsplit : done ++ slash :: (rest ++ y) = root ++ slash :: name := by
        rw [← hy, hc, List.append_assoc]
        rfl
      have hmk := (hk s (.mkdir done 0o755) rfl).mkdir_above h hs hdone hsplit hname
      exact (ih (h.of_within hmk.within) hmk.isSealed (by simp) hpre').mono fun _ _ => hmk.trans
    · exact ih h hs (by simp) hpre'

/-- `make_path` changes nothing outside. -/
theorem makePath_after {s : σ} (h : LeadsTo (view s) root r) (hs : Sealed L (view s).fs r)
    {name : Buf} (hname : FrontStays P L r (comps name)) :
    (makePath root name).after kernel s fun _ s' => Confined P L r (view s) (view s') := by
  obtain ⟨c, cs, hroot⟩ := List.exists_cons_of_ne_nil h.1
  have hone : (snprintf 1024 root name).take 1 ≠ [] := by
    rw [snprintf, hroot]
    simp
  have hpre : snprintf 1024 root name <+: root ++ slash :: name := by
    rw [snprintf, List.append_assoc]
    exact List.take_prefix ..
  exact makePathLoop_after hk h hs hname hone (by rwa [List.take_append_drop])

/-- The writes to what has been opened. -/
theorem writeAll_after {fd : ℤ} {l : Loc} (b : Buf) {s : σ} (hs : Sealed L (view s).fs r)
    (hfd : (view s).fds fd = some l) (hl : Ready P (view s).fs l) :
    (writeAll fd b).after kernel s fun _ s' => Confined P L r (view s) (view s') := by
  fun_induction writeAll fd b generalizing s with
  | case1 => exact Confined.refl hs
  | case2 b hb ih =>
    have hwrite : Confined P L r (view s) (view (kernel s (.write fd b)).2) ∧
        (view (kernel s (.write fd b)).2).fds fd = some l := by
      rcases (hk s (.write fd b) rfl).of_write with heq | ⟨n, hn⟩
      · rw [heq]
        exact ⟨.refl hs, hfd⟩
      · obtain ⟨hconf, hfds⟩ := write_below hs hfd hl hn
        exact ⟨hconf, by rw [hfds, hfd]⟩
    obtain ⟨hconf, hfd'⟩ := hwrite
    refine sys_after.2 ?_
    split
    · exact hconf
    next hw =>
      exact (ih _ hw hconf.isSealed hfd' (hl.of_grows hconf.within.grows)).mono
        fun _ _ => hconf.trans

/-- **The entry itself changes nothing outside.** -/
theorem node_after {s : σ} (h : LeadsTo (view s) root r) (hlen : root.length ≤ 1024)
    (hs : Sealed L (view s).fs r) {e : Stop} (hname : e.name.length ≤ 1022)
    (he : e.Admitted P L L' r) :
    (node root e).after kernel s fun _ s' => Confined P L' r (view s) (view s') := by
  unfold node
  rw [fullPath_eq hlen hname]
  cases hkind : kind e.mode with
  | dir =>
    exact (confined_of hs (hk s (.mkdir _ _) rfl).of_mkdir fun w' =>
      h.mkdir_below hs he.front).mono he.mono
  | link =>
    exact confined_of (hs.mono he.mono) (hk s (.symlink _ _) rfl).of_symlink fun w' =>
      h.symlink_below hs he.front he.mono (he.link hkind)
  | dev =>
    exact confined_of (hs.mono he.mono) (hk s (.mknod _ _ _) rfl).of_mknod fun w' =>
      h.mknod_below hs he.front he.mono (he.node hkind)
  | other => exact Confined.refl (hs.mono he.mono)
  | reg =>
    have hx := he.whole hkind
    refine sys_after.2 ?_
    have hopen := (hk s _ (fills_openFile (root ++ slash :: e.name)
      (e.mode &&& 0o7777))).of_openFile
    generalize kernel s (.openFile (root ++ slash :: e.name) createFlags (e.mode &&& 0o7777)) = x
      at hopen ⊢
    obtain ⟨fd, s₁⟩ := x
    dsimp only at hopen ⊢
    rcases hopen with ⟨hneg, heq⟩ | ⟨hfd, ho⟩
    · rw [if_neg (by omega)]
      show Confined P L' r (view s) (view s₁)
      rw [heq]
      exact .refl (hs.mono he.mono)
    · obtain ⟨hconf, l, hl, hready⟩ := h.openTrunc_below hs hx ho
      rw [if_pos hfd]
      refine Prog.after_bind.2 ((writeAll_after hk e.data hconf.isSealed hl hready).mono
        fun _ s₂ h₂ => ?_)
      -- the file is closed, and its mode is set
      have hclosed := hconf.trans (h₂.trans (confined_of h₂.isSealed
        (hk s₂ (.close fd) rfl).of_close fun w' hw' =>
          Option.some.inj hw' ▸ Confined.close h₂.isSealed fd))
      refine (hclosed.trans (confined_of hclosed.isSealed (hk _ (.chmod _ _) rfl).of_chmod
        fun w' hw' => ?_)).mono he.mono
      exact (h.of_within hclosed.within).chmod_below hclosed.isSealed hx hw'

/-- What is left of an entry. -/
theorem visit_after {s : σ} (h : LeadsTo (view s) root r) (hlen : root.length ≤ 1024)
    (hs : Sealed L (view s).fs r) {d : Buf} {e : Stop} (hin : InBuf d e)
    (hname : e.name.length ≤ 1022) (he : e.Admitted P L L' r) :
    (visit root d e).after kernel s fun _ s' => Confined P L' r (view s) (view s') := by
  rw [visit_eq hin]
  refine Prog.after_bind.2 ((makePath_after hk h hs he.front).mono fun _ s₁ h₁ => ?_)
  exact (node_after hk (h.of_within h₁.within) hlen h₁.isSealed hname he).mono fun _ _ => h₁.trans

end Entry

/-! ### The whole run -/

/-- The names that `unpack_cpio` reads are short. -/
theorem length_name_le {p : ℕ} {s : Buf} : ∀ e ∈ (walk p s).1, e.name.length ≤ 1022 := by
  fun_induction walk p s with
  | case1 | case2 | case3 | case5 | case7 => simp
  | case4 p s h hm hns hlen hname r ih =>
    refine List.forall_mem_cons.2 ⟨?_, ih⟩
    have hlt : (field s 94).toNat < 1024 :=
      UInt32.lt_iff_toNat_lt.1 (UInt32.not_le.1 fun h => hns (.inr h))
    have hraw : (rawName s).length ≤ 1022 := by
      refine (List.takeWhile_prefix _).length_le.trans ?_
      rw [length_slice]
      omega
    show (dropDotSlash (rawName s)).length ≤ 1022
    unfold dropDotSlash
    split_ifs
    · rw [List.length_drop]
      omega
    · exact hraw
  | case6 p s h hm s' hseek ih => exact ih

/-- What may be written to as the log: its file, or a device if it is no file. -/
def LogPlace (w : World) (logfd : ℤ) (p : Place) : Prop :=
  0 ≤ logfd ∧ ∃ l, w.fds logfd = some l ∧
    (p = .loc l ∨ ¬ IsFile w.fs l ∧ ∃ x, p = .device x)

section Run

variable {P : Place → Prop} {σ : Type} {kernel : σ → Call → ℤ × σ} {view : σ → World}
  (hk : Obeys kernel view)

include hk

/-- The line of the log. -/
theorem finish_after {s : σ} {logfd : ℤ}
    (h : ∀ l, 0 ≤ logfd → (view s).fds logfd = some l → P (.loc l) ∧
      ∀ x perm, (view s).fs l = some (.node x perm) → P (.device x)) (code : ℤ) :
    (finish logfd code).after kernel s fun rc s' => rc = code ∧ Within P (view s) (view s') := by
  unfold finish L
  by_cases hlog : 0 ≤ logfd
  · rw [if_pos hlog]
    refine sys_after.2 (sys_after.2 ⟨rfl, ?_⟩)
    rw [(hk _ (.fsync logfd) rfl).of_fsync]
    rcases (hk s (.write logfd (ascii (message code))) rfl).of_write with heq | ⟨n, hn⟩
    · rw [heq]
      exact .refl P _
    · cases hfd : (view s).fds logfd with
      | none =>
        rw [World.write, hfd] at hn
        exact absurd hn (by simp)
      | some l =>
        obtain ⟨hl, hx⟩ := h l hlog hfd
        exact .write hfd hl hx hn
  · rw [if_neg hlog]
    exact ⟨rfl, .refl P _⟩

/-- **A run over entries each of which is admitted** with the links and nodes of those before
it. -/
theorem unpackCpio_confined {s : σ} {root : Buf} {r : Loc} (hroot : LeadsTo (view s) root r)
    (hlen : root.length ≤ 1024) {d : Buf} {L : List Stop → Loc → Target → Prop}
    (hs : Sealed (L []) (view s).fs r)
    (hL : ∀ pre e post, (walk 0 d).1 = pre ++ e :: post →
      e.Admitted P (L pre) (L (pre ++ [e])) r) {logfd : ℤ}
    (hlog : ∀ p, LogPlace (view s) logfd p → P p) :
    Within P (view s) (view ((unpackCpio logfd d root).exec kernel s).state) := by
  have hentries : (Prog.each (walk 0 d).1 (visit root d)).after kernel s
      fun _ s' => Confined P (L (walk 0 d).1) r (view s) (view s') := by
    refine Prog.after_each (I := fun pre s' => Confined P (L pre) r (view s) (view s'))
      (fun pre e post hsplit s₁ h₁ => ?_) (.refl hs)
    have he : e ∈ (walk 0 d).1 := by
      rw [hsplit]
      exact List.mem_append_right pre (List.mem_cons_self ..)
    exact (visit_after hk (hroot.of_within h₁.within) hlen h₁.isSealed (walk_inBuf rfl e he)
      (length_name_le e he) (hL pre e post hsplit)).mono fun _ _ => h₁.trans
  have hrun : (unpackCpio logfd d root).after kernel s fun _ s' =>
      Within P (view s) (view s') := by
    rw [unpackCpio, unpackLoop_eq, List.drop_zero]
    refine Prog.after_bind.2 (hentries.mono fun _ s₁ h₁ => ?_)
    refine (finish_after hk (fun l hpos hl => ?_) _).mono fun _ s₂ h₂ => h₁.within.trans h₂.2
    rcases h₁.fds logfd l hl with ⟨hP, o, ho, hx⟩ | hold
    · refine ⟨hP, fun x perm hnode => hx x ?_⟩
      rw [Option.some.inj (ho.symm.trans hnode)]
      rfl
    · refine ⟨hlog _ ⟨hpos, l, hold, .inl rfl⟩, fun x perm hnode => ?_⟩
      refine hlog _ ⟨hpos, l, hold, .inr ⟨fun hfile => ?_, x, rfl⟩⟩
      obtain ⟨perm', data, hdata⟩ := hfile.of_grows h₁.within.grows
      exact absurd (hnode.symm.trans hdata) (by simp)
  obtain ⟨_, -, h⟩ := Prog.after_exec hrun
  exact h

end Run

/-! ### What stays below -/

/-- Everything below `r`, and the log. -/
def Inside (w : World) (r : Loc) (logfd : ℤ) : Place → Prop
  | .loc l => r <+: l ∨ LogPlace w logfd (.loc l)
  | .device x => LogPlace w logfd (.device x)

theorem inside_of_logPlace {w : World} {r : Loc} {logfd : ℤ} {p : Place}
    (h : LogPlace w logfd p) : Inside w r logfd p := by
  cases p with
  | loc l => exact .inr h
  | device x => exact h

/-- Nothing in the entry leads up: no component of its name, and no link that it creates. -/
def Stop.Contained (e : Stop) : Prop :=
  dotdot ∉ comps e.name ∧ (kind e.mode = .link → Safe (cstr (e.data.take 1023)))

instance (e : Stop) : Decidable e.Contained := inferInstanceAs (Decidable (_ ∧ _))

/-- The links and nodes that are there when the entries `pre` have been extracted, if no link
leads up and there were no nodes before. -/
def SafeAt (pre : List Stop) (_ : Loc) : Target → Prop
  | .path t => Safe t
  | .device _ => ∃ e ∈ pre, kind e.mode = .dev

theorem Stop.Contained.admitted {w : World} {r : Loc} {logfd : ℤ} {pre : List Stop} {e : Stop}
    (h : e.Contained) (hdev : kind e.mode = .reg → ∀ e' ∈ pre, kind e'.mode ≠ .dev) :
    e.Admitted (Inside w r logfd) (SafeAt pre) (SafeAt (pre ++ [e])) r where
  mono := fun _ x hx => by
    cases x with
    | path t => exact hx
    | device x =>
      obtain ⟨e', he', hkind⟩ := hx
      exact ⟨e', List.mem_append_left _ he', hkind⟩
  front := frontStays_of_safe (fun _ _ ht => ht) h.1 fun _ => .inl
  whole := fun hkind => by
    refine stays_of_safe (fun _ _ ht => ht) h.1 (fun _ => .inl) fun _ x hx => ?_
    obtain ⟨e', he', hkind'⟩ := hx
    exact absurd hkind' (hdev hkind e' he')
  link := fun hkind _ _ _ _ _ _ _ _ _ _ _ => h.2 hkind
  node := fun hkind _ _ _ _ _ _ _ _ _ _ _ =>
    ⟨e, List.mem_append_right pre (List.mem_singleton_self e), hkind⟩

section Direct

variable {P : Place → Prop} {L L' : Loc → Target → Prop} {w : World} {r : Loc} {pre : List Stop}
  {e : Stop}

/-- **An entry whose path meets no link** on the way, its last name aside.  Only for a file does
the last name count, because a link there would be followed. -/
theorem Stop.admitted_of_direct (mono : ∀ l x, L l x → L' l x)
    (h : ∀ cs, cs <+: comps e.name → (cs = comps e.name → kind e.mode = .reg) →
      r <+: follow r cs ∧ ∀ t, ¬ L (follow r cs) (.path t))
    (hnew : ∀ front n rest, comps e.name = front ++ n :: rest → ¬ (n = [] ∨ n = dot) →
      n ≠ dotdot → P (.loc (follow r front ++ [n])))
    (hfile : kind e.mode = .reg → P (.loc (follow r (comps e.name))) ∧
      ∀ x, L (follow r (comps e.name)) (.device x) → P (.device x))
    (hlink : kind e.mode = .link → ∀ t, L' (follow r (comps e.name)) (.path t))
    (hnode : kind e.mode = .dev → ∀ x, L' (follow r (comps e.name)) (.device x)) :
    e.Admitted P L L' r := by
  -- where a new name comes, what stands in front of it has led where it says
  have hallows : ∀ y, L' (follow r (comps e.name)) y → Allows L L' r (comps e.name) y := by
    intro y hy fs hs front n hsplit hn hup links links' d hd
    have hshort : ∀ cs, cs <+: front → cs ≠ comps e.name := by
      intro cs hcs heq
      have hlen := hcs.length_le
      rw [heq, hsplit, List.length_append, List.length_singleton] at hlen
      omega
    have hfollow : d = follow r front := eq_follow_of_direct hs (fun cs hcs =>
      h cs (hsplit ▸ hcs.trans (List.prefix_append ..)) fun heq => absurd heq (hshort cs hcs)) hd
    rwa [hsplit, follow_append, follow_name _ hn hup, ← hfollow] at hy
  exact
    { mono := mono
      front := frontStays_of_direct (fun cs hcs hne => h cs hcs fun heq => absurd heq hne) hnew
      whole := fun hkind => stays_of_direct (fun cs hcs => h cs hcs fun _ => hkind)
        (hfile hkind).1 (hfile hkind).2
      link := fun hkind => hallows _ (hlink hkind _)
      node := fun hkind => hallows _ (hnode hkind _) }

/-- Where a link stands when the entries `pre` have been extracted into `r`: one that stood
there before, or one of theirs. -/
def LinkAt (w : World) (r : Loc) (pre : List Stop) (l : Loc) : Prop :=
  IsLink w.fs l ∨ ∃ e ∈ pre, kind e.mode = .link ∧ l = follow r (comps e.name)

/-- Where a device node stands, the same way. -/
def NodeAt (w : World) (r : Loc) (pre : List Stop) (l : Loc) : Prop :=
  IsNode w.fs l ∨ ∃ e ∈ pre, kind e.mode = .dev ∧ l = follow r (comps e.name)

instance (w : World) (r : Loc) (pre : List Stop) (l : Loc) : Decidable (LinkAt w r pre l) :=
  inferInstanceAs (Decidable (_ ∨ _))

instance (w : World) (r : Loc) (pre : List Stop) (l : Loc) : Decidable (NodeAt w r pre l) :=
  inferInstanceAs (Decidable (_ ∨ _))

/-- On the way to the entry, its last name aside, the path stays below `r` and meets no
link, and a file does not come where a link or a node is. -/
structure Stop.Direct (w : World) (r : Loc) (pre : List Stop) (e : Stop) : Prop where
  way : ∀ cs, cs <+: comps e.name → (cs = comps e.name → kind e.mode = .reg) →
    r <+: follow r cs ∧ ¬ LinkAt w r pre (follow r cs)
  file : kind e.mode = .reg → ¬ NodeAt w r pre (follow r (comps e.name))

instance (w : World) (r : Loc) (pre : List Stop) (e : Stop) : Decidable (e.Direct w r pre) :=
  decidable_of_iff
    ((∀ cs ∈ (comps e.name).inits, (cs = comps e.name → kind e.mode = .reg) →
        r <+: follow r cs ∧ ¬ LinkAt w r pre (follow r cs)) ∧
      (kind e.mode = .reg → ¬ NodeAt w r pre (follow r (comps e.name))))
    ⟨fun ⟨h₁, h₂⟩ => ⟨fun cs hcs => h₁ cs ((List.mem_inits ..).2 hcs), h₂⟩,
      fun ⟨h₁, h₂⟩ => ⟨fun cs hcs => h₁ cs ((List.mem_inits ..).1 hcs), h₂⟩⟩

/-- The links and nodes that are there when the entries `pre` have been extracted. -/
def DirectAt (w : World) (r : Loc) (pre : List Stop) (l : Loc) : Target → Prop
  | .path _ => LinkAt w r pre l
  | .device _ => NodeAt w r pre l

theorem Stop.Direct.admitted {logfd : ℤ} (h : e.Direct w r pre) :
    e.Admitted (Inside w r logfd) (DirectAt w r pre) (DirectAt w r (pre ++ [e])) r := by
  have hmem : e ∈ pre ++ [e] := List.mem_append_right pre (List.mem_singleton_self e)
  refine Stop.admitted_of_direct (fun l x hx => ?_) (fun cs hcs hwhole => ?_)
    (fun front n rest hsplit _ _ => ?_) (fun hkind => ?_)
    (fun hkind _ => .inr ⟨e, hmem, hkind, rfl⟩) (fun hkind _ => .inr ⟨e, hmem, hkind, rfl⟩)
  · cases x <;> exact hx.imp_right fun ⟨e', he', h'⟩ => ⟨e', List.mem_append_left _ he', h'⟩
  · exact ⟨(h.way cs hcs hwhole).1, fun _ => (h.way cs hcs hwhole).2⟩
  · have hshort : front ≠ comps e.name := by
      rintro rfl
      simp at hsplit
    refine .inl (List.IsPrefix.trans (h.way front ?_ fun heq => absurd heq hshort).1
      (List.prefix_append ..))
    rw [hsplit]
    exact List.prefix_append ..
  · exact ⟨.inl (h.way _ List.prefix_rfl fun _ => hkind).1,
      fun _ hx => absurd hx (h.file hkind)⟩

end Direct

/-- **Extraction stays below the root** if nothing in the archive leads up and no device stands
in front of a file, or if no path leaves the root as it stands and meets a link, nor a file a
node.  Whatever the kernel refuses, everything that `unpack_cpio` creates, truncates, writes or
changes then lies in the directory that `root` leads to, but for the line in its log. -/
theorem unpackCpio_within {σ : Type} {kernel : σ → Call → ℤ × σ} {view : σ → World}
    (hk : Obeys kernel view) {s : σ} {root : Buf} {r : Loc} (hroot : LeadsTo (view s) root r)
    (hlen : root.length ≤ 1024) {d : Buf}
    (hd : (Sealed (SafeAt []) (view s).fs r ∧ (∀ e ∈ (walk 0 d).1, e.Contained) ∧
        (walk 0 d).1.Pairwise fun e e' => kind e.mode = .dev → kind e'.mode ≠ .reg) ∨
      ∀ pre e post, (walk 0 d).1 = pre ++ e :: post → e.Direct (view s) r pre)
    (logfd : ℤ) :
    Within (Inside (view s) r logfd) (view s)
      (view ((unpackCpio logfd d root).exec kernel s).state) := by
  rcases hd with ⟨hs, hall, hdev⟩ | hdirect
  · refine unpackCpio_confined hk hroot hlen hs (fun pre e post hsplit => ?_)
      fun p => inside_of_logPlace
    rw [hsplit] at hall hdev
    refine (hall e (List.mem_append_right pre (List.mem_cons_self ..))).admitted
      fun hreg e' he' hkind => ?_
    exact (List.pairwise_append.1 hdev).2.2 e' he' e (List.mem_cons_self ..) hkind hreg
  · refine unpackCpio_confined hk hroot hlen (L := DirectAt (view s) r) (fun l o _ ho x hx => ?_)
      (fun pre e post hsplit => (hdirect pre e post hsplit).admitted) fun p => inside_of_logPlace
    cases o with
    | link t =>
      obtain rfl := Option.some.inj hx
      exact .inl ⟨t, ho⟩
    | node y perm =>
      obtain rfl := Option.some.inj hx
      exact .inl ⟨y, perm, ho⟩
    | dir | file => exact absurd hx (by simp [Object.leads])

/-! ### Archives that stay, and ways out -/

/-- The directory of the new root, working directory of the process, and the directory of
the log beside it. -/
def mountedWorld : World where
  fs := fun l => if l = [] ∨ l = [ascii "newroot"] ∨ l = [ascii "plog"] then some (.dir 0o755)
    else none
  umask := 0o022
  cwd := [ascii "newroot"]
  fds := fun _ => none
  nextFd := 3
  touched := []

theorem mountedWorld_leadsTo : LeadsTo mountedWorld (ascii ".") [ascii "newroot"] :=
  ⟨by decide, ⟨maxLinks, by decide +kernel⟩, by decide +kernel⟩

theorem mountedWorld_sealed (L : Loc → Target → Prop) :
    Sealed L mountedWorld.fs [ascii "newroot"] := by
  intro l o _ ho x hx
  simp only [mountedWorld] at ho
  split_ifs at ho
  obtain rfl := Option.some.inj ho
  exact absurd hx (by simp [Object.leads])

/-- A directory, a link to it, a file behind the link, and a device. -/
def behindArchive : Buf :=
  compactArchive [({ name := "bin", data := .bytes [], mode := 0o040755 }, 0),
    ({ name := "sbin", data := .str "bin", mode := 0o120777 }, 0),
    ({ name := "sbin/sh", data := .bytes [35, 33], mode := 0o100755 }, 0),
    ({ name := "null", data := .bytes [], mode := 0o020666, rdevMajor := 1, rdevMinor := 3 }, 0)]
    DevNodes.trailerItem []

/-- A device, a link that leads up and a directory, and a file beside them under a roundabout
name. -/
def besideArchive : Buf :=
  compactArchive [
    ({ name := "sdc5", data := .bytes [], mode := 0o060600, rdevMajor := 8, rdevMinor := 37 }, 0),
    ({ name := "l", data := .str "/plog", mode := 0o120777 }, 0),
    ({ name := "bin", data := .bytes [], mode := 0o040755 }, 0),
    ({ name := "bin/../x", data := .bytes [35, 33], mode := 0o100755 }, 0)]
    DevNodes.trailerItem []

/-- What holds at each place of a list, and of what is in front of it, can be decided place by
place. -/
theorem forall_split {α : Type} {xs : List α} {Q : List α → α → Prop}
    (h : ∀ i < xs.length, ∀ x ∈ xs[i]?, Q (xs.take i) x) (pre : List α) (x : α) (post : List α)
    (hxs : xs = pre ++ x :: post) : Q pre x := by
  have hx := h pre.length (by rw [hxs, List.length_append, List.length_cons]; omega) x
    (by rw [hxs]; simp)
  rwa [hxs, List.take_left] at hx

/-- The hypotheses are satisfiable: the first archive has a link that is passed, which leads
nowhere up; the second one has a link that leads up and a `..`, and passes no link. -/
theorem unpackCpio_within_archives :
    Within (Inside mountedWorld [ascii "newroot"] (-1)) mountedWorld
        (extracted (-1) (ascii ".") behindArchive mountedWorld) ∧
      Within (Inside mountedWorld [ascii "newroot"] (-1)) mountedWorld
        (extracted (-1) (ascii ".") besideArchive mountedWorld) := by
  refine ⟨unpackCpio_within kernel_obeys mountedWorld_leadsTo (by decide)
      (.inl ⟨mountedWorld_sealed _, by decide +kernel, by decide +kernel⟩) (-1),
    unpackCpio_within kernel_obeys mountedWorld_leadsTo (by decide)
      (.inr (forall_split (by decide +kernel))) (-1)⟩

/-- A file whose name leads up. -/
def upArchive : Buf :=
  compactArchive [({ name := "../plog/x", data := .bytes [], mode := 0o100644 }, 0)]
    DevNodes.trailerItem []

/-- A link that leads up, and a file behind it. -/
def linkArchive : Buf :=
  compactArchive [({ name := "l", data := .str "/plog", mode := 0o120777 }, 0),
    ({ name := "l/x", data := .bytes [], mode := 0o100644 }, 0)] DevNodes.trailerItem []

/-- A node for the disk that the log is on, and a file of the same name. -/
def diskArchive : Buf :=
  compactArchive [
    ({ name := "b", data := .bytes [], mode := 0o060600, rdevMajor := 8, rdevMinor := 37 }, 0),
    ({ name := "b", data := .bytes [35, 33], mode := 0o100644 }, 0)] DevNodes.trailerItem []

/-- Who touches another place has left the root. -/
theorem not_within_of_touched {w w' : World} {logfd : ℤ} {r : Loc} {p : Place}
    (hw : w.touched = []) (hp : ¬ Inside w r logfd p) (h : p ∈ w'.touched) :
    ¬ Within (Inside w r logfd) w w' := by
  intro hwithin
  obtain ⟨ps, hps, hP⟩ := hwithin.touched
  rw [hps, hw, List.append_nil] at h
  exact hp (hP _ h)

/-- **Three archives that leave the root:** the first two create a file in the directory of
the log, the third one writes to the disk behind it. -/
theorem not_within_up_link :
    ¬ Within (Inside mountedWorld [ascii "newroot"] (-1)) mountedWorld
        (extracted (-1) (ascii ".") upArchive mountedWorld) ∧
      ¬ Within (Inside mountedWorld [ascii "newroot"] (-1)) mountedWorld
        (extracted (-1) (ascii ".") linkArchive mountedWorld) ∧
      ¬ Within (Inside mountedWorld [ascii "newroot"] (-1)) mountedWorld
        (extracted (-1) (ascii ".") diskArchive mountedWorld) := by
  have hlog : ∀ p, ¬ LogPlace mountedWorld (-1) p := fun p h => absurd h.1 (by decide)
  have hplog : ¬ Inside mountedWorld [ascii "newroot"] (-1)
      (.loc [ascii "plog", ascii "x"]) := fun h => h.elim (by decide) (hlog _)
  exact ⟨not_within_of_touched rfl hplog (by decide +kernel),
    not_within_of_touched rfl hplog (by decide +kernel),
    not_within_of_touched (p := .device ⟨0o060000, 8, 37⟩) rfl (hlog _) (by decide +kernel)⟩

end Bootstrap
end Twrp

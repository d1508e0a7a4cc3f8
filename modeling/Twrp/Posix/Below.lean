/-
# Staying below a directory

Links and nodes lead to something that is not at their own location.  Which of them may stand
below a directory `r` is a matter of its user: `L l x` allows one at `l` that leads to `x`, and
`Sealed L` says that there are no others.

If components that start at `r` can lead, through such links, only to places in `P`
(`Stays P L`), then what a call opens or changes at such a path is in `P`; and if a name can
only be new at places in `P` (`FrontStays P L`), what a call creates there is in `P`.  Either
way the call leaves the world `Confined`.

There are two ways to be sure of that: no component is `..` and no link leads up
(`stays_of_safe`), or the components as they stand go nowhere above `r` and meet no link
(`stays_of_direct`).
-/

import Twrp.Posix.Process

namespace Posix

/-- Below `r` no links and no nodes stand but those that `L` allows. -/
def Sealed (L : Loc → Target → Prop) (fs : FS) (r : Loc) : Prop :=
  ∀ l o, r <+: l → fs l = some o → ∀ x, o.leads = some x → L l x

/-- Where the components lead from `r`, an object may be opened and changed. -/
def Stays (P : Place → Prop) (L : Loc → Target → Prop) (r : Loc) (cs : List Name) : Prop :=
  ∀ fs, Sealed L fs r → ∀ links links' l, resolve fs links r cs = some (links', l) →
    P (.loc l) ∧ r <+: l ∧ ∀ x, L l (.device x) → P (.device x)

/-- Wherever one of the components is the name of something new, that may be created. -/
def FrontStays (P : Place → Prop) (L : Loc → Target → Prop) (r : Loc) (cs : List Name) : Prop :=
  ∀ front n rest, cs = front ++ n :: rest → ¬ (n = [] ∨ n = dot) → n ≠ dotdot → ∀ fs,
    Sealed L fs r → ∀ links links' d, resolve fs links r front = some (links', d) →
      P (.loc (d ++ [n]))

/-! ### Two kinds of components that stay -/

/-- A target that does not lead up: neither absolute nor with a component `..`. -/
def Safe (t : Path) : Prop := t.head? ≠ some slash ∧ dotdot ∉ comps t

instance (t : Path) : Decidable (Safe t) := inferInstanceAs (Decidable (_ ∧ _))

section Stays

variable {P : Place → Prop} {L : Loc → Target → Prop} {r : Loc} {cs : List Name}

/-- **Where no link and no component leads up, a look-up stays below** where it started. -/
theorem resolve_below {fs : FS} {links links' : ℕ} {cur l : Loc} (h : Sealed L fs r)
    (hL : ∀ l t, L l (.path t) → Safe t) (hcur : r <+: cur) (hcs : dotdot ∉ cs)
    (hr : resolve fs links cur cs = some (links', l)) : r <+: l := by
  induction links, cur, cs using @resolve_induction fs with
  | nil links cur =>
    rw [resolve_nil] at hr
    obtain ⟨-, rfl⟩ := Prod.mk.inj (Option.some.inj hr)
    exact hcur
  | file links cur c cs hd =>
    rw [resolve_of_not_isDir hd (by simp)] at hr
    exact absurd hr (by simp)
  | stay links cur c cs hd hc ih =>
    rw [resolve_stay hd hc] at hr
    exact ih hcur (fun hm => hcs (List.mem_cons_of_mem _ hm)) hr
  | up => exact absurd (List.mem_cons_self ..) hcs
  | loop cur c cs t hd hc hup ho =>
    rw [resolve_link_zero hd hc hup ho] at hr
    exact absurd hr (by simp)
  | link links cur c cs t hd hc hup ho ih =>
    rw [resolve_link hd hc hup ho] at hr
    obtain ⟨habs, htup⟩ := hL _ t (h _ _ (hcur.trans (List.prefix_append ..)) ho _ rfl)
    have hstart : r <+: start t cur := by rwa [start, if_neg habs]
    refine ih hstart (fun hm => ?_) hr
    rcases List.mem_append.1 hm with hm | hm
    · exact htup hm
    · exact hcs (List.mem_cons_of_mem _ hm)
  | into links cur c cs o hd hc hup ho hlink ih =>
    rw [resolve_into hd hc hup ho hlink] at hr
    exact ih (hcur.trans (List.prefix_append ..)) (fun hm => hcs (List.mem_cons_of_mem _ hm)) hr
  | missing links cur c cs hd hc hup ho =>
    rw [resolve_missing hd hc hup ho] at hr
    split_ifs at hr
    obtain ⟨-, rfl⟩ := Prod.mk.inj (Option.some.inj hr)
    exact hcur.trans (List.prefix_append ..)

/-- If no link leads up, no path without `..` does. -/
theorem stays_of_safe (hL : ∀ l t, L l (.path t) → Safe t) (hcs : dotdot ∉ cs)
    (hP : ∀ l, r <+: l → P (.loc l)) (hdev : ∀ l x, L l (.device x) → P (.device x)) :
    Stays P L r cs := by
  intro fs hs links links' l hr
  have hl : r <+: l := resolve_below hs hL List.prefix_rfl hcs hr
  exact ⟨hP l hl, hl, hdev l⟩

/-- Nor does anything new come elsewhere. -/
theorem frontStays_of_safe (hL : ∀ l t, L l (.path t) → Safe t) (hcs : dotdot ∉ cs)
    (hP : ∀ l, r <+: l → P (.loc l)) : FrontStays P L r cs := by
  rintro front n rest rfl - - fs hs links links' d hd
  have hfront : dotdot ∉ front := fun hm => hcs (List.mem_append_left _ hm)
  exact hP _ ((resolve_below hs hL List.prefix_rfl hfront hd).trans (List.prefix_append ..))

/-- **Components that meet no link** lead where they say. -/
theorem eq_follow_of_direct {fs : FS} {links links' : ℕ} {l : Loc} (hs : Sealed L fs r)
    (h : ∀ cs', cs' <+: cs → r <+: follow r cs' ∧ ∀ t, ¬ L (follow r cs') (.path t))
    (hr : resolve fs links r cs = some (links', l)) : l = follow r cs := by
  refine eq_follow_of_resolve (fun cs' hp t ht => ?_) hr
  exact (h cs' hp).2 t (hs _ _ (h cs' hp).1 ht _ rfl)

/-- **Components that meet no link** and never leave `r` stay. -/
theorem stays_of_direct
    (h : ∀ cs', cs' <+: cs → r <+: follow r cs' ∧ ∀ t, ¬ L (follow r cs') (.path t))
    (hP : P (.loc (follow r cs))) (hdev : ∀ x, L (follow r cs) (.device x) → P (.device x)) :
    Stays P L r cs := by
  intro fs hs links links' l hr
  obtain rfl := eq_follow_of_direct hs h hr
  exact ⟨hP, (h cs List.prefix_rfl).1, hdev⟩

/-- If the path meets no link, what is new comes where it says. -/
theorem frontStays_of_direct
    (h : ∀ cs', cs' <+: cs → cs' ≠ cs → r <+: follow r cs' ∧ ∀ t, ¬ L (follow r cs') (.path t))
    (hP : ∀ front n rest, cs = front ++ n :: rest → ¬ (n = [] ∨ n = dot) → n ≠ dotdot →
      P (.loc (follow r front ++ [n]))) : FrontStays P L r cs := by
  rintro front n rest rfl hn hup fs hs links links' d hd
  have hshort : ∀ cs', cs' <+: front → cs' ≠ front ++ n :: rest := by
    rintro cs' hp rfl
    have hlen := hp.length_le
    rw [List.length_append, List.length_cons] at hlen
    omega
  obtain rfl := eq_follow_of_direct hs
    (fun cs' hp => h cs' (hp.trans (List.prefix_append ..)) (hshort cs' hp)) hd
  exact hP front n rest rfl hn hup

/-- A part of the components has no other new names. -/
theorem FrontStays.of_append {ds : List Name} (h : FrontStays P L r (cs ++ ds)) :
    FrontStays P L r cs := by
  rintro front n rest rfl
  exact h front n (rest ++ ds) (by simp)

end Stays

section Below

variable {P : Place → Prop} {L : Loc → Target → Prop} {w : World} {root : Path} {r : Loc}

/-- **What is found below stays below.** -/
theorem LeadsTo.find_below (h : LeadsTo w root r) (hs : Sealed L w.fs r) {x : Path}
    (hx : Stays P L r (comps x)) {l : Loc} (hf : w.find (root ++ slash :: x) = some l) :
    P (.loc l) ∧ r <+: l ∧ ∀ x, L l (.device x) → P (.device x) := by
  obtain ⟨links, hr⟩ := h.resolve_append x
  rw [World.find, if_neg (by simp), comps_append, hr] at hf
  obtain ⟨⟨links', m⟩, hm, rfl⟩ := Option.map_eq_some_iff.1 hf
  exact hx _ hs _ _ _ hm

/-- **A free place below `root`** is one step down from where the components in front of its
name lead, slashes behind the name or not. -/
theorem LeadsTo.exists_of_vacant (h : LeadsTo w root r) {x : Path} {l : Loc} {cs es : List Name}
    (hcs : comps (root ++ slash :: x) = cs ++ es)
    (hv : w.vacant (root ++ slash :: x) cs = some l) :
    ∃ front n links links' d, comps x = front ++ n :: es ∧ ¬ (n = [] ∨ n = dot) ∧ n ≠ dotdot ∧
      resolve w.fs links r front = some (links', d) ∧ w.fs l = none ∧ l = d ++ [n] := by
  obtain ⟨⟨links', hl⟩, -⟩ := World.resolve_of_vacant hv
  obtain ⟨front, n, links₁, d, rfl, hn, hup, hd, -, hfree, rfl⟩ := World.exists_of_vacant hv
  rw [comps_append, List.append_assoc, List.singleton_append] at hcs
  rcases List.append_eq_append_iff.1 hcs with ⟨a, rfl, ha⟩ | ⟨c, hc, hrest⟩
  · -- the name is one of the components of `x`
    obtain ⟨links, hr⟩ := h.resolve_append x
    rw [hr] at hd
    exact ⟨a, n, links, links₁, d, ha, hn, hup, hd, hfree, rfl⟩
  · cases c with
    | nil =>
      obtain ⟨links, hr⟩ := h.resolve_append x
      rw [List.append_nil] at hc
      rw [← hc, ← List.append_nil (comps root), hr] at hd
      exact ⟨[], n, links, links₁, d, hrest.symm, hn, hup, hd, hfree, rfl⟩
    | cons m c =>
      -- it is one of those of `root`, which leads to a directory
      obtain rfl : n = m := (List.cons.inj hrest).1
      obtain ⟨hne, ⟨links₀, hroot⟩, hdir⟩ := h
      rw [start_append hne] at hl
      rw [hc, List.append_cons, Posix.resolve_append, hl, Option.bind_some] at hroot
      rcases eq_or_ne c [] with rfl | hcne
      · rw [resolve_nil] at hroot
        obtain ⟨-, rfl⟩ := Prod.mk.inj (Option.some.inj hroot)
        exact absurd hdir (not_isDir_of_none hfree)
      · rw [resolve_of_not_isDir (not_isDir_of_none hfree) hcne] at hroot
        exact absurd hroot (by simp)

/-- **What is created below stays below.** -/
theorem LeadsTo.vacant_below (h : LeadsTo w root r) (hs : Sealed L w.fs r) {x : Path}
    (hx : FrontStays P L r (comps x)) {l : Loc} {cs es : List Name}
    (hcs : comps (root ++ slash :: x) = cs ++ es)
    (hv : w.vacant (root ++ slash :: x) cs = some l) : P (.loc l) := by
  obtain ⟨front, n, links, links', d, hfront, hn, hup, hd, -, rfl⟩ := h.exists_of_vacant hcs hv
  exact hx front n es hfront hn hup _ hs _ _ _ hd

/-! ### Each call below `root` -/

/-- More links may be allowed. -/
theorem Sealed.mono {L' : Loc → Target → Prop} {fs : FS} (h : Sealed L fs r)
    (hL : ∀ l x, L l x → L' l x) : Sealed L' fs r :=
  fun l o hl ho x hx => hL l x (h l o hl ho x hx)

/-- An object that is allowed leaves no other links and nodes. -/
theorem Sealed.put {fs : FS} (h : Sealed L fs r) {l : Loc} {o : Object}
    (ho : r <+: l → ∀ x, o.leads = some x → L l x) :
    Sealed L (Function.update fs l (some o)) r := by
  intro m o' hm ho' x hx
  rcases eq_or_ne m l with rfl | hne
  · rw [Function.update_self] at ho'
    obtain rfl := Option.some.inj ho'
    exact ho hm x hx
  · rw [Function.update_of_ne hne] at ho'
    exact h m o' hm ho' x hx

/-- What holds after a call below `r`: the changes took place in `P`, there are no links and
nodes but those that are allowed, and what was opened may be written to. -/
structure Confined (P : Place → Prop) (L : Loc → Target → Prop) (r : Loc) (w w' : World) :
    Prop where
  within : Within P w w'
  isSealed : Sealed L w'.fs r
  fds : ∀ fd l, w'.fds fd = some l → Ready P w'.fs l ∨ w.fds fd = some l

/-- Nothing has changed yet. -/
theorem Confined.refl (hs : Sealed L w.fs r) : Confined P L r w w :=
  ⟨.refl _ w, hs, fun _ _ => .inr⟩

/-- One change after the other, the later one with what the earlier one has left. -/
theorem Confined.trans {L' : Loc → Target → Prop} {w' w'' : World} (h : Confined P L r w w')
    (h' : Confined P L' r w' w'') : Confined P L' r w w'' := by
  refine ⟨h.within.trans h'.within, h'.isSealed, fun fd l hl => ?_⟩
  rcases h'.fds fd l hl with hready | hold
  · exact .inl hready
  · exact (h.fds fd l hold).imp_left fun hready => hready.of_grows h'.within.grows

/-- More links and nodes may be left than are. -/
theorem Confined.mono {L' : Loc → Target → Prop} {w' : World} (h : Confined P L r w w')
    (hL : ∀ l x, L l x → L' l x) : Confined P L' r w w' :=
  ⟨h.within, h.isSealed.mono hL, h.fds⟩

/-- An object is put at a place in `P`, and no link or node that is not allowed. -/
theorem Confined.put (hs : Sealed L w.fs r) {l : Loc} (hl : P (.loc l)) {o : Object}
    (hk : ∀ o', w.fs l = some o' → o'.SameKind o)
    (ho : r <+: l → ∀ x, o.leads = some x → L l x) : Confined P L r w (w.put l o) :=
  ⟨.put hl hk, hs.put ho, fun _ _ => .inr⟩

/-- An object is replaced by one of its kind. -/
theorem Confined.replace (hs : Sealed L w.fs r) {l : Loc} (hl : P (.loc l)) {o o' : Object}
    (ho : w.fs l = some o) (hk : o.SameKind o') : Confined P L r w (w.put l o') := by
  refine .put hs hl (fun o'' ho'' => ?_) fun hr x hx => ?_
  · obtain rfl := Option.some.inj (ho.symm.trans ho'')
    exact hk
  · exact hs l o hr ho x (hk.leads_eq ▸ hx)

/-- A descriptor for an object that may be written to. -/
theorem Confined.openAt (hs : Sealed L w.fs r) {l : Loc} (hl : Ready P w.fs l) (fd : ℤ) :
    Confined P L r w (w.openAt fd l) := by
  refine ⟨.openAt w fd l, hs, fun fd' m hm => ?_⟩
  rw [World.openAt_fds] at hm
  rcases eq_or_ne fd' fd with rfl | hne
  · rw [Function.update_self, Option.some.injEq] at hm
    exact .inl (hm ▸ hl)
  · rw [Function.update_of_ne hne] at hm
    exact .inr hm

/-- Closing a file changes nothing. -/
theorem Confined.close (hs : Sealed L w.fs r) (fd : ℤ) : Confined P L r w (w.close fd) := by
  refine ⟨.close w fd, hs, fun fd' l hl => ?_⟩
  rw [World.close_fds] at hl
  rcases eq_or_ne fd' fd with rfl | hne
  · rw [Function.update_self] at hl
    exact absurd hl (by simp)
  · rw [Function.update_of_ne hne] at hl
    exact .inr hl

/-- A new object in a free place below `root`, that leads to `x` or to nothing. -/
theorem LeadsTo.confined_new {L' : Loc → Target → Prop} (h : LeadsTo w root r)
    (hs : Sealed L w.fs r) {x : Path} (hx : FrontStays P L r (comps x))
    (hL : ∀ l y, L l y → L' l y) {l : Loc} {cs es : List Name}
    (hcs : comps (root ++ slash :: x) = cs ++ es)
    (hv : w.vacant (root ++ slash :: x) cs = some l) {o : Object}
    (ho : r <+: l → ∀ y, o.leads = some y → L' l y) : Confined P L' r w (w.put l o) :=
  .put (hs.mono hL) (h.vacant_below hs hx hcs hv)
    (fun _ ho' => absurd ((World.resolve_of_vacant hv).2.symm.trans ho') (by simp)) ho

/-- A directory is made below the root. -/
theorem LeadsTo.mkdir_below (h : LeadsTo w root r) (hs : Sealed L w.fs r) {x : Path}
    (hx : FrontStays P L r (comps x)) {mode : UInt32} {w' : World}
    (hw : w.mkdir (root ++ slash :: x) mode = some w') : Confined P L r w w' := by
  obtain ⟨l, hl, rfl⟩ := Option.map_eq_some_iff.1 hw
  exact h.confined_new hs hx (fun _ _ hy => hy) (List.rdropWhile_append_rtakeWhile ..).symm hl
    fun _ y hy => absurd hy (by simp [Object.leads])

/-- Where the last component leads, `y` is allowed from now on. -/
def Allows (L L' : Loc → Target → Prop) (r : Loc) (cs : List Name) (y : Target) : Prop :=
  ∀ fs, Sealed L fs r → ∀ front n, cs = front ++ [n] → ¬ (n = [] ∨ n = dot) → n ≠ dotdot →
    ∀ links links' d, resolve fs links r front = some (links', d) → L' (d ++ [n]) y

/-- **A link or a node** in a free place below `root`. -/
theorem LeadsTo.confined_leads {L' : Loc → Target → Prop} (h : LeadsTo w root r)
    (hs : Sealed L w.fs r) {x : Path} (hx : FrontStays P L r (comps x))
    (hL : ∀ l y, L l y → L' l y) {y : Target} (hy : Allows L L' r (comps x) y) {l : Loc}
    (hv : w.vacant (root ++ slash :: x) (comps (root ++ slash :: x)) = some l) {o : Object}
    (ho : o.leads = some y) : Confined P L' r w (w.put l o) := by
  have hcs := (List.append_nil (comps (root ++ slash :: x))).symm
  refine h.confined_new hs hx hL hcs hv fun _ z hz => ?_
  obtain rfl := Option.some.inj (ho.symm.trans hz)
  obtain ⟨front, n, links, links', d, hfront, hn, hup, hd, -, rfl⟩ := h.exists_of_vacant hcs hv
  exact hy _ hs front n hfront hn hup _ _ _ hd

/-- So is a node, and it is one of those that are allowed. -/
theorem LeadsTo.mknod_below {L' : Loc → Target → Prop} (h : LeadsTo w root r)
    (hs : Sealed L w.fs r) {x : Path} (hx : FrontStays P L r (comps x))
    (hL : ∀ l y, L l y → L' l y) {mode major minor : UInt32}
    (hy : Allows L L' r (comps x) (.device ⟨mode &&& 0o170000, major, minor⟩)) {w' : World}
    (hw : w.mknod (root ++ slash :: x) mode major minor = some w') : Confined P L' r w w' := by
  obtain ⟨l, hl, rfl⟩ := Option.map_eq_some_iff.1 hw
  exact h.confined_leads hs hx hL hy hl rfl

/-- So is a link. -/
theorem LeadsTo.symlink_below {L' : Loc → Target → Prop} (h : LeadsTo w root r)
    (hs : Sealed L w.fs r) {x : Path} (hx : FrontStays P L r (comps x))
    (hL : ∀ l y, L l y → L' l y) {target : Path} (hy : Allows L L' r (comps x) (.path target))
    {w' : World} (hw : w.symlink target (root ++ slash :: x) = some w') :
    Confined P L' r w w' := by
  unfold World.symlink at hw
  split_ifs at hw
  obtain ⟨l, hl, rfl⟩ := Option.map_eq_some_iff.1 hw
  exact h.confined_leads hs hx hL hy hl rfl

/-- **What is opened** may be written to. -/
theorem LeadsTo.openTrunc_below (h : LeadsTo w root r) (hs : Sealed L w.fs r) {x : Path}
    (hx : Stays P L r (comps x)) {mode : UInt32} {fd : ℤ} {w' : World}
    (hw : w.openTrunc fd (root ++ slash :: x) mode = some w') :
    Confined P L r w w' ∧ ∃ l, w'.fds fd = some l ∧ Ready P w'.fs l := by
  unfold World.openTrunc at hw
  split at hw
  · exact absurd hw (by simp)
  next l hl =>
  obtain ⟨hP, hr, hdev⟩ := h.find_below hs hx hl
  -- a file that is put in place is opened there
  have hfile : ∀ perm, Confined P L r w (w.put l (.file perm [])) →
      (w.put l (.file perm [])).openAt fd l = w' →
        Confined P L r w w' ∧ ∃ l, w'.fds fd = some l ∧ Ready P w'.fs l := by
    rintro perm hput rfl
    have hready : Ready P (w.put l (.file perm [])).fs l :=
      ⟨hP, _, Function.update_self .., fun x hx => absurd hx (by simp [Object.leads])⟩
    exact ⟨hput.trans (.openAt hput.isSealed hready fd), l, Function.update_self .., hready⟩
  split at hw
  next hfree =>
    refine hfile _ (.put hs hP (fun o' ho' => ?_) fun _ x hx => ?_) (Option.some.inj hw)
    · exact absurd (hfree.symm.trans ho') (by simp)
    · exact absurd hx (by simp [Object.leads])
  next perm data hold =>
    exact hfile _ (.replace hs hP hold trivial) (Option.some.inj hw)
  next x perm hnode =>
    obtain rfl := Option.some.inj hw
    have hx : P (.device x) := hdev x (hs l _ hr hnode _ rfl)
    have hready : Ready P w.fs l :=
      ⟨hP, _, hnode, fun y hy => by simp_all [Object.leads]⟩
    have htouch : Confined P L r w (w.touch (.device x)) := ⟨.touch hx, hs, fun _ _ => .inr⟩
    exact ⟨htouch.trans (.openAt htouch.isSealed hready fd), l, Function.update_self .., hready⟩
  · exact absurd hw (by simp)
  · exact absurd hw (by simp)

/-- **What may be written to** is written to. -/
theorem write_below (hs : Sealed L w.fs r) {fd : ℤ} {l : Loc} (hfd : w.fds fd = some l)
    (hl : Ready P w.fs l) {buf : List UInt8} {w' : World} (hw : w.write fd buf = some w') :
    Confined P L r w w' ∧ w'.fds = w.fds := by
  obtain ⟨hP, o, ho, hx⟩ := hl
  have hwithin := Within.write hfd hP (fun x perm hnode => ?_) hw
  · unfold World.write at hw
    rw [hfd, Option.map_some] at hw
    obtain rfl := Option.some.inj hw
    revert hwithin
    split <;> intro hwithin
    · exact ⟨⟨hwithin, hs.put fun _ x hx => absurd hx (by simp [Object.leads]),
        fun _ _ => .inr⟩, rfl⟩
    · exact ⟨⟨hwithin, hs, fun _ _ => .inr⟩, rfl⟩
    · exact ⟨⟨hwithin, hs, fun _ _ => .inr⟩, rfl⟩
  · obtain rfl := Option.some.inj (ho.symm.trans hnode)
    exact hx x rfl

/-- The mode of an object below the root is changed. -/
theorem LeadsTo.chmod_below (h : LeadsTo w root r) (hs : Sealed L w.fs r) {x : Path}
    (hx : Stays P L r (comps x)) {mode : UInt32} {w' : World}
    (hw : w.chmod (root ++ slash :: x) mode = some w') : Confined P L r w w' := by
  unfold World.chmod at hw
  split at hw
  · exact absurd hw (by simp)
  next l hl =>
  obtain ⟨hP, -, -⟩ := h.find_below hs hx hl
  split at hw
  next ho =>
    obtain rfl := Option.some.inj hw
    exact .replace hs hP ho trivial
  next ho =>
    obtain rfl := Option.some.inj hw
    exact .replace hs hP ho trivial
  next ho =>
    obtain rfl := Option.some.inj hw
    exact .replace hs hP ho rfl
  · exact absurd hw (by simp)
  · exact absurd hw (by simp)

end Below

end Posix

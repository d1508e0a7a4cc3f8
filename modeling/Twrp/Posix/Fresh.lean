/-
# Filling an empty directory

A call that creates something fails where something is.  In a directory that was empty, what
is found at a location below is therefore what was put there first: `Laid` says so of a
world and the list of all attempts.

A path whose components lead through directories (`Paved`) leads where they say: to an
object that is there or, when nothing is, to the one place where it can be created
(`LeadsTo.vacant_eq`).
-/

import Twrp.Posix.Process
import Mathlib.Data.List.Infix

namespace Posix

/-! ### The way of a path -/

section Way

variable {fs : FS} {r : Loc} {cs : List Name} {x : Path}

/-- The places on the way of `x` from `r`, `r` first: where the components in front of the
last one lead. -/
def through (r : Loc) (x : Path) : List Loc := (comps x).dropLast.inits.map (follow r)

/-- What is on the way: where a front of the components leads that something follows. -/
theorem mem_through {l : Loc} :
    l ∈ through r x ↔ ∃ front rest, comps x = front ++ rest ∧ rest ≠ [] ∧ follow r front = l := by
  rw [through, List.mem_map]
  constructor
  · rintro ⟨front, hfront, rfl⟩
    obtain ⟨rest, hrest⟩ := (List.mem_inits ..).1 hfront
    refine ⟨front, rest ++ [(comps x).getLast (comps_ne_nil x)], ?_, by simp, rfl⟩
    rw [← List.append_assoc, hrest, List.dropLast_append_getLast]
  · rintro ⟨front, rest, hx, hrest, rfl⟩
    refine ⟨front, (List.mem_inits ..).2 ⟨rest.dropLast, ?_⟩, rfl⟩
    rw [hx, List.dropLast_append_of_ne_nil hrest]

/-- The way begins at `r`. -/
theorem self_mem_through (r : Loc) (x : Path) : r ∈ through r x :=
  mem_through.2 ⟨[], comps x, rfl, comps_ne_nil x, rfl⟩

/-- A slash is behind one more place. -/
theorem through_slash (r : Loc) (x : Path) :
    through r (x ++ [slash]) = through r x ++ [follow r (comps x)] := by
  obtain ⟨front, n, hx⟩ : ∃ front n, comps x = front ++ [n] :=
    ⟨_, _, (List.dropLast_append_getLast (comps_ne_nil x)).symm⟩
  have hslash : comps (x ++ [slash]) = front ++ [n] ++ [[]] := by
    rw [comps_append, hx]
    rfl
  rw [through, through, hslash, hx, List.dropLast_concat, List.dropLast_concat, List.inits_append,
    List.map_append]
  rfl

theorem dropLast_modifyHead {α : Type} (f : α → α) (xs : List α) :
    (xs.modifyHead f).dropLast = xs.dropLast.modifyHead f := by
  cases xs with
  | nil => rfl
  | cons x xs => cases xs <;> rfl

/-- A slash in front opens a component, another byte goes into the first one. -/
theorem comps_cons (b : UInt8) (x : Path) :
    comps (b :: x) = if b = slash then [] :: comps x else (comps x).modifyHead (b :: ·) := by
  rw [comps, List.splitOn_cons_eq_if_modifyHead]
  exact if_congr (by simp) rfl rfl

/-- Another byte belongs to the last component. -/
theorem dropLast_comps_concat (x : Path) {c : UInt8} (hc : c ≠ slash) :
    (comps (x ++ [c])).dropLast = (comps x).dropLast := by
  induction x with
  | nil =>
    rw [List.nil_append, comps_cons, if_neg hc]
    rfl
  | cons b x ih =>
    rw [List.cons_append, comps_cons, comps_cons]
    split_ifs
    · rw [List.dropLast_cons_of_ne_nil (comps_ne_nil _),
        List.dropLast_cons_of_ne_nil (comps_ne_nil _), ih]
    · rw [dropLast_modifyHead, dropLast_modifyHead, ih]

/-- A byte more in the last name changes nothing on the way. -/
theorem through_concat (r : Loc) (x : Path) {c : UInt8} (hc : c ≠ slash) :
    through r (x ++ [c]) = through r x := by
  rw [through, through, dropLast_comps_concat x hc]

/-- The places on the way of a part of a path are on the way of the path. -/
theorem through_subset (r : Loc) (x y : Path) : through r x ⊆ through r (x ++ y) := by
  induction y using List.reverseRecOn with
  | nil => rw [List.append_nil]; exact List.Subset.refl _
  | append_singleton y c ih =>
    rw [← List.append_assoc]
    by_cases hc : c = slash
    · rw [hc, through_slash]
      exact List.Subset.trans ih (List.subset_append_left ..)
    · rwa [through_concat r _ hc]

/-- Without its last byte a path passes the same places in front of a component that is not
empty. -/
theorem mem_through_of_concat {c : UInt8} {front rest : List Name} {n : Name}
    (h : comps (x ++ [c]) = front ++ n :: rest) (hn : n ≠ []) : follow r front ∈ through r x := by
  by_cases hc : c = slash
  · rw [hc, comps_append] at h
    change comps x ++ [[]] = _ at h
    rcases rest.eq_nil_or_concat' with rfl | ⟨rest, m, rfl⟩
    · exact absurd (List.append_inj_right' h rfl) (by simpa using Ne.symm hn)
    · have hx : comps x ++ [[]] = front ++ n :: rest ++ [m] := by
        rw [h]
        simp
      exact mem_through.2 ⟨front, n :: rest, (List.append_inj' hx rfl).1, by simp, rfl⟩
  · rw [← through_concat r x hc]
    exact mem_through.2 ⟨front, n :: rest, h, by simp, rfl⟩

/-- Empty components stay. -/
theorem follow_empty {cur : Loc} (h : ∀ n ∈ cs, n = []) : follow cur cs = cur := by
  induction cs with
  | nil => rfl
  | cons c cs ih =>
    rw [follow, if_pos (.inl (h c (List.mem_cons_self ..)))]
    exact ih fun n hn => h n (List.mem_cons_of_mem _ hn)

/-- **Who gets somewhere has passed every place above.** -/
theorem exists_follow_eq {m : Loc} (hr : r <+: m) (hm : m <+: follow r cs) :
    ∃ front, front <+: cs ∧ follow r front = m := by
  induction cs using List.reverseRecOn generalizing m with
  | nil => exact ⟨[], List.nil_prefix, hr.eq_of_length_le hm.length_le⟩
  | append_singleton cs c ih =>
    have hup : m <+: follow r cs → ∃ front, front <+: cs ++ [c] ∧ follow r front = m := by
      intro h
      obtain ⟨front, hfront, rfl⟩ := ih hr h
      exact ⟨front, hfront.trans (List.prefix_append ..), rfl⟩
    rw [follow_append] at hm
    by_cases hc : c = [] ∨ c = dot
    · rw [follow, if_pos hc, follow] at hm
      exact hup hm
    by_cases hdot : c = dotdot
    · rw [follow, if_neg hc, if_pos hdot, follow] at hm
      exact hup (hm.trans (List.dropLast_prefix _))
    · rw [follow_name _ hc hdot] at hm
      rcases List.prefix_concat_iff.1 hm with rfl | hm
      · exact ⟨cs ++ [c], List.prefix_rfl, by rw [follow_append, follow_name _ hc hdot]⟩
      · exact hup hm

/-! ### Through directories -/

/-- Wherever a component that is not empty is looked up, there is a directory. -/
def Paved (fs : FS) (r : Loc) (cs : List Name) : Prop :=
  ∀ front n rest, cs = front ++ n :: rest → n ≠ [] → IsDir fs (follow r front)

/-- In front of a name, a paved way has a directory. -/
theorem Paved.isDir {front rest : List Name} (h : Paved fs r (front ++ rest))
    (hrest : ∃ n ∈ rest, n ≠ []) : IsDir fs (follow r front) := by
  induction rest generalizing front with
  | nil => simp at hrest
  | cons n rest ih =>
    by_cases hn : n = []
    · subst hn
      have hfront : follow r (front ++ [[]]) = follow r front := by
        rw [follow_append]
        exact follow_empty (by simp)
      rw [← hfront]
      rw [List.append_cons] at h
      exact ih h (by simpa using hrest)
    · exact h front n rest rfl hn

/-- The last component that is not empty. -/
theorem exists_last_name (h : ∃ n ∈ cs, n ≠ []) :
    ∃ front n empties, cs = front ++ n :: empties ∧ (∀ m ∈ empties, m = []) ∧ n ≠ [] := by
  induction cs using List.reverseRecOn with
  | nil => simp at h
  | append_singleton cs m ih =>
    by_cases hm : m = []
    · obtain ⟨front, n, empties, rfl, hempty, hn⟩ := ih (by simpa [hm] using h)
      exact ⟨front, n, empties ++ [m], by simp,
        List.forall_mem_append.2 ⟨hempty, by simpa using hm⟩, hn⟩
    · exact ⟨cs, m, [], rfl, by simp, hm⟩

theorem rdropWhile_empties {front empties : List Name} {n : Name} (hn : n ≠ [])
    (hempty : ∀ m ∈ empties, m = []) :
    (front ++ n :: empties).rdropWhile (· = []) = front ++ [n] := by
  induction empties using List.reverseRecOn with
  | nil => exact List.rdropWhile_concat_neg _ _ _ (by simpa using hn)
  | append_singleton empties m ih =>
    have hm : m = [] := hempty m (by simp)
    rw [← List.cons_append, ← List.append_assoc,
      List.rdropWhile_concat_pos _ _ _ (by simpa using hm)]
    exact ih fun m' hm' => hempty m' (List.mem_append_left _ hm')

/-- **Where nothing is yet,** the path ends in a proper name, and possibly in slashes. -/
theorem Paved.exists_name (h : Paved fs r cs) (hr : r <+: follow r cs) (hd : IsDir fs r)
    (hfree : fs (follow r cs) = none) :
    ∃ front n empties, cs = front ++ n :: empties ∧ (∀ m ∈ empties, m = []) ∧
      ¬ (n = [] ∨ n = dot) ∧ n ≠ dotdot ∧ IsDir fs (follow r front) ∧
        follow r cs = follow r front ++ [n] := by
  obtain ⟨front, n, empties, rfl, hempty, hn⟩ : ∃ front n empties, cs = front ++ n :: empties ∧
      (∀ m ∈ empties, m = []) ∧ n ≠ [] := by
    refine exists_last_name ?_
    by_contra hall
    push Not at hall
    rw [follow_empty hall] at hfree
    exact not_isDir_of_none hfree hd
  have hno := not_isDir_of_none hfree
  have hdir : IsDir fs (follow r front) := h front n empties rfl hn
  have hfollow : follow r (front ++ n :: empties) = follow (follow r front) [n] := by
    rw [follow_append, ← List.singleton_append, follow_append, follow_empty hempty]
  have hdot : n ≠ dot := by
    rintro rfl
    rw [hfollow, follow, if_pos (.inr rfl)] at hno
    exact hno hdir
  have hup : n ≠ dotdot := by
    rintro rfl
    have hpre : follow r (front ++ dotdot :: empties) <+: follow r front := by
      rw [hfollow, follow, if_neg (by decide), if_pos rfl]
      exact List.dropLast_prefix _
    obtain ⟨front', ⟨rest, rfl⟩, heq⟩ := exists_follow_eq hr hpre
    rw [← heq] at hno
    rw [List.append_assoc] at h
    exact hno (h.isDir ⟨dotdot, by simp, hn⟩)
  exact ⟨front, n, empties, rfl, hempty, by tauto, hup, hdir,
    hfollow.trans (follow_name _ (by tauto) hup)⟩

end Way

/-! ### Calls on such paths -/

section Calls

variable {w w' : World} {root : Path} {r l : Loc} {x : Path}

/-- A paved way is looked up to where it leads as it stands. -/
theorem LeadsTo.resolve_paved (h : LeadsTo w root r) {front rest : List Name}
    (hp : Paved w.fs r (front ++ rest)) (hdir : IsDir w.fs (follow r front)) :
    ∃ links, resolve w.fs maxLinks (start (root ++ slash :: x) w.cwd) (comps root ++ front) =
      some (links, follow r front) := by
  obtain ⟨links, hr⟩ := h.resolve_append x
  refine ⟨links, (hr front).trans (resolve_eq_follow (fun cs hcs => ?_) links)⟩
  obtain ⟨rest', rfl⟩ := hcs
  rw [List.append_assoc] at hp
  by_cases hrest : ∃ n ∈ rest', n ≠ []
  · exact hp.isDir (by obtain ⟨n, hn, hne⟩ := hrest; exact ⟨n, List.mem_append_left _ hn, hne⟩)
  · push Not at hrest
    rwa [follow_append, follow_empty hrest] at hdir

/-- A directory that is there is not made again. -/
theorem LeadsTo.mkdir_eq_none (h : LeadsTo w root r) (hp : Paved w.fs r (comps x))
    (hd : IsDir w.fs (follow r (comps x))) (mode : UInt32) :
    w.mkdir (root ++ slash :: x) mode = none := by
  rw [← List.append_nil (comps x)] at hp
  obtain ⟨links, hr⟩ := h.resolve_paved (x := x) hp hd
  rw [← comps_append] at hr
  exact World.mkdir_eq_none hr hd mode

/-- **Where nothing is yet,** the place the path leads to is free. -/
theorem LeadsTo.vacant_eq (h : LeadsTo w root r) (hp : Paved w.fs r (comps x))
    (hr : r <+: follow r (comps x)) (hfree : w.fs (follow r (comps x)) = none) :
    w.vacant (root ++ slash :: x) (World.trimmed (root ++ slash :: x)) =
      some (follow r (comps x)) := by
  obtain ⟨front, n, empties, hx, hempty, hn, hup, hdir, hl⟩ := hp.exists_name hr h.2.2 hfree
  have htrim : World.trimmed (root ++ slash :: x) = comps root ++ front ++ [n] := by
    rw [World.trimmed, comps_append, hx, ← List.append_assoc,
      rdropWhile_empties (fun h => hn (.inl h)) hempty]
  rw [hx] at hp
  obtain ⟨links, hres⟩ := h.resolve_paved (x := x) hp hdir
  rw [World.vacant, htrim, List.getLast?_concat]
  dsimp only
  rw [if_neg (by tauto), List.dropLast_concat, hres]
  dsimp only
  rw [if_pos ⟨hdir, by rwa [← hl]⟩, hl]

/-- A path that does not lead to a place on its way has no slash at its end. -/
theorem trimmed_eq_comps (h : follow r (comps x) ∉ through r x) :
    World.trimmed (root ++ slash :: x) = comps (root ++ slash :: x) := by
  obtain ⟨front, n, hx⟩ : ∃ front n, comps x = front ++ [n] :=
    ⟨_, _, (List.dropLast_append_getLast (comps_ne_nil x)).symm⟩
  rw [World.trimmed, comps_append, hx, ← List.append_assoc]
  refine List.rdropWhile_concat_neg _ _ _ fun hn => h ?_
  refine mem_through.2 ⟨front, [n], hx, by simp, ?_⟩
  rw [hx, follow_append]
  exact (follow_empty (by simpa using hn)).symm

/-- What has been created is found. -/
theorem World.find_of_vacant {path : Path} (hpath : path ≠ [])
    (hv : w.vacant path (comps path) = some l) (hcwd : w'.cwd = w.cwd) (hg : Grows w.fs w'.fs)
    (ho : ∀ t, w'.fs l ≠ some (.link t)) : w'.find path = some l := by
  obtain ⟨front, n, links, d, hcs, hn, hup, hd, hdir, -, rfl⟩ := World.exists_of_vacant hv
  rw [World.find, if_neg hpath, hcs, hcwd, resolve_append, resolve_of_grows hg hd hdir,
    Option.bind_some]
  cases hobj : w'.fs (d ++ [n]) with
  | none => rw [resolve_missing (hg.isDir hdir) hn hup hobj, if_pos rfl, Option.map_some]
  | some o =>
    rw [resolve_into (hg.isDir hdir) hn hup hobj (fun t h => ho t (h ▸ hobj)), resolve_nil,
      Option.map_some]

end Calls

/-! ### What was put there first -/

/-- In `w`, a world that has come from `w₀`, the directory `r` that `root` leads to holds at
each location below the first of the objects `as` for that location. -/
structure Laid (root : Path) (r : Loc) (w₀ : World) (as : List (Loc × Object)) (w : World) :
    Prop where
  leads : LeadsTo w root r
  umask : w.umask = w₀.umask
  fds : ∀ fd l, w.fds fd = some l → w₀.fds fd = some l
  top : w.fs r = w₀.fs r
  below : ∀ l, r <+: l → l ≠ r → w.fs l = as.lookup l

section Laid

variable {root : Path} {r l : Loc} {w₀ w w' : World} {as bs : List (Loc × Object)} {o : Object}
  {x : Path}

theorem lookup_one (m l : Loc) (o : Object) :
    [(l, o)].lookup m = if m = l then some o else none := by
  rw [List.lookup_cons, List.lookup_nil]
  split <;> simp_all

/-- What is found is in the list. -/
theorem mem_of_lookup {as : List (Loc × Object)} {l : Loc} {o : Object} (h : as.lookup l = some o) :
    (l, o) ∈ as := by
  obtain ⟨as₁, as₂, rfl, -⟩ := List.lookup_eq_some_iff.1 h
  simp

/-- An attempt that does nothing, at a place that is not free. -/
theorem Laid.skip (h : Laid root r w₀ as w) (hl : r <+: l → l ≠ r → w.fs l ≠ none) :
    Laid root r w₀ (as ++ [(l, o)]) w := by
  refine ⟨h.leads, h.umask, h.fds, h.top, fun m hm hne => ?_⟩
  have hold := h.below m hm hne
  rw [List.lookup_append, ← hold]
  cases hw : w.fs m with
  | some o' => rfl
  | none =>
    have hml : m ≠ l := by
      rintro rfl
      exact hl hm hne hw
    rw [Option.none_or, lookup_one, if_neg hml]

/-- An attempt that succeeds, at a free place. -/
theorem Laid.new (h : Laid root r w₀ as w) (hw : Within (fun _ => True) w w')
    (hfds : ∀ fd l, w'.fds fd = some l → w.fds fd = some l)
    (hfs : w'.fs = Function.update w.fs l (some o)) (hfree : w.fs l = none) :
    Laid root r w₀ (as ++ [(l, o)]) w' := by
  have hlr : r ≠ l := by
    rintro rfl
    exact not_isDir_of_none hfree h.leads.2.2
  refine ⟨h.leads.of_within hw, hw.umask.trans h.umask, fun fd l hl => h.fds fd l (hfds fd l hl),
    ?_, fun m hm hne => ?_⟩
  · rw [hfs, Function.update_of_ne hlr, h.top]
  · rw [hfs, List.lookup_append, ← h.below m hm hne]
    rcases eq_or_ne m l with rfl | hml
    · rw [Function.update_self, hfree, Option.none_or, lookup_one, if_pos rfl]
    · rw [Function.update_of_ne hml, lookup_one, if_neg hml,
        Option.or_none]

/-- An object in a free place is one more at the end. -/
theorem Laid.put (h : Laid root r w₀ as w) (hfree : w.fs l = none) :
    Laid root r w₀ (as ++ [(l, o)]) (w.put l o) :=
  h.new (.put trivial fun o' ho' => absurd (hfree.symm.trans ho') (by simp)) (fun _ _ h => h) rfl
    hfree

/-- Where something has been attempted, there is something. -/
theorem Laid.ne_none (h : Laid root r w₀ as w) (hr : r <+: l)
    (hl : l ≠ r → l ∈ as.map Prod.fst) : w.fs l ≠ none := by
  by_cases hne : l = r
  · exact fun hfree => not_isDir_of_none hfree (hne ▸ h.leads.2.2)
  · rw [h.below l hr hne, Ne, List.lookup_eq_none_iff]
    obtain ⟨a, ha, rfl⟩ := List.mem_map.1 (hl hne)
    exact fun hall => by simpa using hall a ha

/-- What is there has been attempted. -/
theorem Laid.mem (h : Laid root r w₀ as w) (hr : r <+: l) (hne : l ≠ r) (ho : w.fs l = some o) :
    (l, o) ∈ as :=
  mem_of_lookup (h.below l hr hne ▸ ho)

/-- **Where only directories have been attempted,** there is nothing else. -/
theorem Laid.isDir (h : Laid root r w₀ as w) (hr : r <+: l)
    (hdir : ∀ o, (l, o) ∈ as → ∃ perm, o = .dir perm) (hl : w.fs l ≠ none) : IsDir w.fs l := by
  by_cases hne : l = r
  · exact hne ▸ h.leads.2.2
  obtain ⟨o, ho⟩ := Option.ne_none_iff_exists'.1 hl
  obtain ⟨perm, rfl⟩ := hdir o (h.mem hr hne ho)
  exact ⟨perm, ho⟩

/-! The calls: each is one more attempt at the place that its path leads to. -/

/-- `mkdir`, where nothing is or a directory. -/
theorem Laid.mkdir (h : Laid root r w₀ as w) (hp : Paved w.fs r (comps x))
    (hr : r <+: follow r (comps x))
    (hl : w.fs (follow r (comps x)) ≠ none → IsDir w.fs (follow r (comps x))) (mode : UInt32) :
    Laid root r w₀ (as ++ [(follow r (comps x), .dir (mode &&& ~~~w₀.umask))])
      ((w.mkdir (root ++ slash :: x) mode).getD w) := by
  by_cases hfree : w.fs (follow r (comps x)) = none
  · rw [World.mkdir, h.leads.vacant_eq hp hr hfree, h.umask]
    exact h.put hfree
  · rw [h.leads.mkdir_eq_none hp (hl hfree)]
    exact h.skip fun _ _ => hfree

/-- A path to something new that is no directory. -/
structure Opens (w : World) (r : Loc) (x : Path) : Prop where
  paved : Paved w.fs r (comps x)
  below : r <+: follow r (comps x)
  last : follow r (comps x) ∉ through r x
  free : w.fs (follow r (comps x)) = none

/-- The place of a path that opens is free. -/
theorem Opens.vacant (ho : Opens w r x) (h : LeadsTo w root r) :
    w.vacant (root ++ slash :: x) (comps (root ++ slash :: x)) = some (follow r (comps x)) := by
  rw [← trimmed_eq_comps ho.last]
  exact h.vacant_eq ho.paved ho.below ho.free

/-- A file that is opened there is created. -/
theorem Opens.openTrunc (ho : Opens w r x) (h : LeadsTo w root r) (fd : ℤ) (mode : UInt32) :
    ∃ w', w.openTrunc fd (root ++ slash :: x) mode = some w' ∧ Within (fun _ => True) w w' ∧
      w'.fds = Function.update w.fds fd (some (follow r (comps x))) ∧
      w'.fs = Function.update w.fs (follow r (comps x))
        (some (.file (mode &&& ~~~w.umask) [])) := by
  have hv := ho.vacant h
  have hfind := World.find_of_vacant (by simp) hv rfl (.refl _) fun t ht => by simp [ho.free] at ht
  have hput : Within (fun _ => True) w
      (w.put (follow r (comps x)) (.file (mode &&& ~~~w.umask) [])) :=
    .put trivial fun o' ho' => absurd (ho.free.symm.trans ho') (by simp)
  refine ⟨_, ?_, hput.trans (.openAt _ fd _), rfl, rfl⟩
  rw [World.openTrunc, hfind]
  dsimp only
  rw [ho.free]

/-- A node, if it can be made, is one more. -/
theorem Laid.mknod (h : Laid root r w₀ as w) (ho : Opens w r x) (mode major minor : UInt32) :
    Laid root r w₀ (as ++ [(follow r (comps x),
      .node ⟨mode &&& 0o170000, major, minor⟩ (mode &&& 0o7777 &&& ~~~w₀.umask))])
      ((w.mknod (root ++ slash :: x) mode major minor).getD w) := by
  rw [World.mknod, ho.vacant h.leads, h.umask]
  exact h.put ho.free

/-- So is a link. -/
theorem Laid.symlink (h : Laid root r w₀ as w) (ho : Opens w r x) {target : Path}
    (ht : target ≠ []) :
    Laid root r w₀ (as ++ [(follow r (comps x), .link target)])
      ((w.symlink target (root ++ slash :: x)).getD w) := by
  rw [World.symlink, if_neg ht, ho.vacant h.leads]
  exact h.put ho.free

end Laid

end Posix

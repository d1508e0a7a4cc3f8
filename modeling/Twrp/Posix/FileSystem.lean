/-
# A POSIX file system

A file system says what stands at each location, a location being the names that lead to
it from the root.  A path is looked up one component after the other (`resolve`): `..`
leads to the directory above, and a symbolic link to where its target leads, absolute
targets from the root and relative ones from the directory of the link, up to a limit.

While objects are added and none is taken away or made another kind of object (`Grows`),
a path that leads to a directory leads there ever after (`resolve_of_grows`).
-/

import Mathlib.Data.Nat.Notation
import Mathlib.Tactic.Common

namespace Posix

abbrev Path := List UInt8
abbrev Name := List UInt8

/-- A place in a file system: the names on the way from its root. -/
abbrev Loc := List Name

def slash : UInt8 := 47
def dot : Name := [46]
def dotdot : Name := [46, 46]

/-- A device: its type and its numbers. -/
structure DeviceId where
  fmt : UInt32
  major : UInt32
  minor : UInt32
  deriving DecidableEq, Repr

/-- What can stand at a location. -/
inductive Object where
  | dir (perm : UInt32)
  | file (perm : UInt32) (data : List UInt8)
  | node (device : DeviceId) (perm : UInt32)
  | link (target : Path)
  deriving DecidableEq, Repr

abbrev FS := Loc → Option Object

def IsDir (fs : FS) (l : Loc) : Prop := ∃ perm, fs l = some (.dir perm)

instance (fs : FS) (l : Loc) : Decidable (IsDir fs l) :=
  match h : fs l with
  | some (.dir perm) => isTrue ⟨perm, h⟩
  | some (.file ..) => isFalse fun ⟨_, h'⟩ => by simp [h] at h'
  | some (.node ..) => isFalse fun ⟨_, h'⟩ => by simp [h] at h'
  | some (.link _) => isFalse fun ⟨_, h'⟩ => by simp [h] at h'
  | none => isFalse fun ⟨_, h'⟩ => by simp [h] at h'

def IsFile (fs : FS) (l : Loc) : Prop := ∃ perm data, fs l = some (.file perm data)

def IsLink (fs : FS) (l : Loc) : Prop := ∃ t, fs l = some (.link t)

def IsNode (fs : FS) (l : Loc) : Prop := ∃ x perm, fs l = some (.node x perm)

instance (fs : FS) (l : Loc) : Decidable (IsLink fs l) :=
  match h : fs l with
  | some (.link t) => isTrue ⟨t, h⟩
  | some (.file ..) => isFalse fun ⟨_, h'⟩ => by simp [h] at h'
  | some (.node ..) => isFalse fun ⟨_, h'⟩ => by simp [h] at h'
  | some (.dir _) => isFalse fun ⟨_, h'⟩ => by simp [h] at h'
  | none => isFalse fun ⟨_, h'⟩ => by simp [h] at h'

instance (fs : FS) (l : Loc) : Decidable (IsNode fs l) :=
  match h : fs l with
  | some (.node x perm) => isTrue ⟨x, perm, h⟩
  | some (.file ..) => isFalse fun ⟨_, _, h'⟩ => by simp [h] at h'
  | some (.link _) => isFalse fun ⟨_, _, h'⟩ => by simp [h] at h'
  | some (.dir _) => isFalse fun ⟨_, _, h'⟩ => by simp [h] at h'
  | none => isFalse fun ⟨_, _, h'⟩ => by simp [h] at h'

/-! ### Looking up a path -/

/-- The components of a path, empty ones included. -/
def comps (p : Path) : List Name := p.splitOn slash

/-- Where the look-up of a path starts that is met in the directory `cur`. -/
def start (p : Path) (cur : Loc) : Loc := if p.head? = some slash then [] else cur

/-- Look up components from `cur` on, as far as the first symbolic link: `again` is the
look-up of its target and what is left, when it is to be followed.  The last component may
be missing. -/
def advance (fs : FS) (links : ℕ) (again : Loc → List Name → Option (ℕ × Loc)) (cur : Loc) :
    List Name → Option (ℕ × Loc)
  | [] => some (links, cur)
  | c :: cs =>
    if IsDir fs cur then
      if c = [] ∨ c = dot then advance fs links again cur cs
      else if c = dotdot then advance fs links again cur.dropLast cs
      else
        match fs (cur ++ [c]) with
        | some (.link t) => again (start t cur) (comps t ++ cs)
        | some _ => advance fs links again (cur ++ [c]) cs
        | none => if cs = [] then some (links, cur ++ [c]) else none
    else none

/-- Look up components from `cur` on, following at most `links` symbolic links.  The number
in the result is how many more may be followed. -/
def resolve (fs : FS) : ℕ → Loc → List Name → Option (ℕ × Loc)
  | 0 => advance fs 0 fun _ _ => none
  | links + 1 => advance fs (links + 1) (resolve fs links)

/-- The number of links the kernel follows. -/
def maxLinks : ℕ := 40

section Resolve

variable {fs fs' : FS} {links links' : ℕ} {cur l : Loc}

/-- Without components the look-up ends where it is. -/
theorem resolve_nil (fs : FS) (links : ℕ) (cur : Loc) :
    resolve fs links cur [] = some (links, cur) := by
  cases links <;> rfl

/-- A look-up ends where there is no directory. -/
theorem resolve_of_not_isDir (h : ¬ IsDir fs cur) {cs : List Name} (hcs : cs ≠ []) :
    resolve fs links cur cs = none := by
  obtain ⟨c, cs, rfl⟩ := List.exists_cons_of_ne_nil hcs
  cases links <;> rw [resolve, advance, if_neg h]

/-! One step, case by case. -/

section Step

variable {c : Name} {cs : List Name}

/-- An empty component and `.` stay in the directory. -/
theorem resolve_stay (h : IsDir fs cur) (hc : c = [] ∨ c = dot) :
    resolve fs links cur (c :: cs) = resolve fs links cur cs := by
  cases links <;> rw [resolve, advance, if_pos h, if_pos hc]

/-- `..` leads to the directory above; at the root it stays there. -/
theorem resolve_up (h : IsDir fs cur) :
    resolve fs links cur (dotdot :: cs) = resolve fs links cur.dropLast cs := by
  cases links <;> rw [resolve, advance, if_pos h, if_neg (by decide), if_pos rfl]

/-- A link: its target is looked up first, then what is left of the path. -/
theorem resolve_link (h : IsDir fs cur) (hc : ¬ (c = [] ∨ c = dot)) (hup : c ≠ dotdot) {t : Path}
    (ho : fs (cur ++ [c]) = some (.link t)) :
    resolve fs (links + 1) cur (c :: cs) = resolve fs links (start t cur) (comps t ++ cs) := by
  rw [resolve, advance, if_pos h, if_neg hc, if_neg hup, ho]

/-- A link too many ends the look-up. -/
theorem resolve_link_zero (h : IsDir fs cur) (hc : ¬ (c = [] ∨ c = dot)) (hup : c ≠ dotdot)
    {t : Path} (ho : fs (cur ++ [c]) = some (.link t)) : resolve fs 0 cur (c :: cs) = none := by
  rw [resolve, advance, if_pos h, if_neg hc, if_neg hup, ho]

/-- Any other object is the place to go on from. -/
theorem resolve_into (h : IsDir fs cur) (hc : ¬ (c = [] ∨ c = dot)) (hup : c ≠ dotdot) {o : Object}
    (ho : fs (cur ++ [c]) = some o) (hlink : ∀ t, o ≠ .link t) :
    resolve fs links cur (c :: cs) = resolve fs links (cur ++ [c]) cs := by
  cases o with
  | link t => exact absurd rfl (hlink t)
  | dir | file | node => cases links <;> rw [resolve, advance, if_pos h, if_neg hc, if_neg hup, ho]

/-- A missing object is where the path leads only if the path ends there. -/
theorem resolve_missing (h : IsDir fs cur) (hc : ¬ (c = [] ∨ c = dot)) (hup : c ≠ dotdot)
    (ho : fs (cur ++ [c]) = none) :
    resolve fs links cur (c :: cs) = if cs = [] then some (links, cur ++ [c]) else none := by
  cases links <;> rw [resolve, advance, if_pos h, if_neg hc, if_neg hup, ho]

end Step

/-- Induction along the components, with the look-up that a link leads to left out. -/
theorem comps_induction {motive : Loc → List Name → Prop} (nil : ∀ cur, motive cur [])
    (file : ∀ cur c cs, ¬ IsDir fs cur → motive cur (c :: cs))
    (stay : ∀ cur c cs, IsDir fs cur → (c = [] ∨ c = dot) → motive cur cs → motive cur (c :: cs))
    (up : ∀ cur cs, IsDir fs cur → motive cur.dropLast cs → motive cur (dotdot :: cs))
    (link : ∀ cur c cs t, IsDir fs cur → ¬ (c = [] ∨ c = dot) → c ≠ dotdot →
      fs (cur ++ [c]) = some (.link t) → motive cur (c :: cs))
    (into : ∀ cur c cs o, IsDir fs cur → ¬ (c = [] ∨ c = dot) → c ≠ dotdot →
      fs (cur ++ [c]) = some o → (∀ t, o ≠ .link t) → motive (cur ++ [c]) cs → motive cur (c :: cs))
    (missing : ∀ cur c cs, IsDir fs cur → ¬ (c = [] ∨ c = dot) → c ≠ dotdot →
      fs (cur ++ [c]) = none → motive cur (c :: cs))
    (cur : Loc) (cs : List Name) : motive cur cs := by
  induction cs generalizing cur with
  | nil => exact nil cur
  | cons c cs ih =>
    by_cases h : IsDir fs cur
    swap
    · exact file cur c cs h
    by_cases hc : c = [] ∨ c = dot
    · exact stay cur c cs h hc (ih cur)
    by_cases hup : c = dotdot
    · exact hup ▸ up cur cs h (ih _)
    cases ho : fs (cur ++ [c]) with
    | none => exact missing cur c cs h hc hup ho
    | some o =>
      by_cases hlink : ∃ t, o = .link t
      · obtain ⟨t, rfl⟩ := hlink
        exact link cur c cs t h hc hup ho
      · exact into cur c cs o h hc hup ho (fun t ht => hlink ⟨t, ht⟩) (ih _)

/-- **Induction along a look-up.** -/
@[elab_as_elim]
theorem resolve_induction {motive : ℕ → Loc → List Name → Prop}
    (nil : ∀ links cur, motive links cur [])
    (file : ∀ links cur c cs, ¬ IsDir fs cur → motive links cur (c :: cs))
    (stay : ∀ links cur c cs, IsDir fs cur → (c = [] ∨ c = dot) → motive links cur cs →
      motive links cur (c :: cs))
    (up : ∀ links cur cs, IsDir fs cur → motive links cur.dropLast cs →
      motive links cur (dotdot :: cs))
    (loop : ∀ cur c cs t, IsDir fs cur → ¬ (c = [] ∨ c = dot) → c ≠ dotdot →
      fs (cur ++ [c]) = some (.link t) → motive 0 cur (c :: cs))
    (link : ∀ links cur c cs t, IsDir fs cur → ¬ (c = [] ∨ c = dot) → c ≠ dotdot →
      fs (cur ++ [c]) = some (.link t) → motive links (start t cur) (comps t ++ cs) →
        motive (links + 1) cur (c :: cs))
    (into : ∀ links cur c cs o, IsDir fs cur → ¬ (c = [] ∨ c = dot) → c ≠ dotdot →
      fs (cur ++ [c]) = some o → (∀ t, o ≠ .link t) → motive links (cur ++ [c]) cs →
        motive links cur (c :: cs))
    (missing : ∀ links cur c cs, IsDir fs cur → ¬ (c = [] ∨ c = dot) → c ≠ dotdot →
      fs (cur ++ [c]) = none → motive links cur (c :: cs))
    (links : ℕ) (cur : Loc) (cs : List Name) : motive links cur cs := by
  induction links generalizing cur cs with
  | zero => exact comps_induction (nil 0) (file 0) (stay 0) (up 0) loop (into 0) (missing 0) cur cs
  | succ links ih =>
    exact comps_induction (nil _) (file _) (stay _) (up _)
      (fun cur c cs t h hc hup ho => link links cur c cs t h hc hup ho (ih _ _))
      (into _) (missing _) cur cs

/-- Where nothing stands there is no directory. -/
theorem not_isDir_of_none (h : fs l = none) : ¬ IsDir fs l := fun ⟨_, h'⟩ => by simp [h] at h'

/-- **A path is looked up piece by piece.** -/
theorem resolve_append (links : ℕ) (cur : Loc) (cs ds : List Name) :
    resolve fs links cur (cs ++ ds) =
      (resolve fs links cur cs).bind fun r => resolve fs r.1 r.2 ds := by
  induction links, cur, cs using @resolve_induction fs with
  | nil links cur => rw [resolve_nil]; rfl
  | file links cur c cs h =>
    rw [resolve_of_not_isDir h (by simp), resolve_of_not_isDir h (by simp)]
    rfl
  | stay links cur c cs h hc ih => rw [List.cons_append, resolve_stay h hc, resolve_stay h hc, ih]
  | up links cur cs h ih => rw [List.cons_append, resolve_up h, resolve_up h, ih]
  | loop cur c cs t h hc hup ho =>
    rw [List.cons_append, resolve_link_zero h hc hup ho, resolve_link_zero h hc hup ho]
    rfl
  | link links cur c cs t h hc hup ho ih =>
    rw [List.cons_append, resolve_link h hc hup ho, resolve_link h hc hup ho, ← List.append_assoc,
      ih]
  | into links cur c cs o h hc hup ho hlink ih =>
    rw [List.cons_append, resolve_into h hc hup ho hlink, resolve_into h hc hup ho hlink, ih]
  | missing links cur c cs h hc hup ho =>
    rw [List.cons_append, resolve_missing h hc hup ho, resolve_missing h hc hup ho]
    rcases eq_or_ne cs [] with rfl | hcs
    · rw [if_pos rfl, Option.bind_some, List.nil_append]
      rcases eq_or_ne ds [] with rfl | hds
      · rw [if_pos rfl, resolve_nil]
      · rw [if_neg hds, resolve_of_not_isDir (not_isDir_of_none ho) hds]
    · rw [if_neg hcs, if_neg fun hnil => hcs (List.append_eq_nil_iff.1 hnil).1]
      rfl

/-! ### Where components lead as they stand -/

/-- Where the components lead if none of them is a link. -/
def follow (cur : Loc) : List Name → Loc
  | [] => cur
  | c :: cs =>
    if c = [] ∨ c = dot then follow cur cs
    else if c = dotdot then follow cur.dropLast cs
    else follow (cur ++ [c]) cs

/-- Components lead where they lead one after the other. -/
theorem follow_append (cur : Loc) (cs ds : List Name) :
    follow cur (cs ++ ds) = follow (follow cur cs) ds := by
  induction cs generalizing cur with
  | nil => rfl
  | cons c cs ih =>
    rw [List.cons_append, follow, follow]
    split_ifs <;> exact ih _

/-- A proper name leads one step down. -/
theorem follow_name (cur : Loc) {n : Name} (hn : ¬ (n = [] ∨ n = dot)) (hup : n ≠ dotdot) :
    follow cur [n] = cur ++ [n] := by
  rw [follow, if_neg hn, if_neg hup, follow]

/-- **Where no link is met,** the components lead where they say. -/
theorem eq_follow_of_resolve {cs : List Name}
    (h : ∀ cs', cs' <+: cs → ∀ t, fs (follow cur cs') ≠ some (.link t))
    (hr : resolve fs links cur cs = some (links', l)) : l = follow cur cs := by
  have hstep {c : Name} {cs cs' : List Name} (hp : cs' <+: cs) : c :: cs' <+: c :: cs :=
    List.cons_prefix_cons.2 ⟨rfl, hp⟩
  induction cur, cs using @comps_induction fs with
  | nil cur =>
    rw [resolve_nil] at hr
    exact (Prod.mk.inj (Option.some.inj hr)).2.symm
  | file cur c cs hd =>
    rw [resolve_of_not_isDir hd (by simp)] at hr
    exact absurd hr (by simp)
  | stay cur c cs hd hc ih =>
    rw [resolve_stay hd hc] at hr
    rw [follow, if_pos hc]
    refine ih (fun cs' hp t => ?_) hr
    have := h _ (hstep hp) t
    rwa [follow, if_pos hc] at this
  | up cur cs hd ih =>
    rw [resolve_up hd] at hr
    rw [follow, if_neg (by decide), if_pos rfl]
    refine ih (fun cs' hp t => ?_) hr
    have := h _ (hstep hp) t
    rwa [follow, if_neg (by decide), if_pos rfl] at this
  | link cur c cs t hd hc hup ho =>
    have := h [c] (hstep List.nil_prefix) t
    rw [follow_name cur hc hup] at this
    exact absurd ho this
  | into cur c cs o hd hc hup ho hlink ih =>
    rw [resolve_into hd hc hup ho hlink] at hr
    rw [follow, if_neg hc, if_neg hup]
    refine ih (fun cs' hp t => ?_) hr
    have := h _ (hstep hp) t
    rwa [follow, if_neg hc, if_neg hup] at this
  | missing cur c cs hd hc hup ho =>
    rw [resolve_missing hd hc hup ho] at hr
    split_ifs at hr with hnil
    obtain ⟨-, rfl⟩ := Prod.mk.inj (Option.some.inj hr)
    rw [hnil, follow_name cur hc hup]

/-- **Through directories** the components lead where they say. -/
theorem resolve_eq_follow {cs : List Name} (h : ∀ cs', cs' <+: cs → IsDir fs (follow cur cs'))
    (links : ℕ) : resolve fs links cur cs = some (links, follow cur cs) := by
  have hstep {c : Name} {cs cs' : List Name} (hp : cs' <+: cs) : c :: cs' <+: c :: cs :=
    List.cons_prefix_cons.2 ⟨rfl, hp⟩
  induction cur, cs using @comps_induction fs with
  | nil cur => exact resolve_nil ..
  | file cur c cs hd => exact absurd (h [] List.nil_prefix) hd
  | stay cur c cs hd hc ih =>
    rw [resolve_stay hd hc, follow, if_pos hc]
    refine ih fun cs' hp => ?_
    have := h _ (hstep hp)
    rwa [follow, if_pos hc] at this
  | up cur cs hd ih =>
    rw [resolve_up hd, follow, if_neg (by decide), if_pos rfl]
    refine ih fun cs' hp => ?_
    have := h _ (hstep hp)
    rwa [follow, if_neg (by decide), if_pos rfl] at this
  | link cur c cs t hd hc hup ho =>
    obtain ⟨perm, hdir⟩ := h [c] (hstep List.nil_prefix)
    rw [follow_name cur hc hup, ho] at hdir
    exact absurd hdir (by simp)
  | into cur c cs o hd hc hup ho hlink ih =>
    rw [resolve_into hd hc hup ho hlink, follow, if_neg hc, if_neg hup]
    refine ih fun cs' hp => ?_
    have := h _ (hstep hp)
    rwa [follow, if_neg hc, if_neg hup] at this
  | missing cur c cs hd hc hup ho =>
    have := h [c] (hstep List.nil_prefix)
    rw [follow_name cur hc hup] at this
    exact absurd this (not_isDir_of_none ho)

/-! ### Growing file systems -/

/-- The same kind of object: whatever its permissions and data, a directory is a directory,
and a link leads to the same target. -/
def Object.SameKind : Object → Object → Prop
  | .dir _, .dir _ => True
  | .file .., .file .. => True
  | .node x _, .node x' _ => x = x'
  | .link t, .link t' => t = t'
  | _, _ => False

/-- What an object leads to that is not at its own location. -/
inductive Target where
  | path (t : Path)
  | device (x : DeviceId)
  deriving DecidableEq, Repr

def Object.leads : Object → Option Target
  | .link t => some (.path t)
  | .node x _ => some (.device x)
  | .dir _ | .file .. => none

/-- Objects may be added, and none is taken away. -/
def Grows (fs fs' : FS) : Prop := ∀ l o, fs l = some o → ∃ o', fs' l = some o' ∧ o.SameKind o'

/-- An object is of its own kind. -/
theorem Object.SameKind.refl (o : Object) : o.SameKind o := by
  cases o <;> simp [SameKind]

/-- Kinds are kept by one change after the other. -/
theorem Object.SameKind.trans {a b c : Object} (hab : a.SameKind b) (hbc : b.SameKind c) :
    a.SameKind c := by
  cases a <;> cases b <;> cases c <;> simp_all [SameKind]

/-- An object of the same kind leads to the same place, or is the same device. -/
theorem Object.SameKind.leads_eq {a b : Object} (h : a.SameKind b) : a.leads = b.leads := by
  cases a <;> cases b <;> simp_all [SameKind, leads]

/-- A file system that stays as it is has lost nothing. -/
theorem Grows.refl (fs : FS) : Grows fs fs := fun _ o h => ⟨o, h, .refl o⟩

/-- Growing twice is growing. -/
theorem Grows.trans {fs'' : FS} (h : Grows fs fs') (h' : Grows fs' fs'') : Grows fs fs'' := by
  intro l o ho
  obtain ⟨o', ho', hk⟩ := h l o ho
  obtain ⟨o'', ho'', hk'⟩ := h' l o' ho'
  exact ⟨o'', ho'', hk.trans hk'⟩

/-- A directory stays one. -/
theorem Grows.isDir (h : Grows fs fs') (hd : IsDir fs l) : IsDir fs' l := by
  obtain ⟨perm, hd⟩ := hd
  obtain ⟨o, ho, hk⟩ := h l _ hd
  cases o with
  | dir perm' => exact ⟨perm', ho⟩
  | file | node | link => exact hk.elim

/-- **What leads to a directory leads there ever after.** -/
theorem resolve_of_grows (h : Grows fs fs') {cs : List Name}
    (hr : resolve fs links cur cs = some (links', l)) (hd : IsDir fs l) :
    resolve fs' links cur cs = some (links', l) := by
  induction links, cur, cs using @resolve_induction fs with
  | nil links cur => rwa [resolve_nil] at hr ⊢
  | file links cur c cs hdir =>
    rw [resolve_of_not_isDir hdir (by simp)] at hr
    exact absurd hr (by simp)
  | stay links cur c cs hdir hc ih =>
    rw [resolve_stay hdir hc] at hr
    rw [resolve_stay (h.isDir hdir) hc, ih hr]
  | up links cur cs hdir ih =>
    rw [resolve_up hdir] at hr
    rw [resolve_up (h.isDir hdir), ih hr]
  | loop cur c cs t hdir hc hup ho =>
    rw [resolve_link_zero hdir hc hup ho] at hr
    exact absurd hr (by simp)
  | link links cur c cs t hdir hc hup ho ih =>
    rw [resolve_link hdir hc hup ho] at hr
    obtain ⟨o, ho', hk⟩ := h _ _ ho
    cases o with
    | link t' =>
      obtain rfl : t = t' := hk
      rw [resolve_link (h.isDir hdir) hc hup ho', ih hr]
    | dir | file | node => exact hk.elim
  | into links cur c cs o hdir hc hup ho hlink ih =>
    rw [resolve_into hdir hc hup ho hlink] at hr
    obtain ⟨o', ho', hk⟩ := h _ _ ho
    have hlink' : ∀ t, o' ≠ .link t := by
      rintro t rfl
      cases o with
      | link t' => exact hlink t' rfl
      | dir | file | node => exact hk.elim
    rw [resolve_into (h.isDir hdir) hc hup ho' hlink', ih hr]
  | missing links cur c cs hdir hc hup ho =>
    rw [resolve_missing hdir hc hup ho] at hr
    split_ifs at hr
    obtain ⟨-, rfl⟩ := Prod.mk.inj (Option.some.inj hr)
    exact absurd hd (not_isDir_of_none ho)

end Resolve

end Posix

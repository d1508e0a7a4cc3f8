/-
# A process and its calls

A process has a working directory, a mask for the modes of what it creates, and
descriptors.  A call is defined by what it does when nothing but the shape of the tree can
make it fail; a kernel may refuse it for other reasons.

What can be changed is a `Place`: the object at a location, or a device, which is behind every
node that has its numbers, wherever it stands.  Every change goes through `World.touch` or
`World.put`, which write down where it took place; `Within P` says that all changes from one
moment to a later one took place in `P`.
-/

import Twrp.Posix.FileSystem
import Mathlib.Data.List.DropRight
import Mathlib.Logic.Function.Basic

namespace Posix

/-! ### A process -/

/-- What a process can change: the object at a location, or a device. -/
inductive Place where
  | loc (l : Loc)
  | device (x : DeviceId)
  deriving DecidableEq, Repr

/-- A file system, a process with the descriptors it can write to, a number that none of them
has had, and the places the process has changed, the last one first. -/
structure World where
  fs : FS
  umask : UInt32
  cwd : Loc
  fds : ℤ → Option Loc
  nextFd : ℕ
  touched : List Place

namespace World

variable (w : World)

/-- Write down that what is at `p` is changed. -/
def touch (p : Place) : World := { w with touched := p :: w.touched }

/-- Put an object at `l`, new or in place of the one that was there. -/
def put (l : Loc) (o : Object) : World :=
  { w.touch (.loc l) with fs := Function.update w.fs l (some o) }

/-- Where a path leads, with a link at its end followed. -/
def find (path : Path) : Option Loc :=
  if path = [] then none
  else (resolve w.fs maxLinks (start path w.cwd) (comps path)).map Prod.snd

/-- Where the last of the components `cs` can be created: under a name that is free, in a
directory that exists.  A link of that name is not followed. -/
def vacant (path : Path) (cs : List Name) : Option Loc :=
  match cs.getLast? with
  | none => none
  | some n =>
    if n = [] ∨ n = dot ∨ n = dotdot then none
    else
      match resolve w.fs maxLinks (start path w.cwd) cs.dropLast with
      | none => none
      | some (_, d) => if IsDir w.fs d ∧ w.fs (d ++ [n]) = none then some (d ++ [n]) else none

/-- The components of a path without the empty ones at its end. -/
def trimmed (path : Path) : List Name := (comps path).rdropWhile (· = [])

/-- `mkdir(2)`: slashes behind the name do not matter. -/
def mkdir (path : Path) (mode : UInt32) : Option World :=
  (w.vacant path (trimmed path)).map fun l => w.put l (.dir (mode &&& ~~~w.umask))

/-- `symlink(2)`. -/
def symlink (target path : Path) : Option World :=
  if target = [] then none else (w.vacant path (comps path)).map fun l => w.put l (.link target)

/-- `mknod(2)` for a device. -/
def mknod (path : Path) (mode major minor : UInt32) : Option World :=
  (w.vacant path (comps path)).map fun l =>
    w.put l (.node ⟨mode &&& 0o170000, major, minor⟩ (mode &&& 0o7777 &&& ~~~w.umask))

/-- The descriptor `fd` for the object at `l`. -/
def openAt (fd : ℤ) (l : Loc) : World :=
  { w with fds := Function.update w.fds fd (some l), nextFd := max w.nextFd (fd.toNat + 1) }

/-- `open(2)` with `O_WRONLY | O_CREAT | O_TRUNC`, answered by `fd`.  A node opens its
device. -/
def openTrunc (fd : ℤ) (path : Path) (mode : UInt32) : Option World :=
  match w.find path with
  | none => none
  | some l =>
    match w.fs l with
    | none => some ((w.put l (.file (mode &&& ~~~w.umask) [])).openAt fd l)
    | some (.file perm _) => some ((w.put l (.file perm [])).openAt fd l)
    | some (.node x _) => some ((w.touch (.device x)).openAt fd l)
    | some (.dir _) => none
    | some (.link _) => none

/-- `write(2)` at the end of what has been written so far. -/
def write (fd : ℤ) (buf : List UInt8) : Option World :=
  (w.fds fd).map fun l =>
    match w.fs l with
    | some (.file perm data) => w.put l (.file perm (data ++ buf))
    | some (.node x _) => (w.touch (.loc l)).touch (.device x)
    | _ => w.touch (.loc l)

/-- `close(2)`. -/
def close (fd : ℤ) : World := { w with fds := Function.update w.fds fd none }

/-- `chmod(2)`. -/
def chmod (path : Path) (mode : UInt32) : Option World :=
  match w.find path with
  | none => none
  | some l =>
    match w.fs l with
    | some (.dir _) => some (w.put l (.dir mode))
    | some (.file _ data) => some (w.put l (.file mode data))
    | some (.node x _) => some (w.put l (.node x mode))
    | some (.link _) => none
    | none => none

@[simp] theorem openAt_fds (fd : ℤ) (l : Loc) :
    (w.openAt fd l).fds = Function.update w.fds fd (some l) := rfl

@[simp] theorem close_fds (fd : ℤ) : (w.close fd).fds = Function.update w.fds fd none := rfl

/-! ### Where they take place -/

variable {w} {path : Path} {l : Loc} {cs : List Name}

/-- A free place is one step down from a directory, under a proper name. -/
theorem exists_of_vacant (h : w.vacant path cs = some l) :
    ∃ front n links d, cs = front ++ [n] ∧ ¬ (n = [] ∨ n = dot) ∧ n ≠ dotdot ∧
      resolve w.fs maxLinks (start path w.cwd) front = some (links, d) ∧ IsDir w.fs d ∧
        w.fs (d ++ [n]) = none ∧ l = d ++ [n] := by
  unfold vacant at h
  split at h
  · exact absurd h (by simp)
  next n hn =>
  split_ifs at h with hname
  split at h
  · exact absurd h (by simp)
  next links d hd =>
  split_ifs at h with hfree
  exact ⟨cs.dropLast, n, links, d, (List.dropLast_append_getLast? n hn).symm, by tauto, by tauto,
    hd, hfree.1, hfree.2, (Option.some.inj h).symm⟩

/-- It is where the components lead. -/
theorem resolve_of_vacant (h : w.vacant path cs = some l) :
    (∃ links, resolve w.fs maxLinks (start path w.cwd) cs = some (links, l)) ∧ w.fs l = none := by
  obtain ⟨front, n, links, d, rfl, hn, hup, hd, hdir, hfree, rfl⟩ := exists_of_vacant h
  refine ⟨⟨links, ?_⟩, hfree⟩
  rw [resolve_append, hd, Option.bind_some, resolve_missing hdir hn hup hfree, if_pos rfl]

/-- **What is a directory is not made again.** -/
theorem mkdir_eq_none {links : ℕ}
    (h : resolve w.fs maxLinks (start path w.cwd) (comps path) = some (links, l))
    (hd : IsDir w.fs l) (mode : UInt32) : w.mkdir path mode = none := by
  rw [mkdir, Option.map_eq_none_iff, Option.eq_none_iff_forall_ne_some]
  intro m hm
  obtain ⟨⟨links', hr⟩, hfree⟩ := resolve_of_vacant hm
  have hsplit : comps path = trimmed path ++ (comps path).rtakeWhile (· = []) :=
    (List.rdropWhile_append_rtakeWhile ..).symm
  rw [hsplit, resolve_append, hr, Option.bind_some] at h
  rcases eq_or_ne ((comps path).rtakeWhile (· = [])) [] with hnil | hne
  · rw [hnil, resolve_nil] at h
    obtain ⟨-, rfl⟩ := Prod.mk.inj (Option.some.inj h)
    exact not_isDir_of_none hfree hd
  · rw [resolve_of_not_isDir (not_isDir_of_none hfree) hne] at h
    exact absurd h (by simp)

end World

/-! ### Changes inside a set of places -/

/-- From `w` to `w'` nothing has changed but at places in `P`. -/
structure Within (P : Place → Prop) (w w' : World) : Prop where
  cwd : w'.cwd = w.cwd
  umask : w'.umask = w.umask
  fs : ∀ l, ¬ P (.loc l) → w'.fs l = w.fs l
  touched : ∃ ps, w'.touched = ps ++ w.touched ∧ ∀ p ∈ ps, P p
  grows : Grows w.fs w'.fs

namespace Within

variable {P : Place → Prop} {w w' w'' : World}

/-- Nothing has changed yet. -/
theorem refl (P : Place → Prop) (w : World) : Within P w w :=
  ⟨rfl, rfl, fun _ _ => rfl, ⟨[], rfl, by simp⟩, .refl _⟩

/-- One stretch of time after the other. -/
theorem trans (h : Within P w w') (h' : Within P w' w'') : Within P w w'' := by
  obtain ⟨ps, hps, hP⟩ := h.touched
  obtain ⟨ps', hps', hP'⟩ := h'.touched
  refine ⟨h'.cwd.trans h.cwd, h'.umask.trans h.umask, fun l hl => (h'.fs l hl).trans (h.fs l hl),
    ⟨ps' ++ ps, by rw [hps', hps, List.append_assoc], ?_⟩, h.grows.trans h'.grows⟩
  exact List.forall_mem_append.2 ⟨hP', hP⟩

/-- Descriptors are no matter of the file system. -/
theorem openAt (w : World) (fd : ℤ) (l : Loc) : Within P w (w.openAt fd l) :=
  ⟨rfl, rfl, fun _ _ => rfl, ⟨[], rfl, by simp⟩, .refl _⟩

theorem close (w : World) (fd : ℤ) : Within P w (w.close fd) :=
  ⟨rfl, rfl, fun _ _ => rfl, ⟨[], rfl, by simp⟩, .refl _⟩

/-- A change at a place of the set. -/
theorem touch {p : Place} (hp : P p) : Within P w (w.touch p) :=
  ⟨rfl, rfl, fun _ _ => rfl, ⟨[p], rfl, by simpa using hp⟩, .refl _⟩

/-- An object in a free place, or in place of one of its kind. -/
theorem put {l : Loc} (hl : P (.loc l)) {o : Object} (ho : ∀ o', w.fs l = some o' → o'.SameKind o) :
    Within P w (w.put l o) := by
  refine ⟨rfl, rfl, fun m hm => ?_, ⟨[.loc l], rfl, by simpa using hl⟩, fun m o' hm => ?_⟩
  · exact Function.update_of_ne (fun h => hm (by rwa [h])) _ _
  · rcases eq_or_ne m l with rfl | hne
    · exact ⟨o, Function.update_self .., ho o' hm⟩
    · exact ⟨o', (Function.update_of_ne hne ..).trans hm, .refl o'⟩

end Within

/-! ### The directory a path leads to -/

/-- The path `root` leads to the directory `r`. -/
def LeadsTo (w : World) (root : Path) (r : Loc) : Prop :=
  root ≠ [] ∧ (∃ links, resolve w.fs maxLinks (start root w.cwd) (comps root) = some (links, r)) ∧
    IsDir w.fs r

/-- **A path that leads to a directory** leads there whatever is changed. -/
theorem LeadsTo.of_within {P : Place → Prop} {w w' : World} {root : Path} {r : Loc}
    (h : LeadsTo w root r) (hw : Within P w w') : LeadsTo w' root r := by
  obtain ⟨hne, ⟨links, hr⟩, hd⟩ := h
  exact ⟨hne, ⟨links, by rw [hw.cwd]; exact resolve_of_grows hw.grows hr hd⟩, hw.grows.isDir hd⟩

/-- A slash ends a component. -/
theorem comps_append (p q : Path) : comps (p ++ slash :: q) = comps p ++ comps q :=
  List.splitOn_append_cons_self p q

/-- Even the empty path has a component, the empty one. -/
theorem comps_ne_nil (p : Path) : comps p ≠ [] := List.splitOn_ne_nil _ _

/-- Where a path starts, its first byte decides. -/
theorem start_append {p : Path} (hp : p ≠ []) (q : Path) (cur : Loc) :
    start (p ++ q) cur = start p cur := by
  cases p with
  | nil => exact absurd rfl hp
  | cons c p => rfl

section LeadsTo

variable {w : World} {root : Path} {r : Loc}

/-- A path below `root` is looked up from where `root` leads. -/
theorem LeadsTo.resolve_append (h : LeadsTo w root r) (x : Path) :
    ∃ links, ∀ cs, resolve w.fs maxLinks (start (root ++ slash :: x) w.cwd) (comps root ++ cs) =
      resolve w.fs links r cs := by
  obtain ⟨hne, ⟨links, hr⟩, -⟩ := h
  refine ⟨links, fun cs => ?_⟩
  rw [start_append hne, Posix.resolve_append, hr, Option.bind_some]

/-- **The directories above are there.** -/
theorem LeadsTo.mkdir_above {p q : Path} (h : LeadsTo w (p ++ slash :: q) r) (hp : p ≠ [])
    (mode : UInt32) : w.mkdir p mode = none := by
  obtain ⟨-, ⟨links, hr⟩, -⟩ := h
  rw [start_append hp, comps_append, Posix.resolve_append] at hr
  obtain ⟨⟨links', m⟩, hm, hrest⟩ := Option.bind_eq_some_iff.1 hr
  refine World.mkdir_eq_none hm ?_ mode
  by_contra hd
  rw [resolve_of_not_isDir hd (comps_ne_nil q)] at hrest
  exact absurd hrest (by simp)

/-- The directory is not made again either. -/
theorem LeadsTo.mkdir_self (h : LeadsTo w root r) (mode : UInt32) : w.mkdir root mode = none := by
  obtain ⟨-, ⟨links, hr⟩, hd⟩ := h
  exact World.mkdir_eq_none hr hd mode

end LeadsTo

/-! ### What is opened -/

/-- A file stays a file. -/
theorem IsFile.of_grows {fs fs' : FS} {l : Loc} (h : IsFile fs l) (hg : Grows fs fs') :
    IsFile fs' l := by
  obtain ⟨perm, data, ho⟩ := h
  obtain ⟨o, ho', hk⟩ := hg l _ ho
  cases o with
  | file perm' data' => exact ⟨perm', data', ho'⟩
  | dir | node | link => exact hk.elim

/-- What is at `l` may be written to: the file, or the device behind the node. -/
structure Ready (P : Place → Prop) (fs : FS) (l : Loc) : Prop where
  loc : P (.loc l)
  object : ∃ o, fs l = some o ∧ ∀ x, o.leads = some (.device x) → P (.device x)

/-- What may be written to stays so. -/
theorem Ready.of_grows {P : Place → Prop} {fs fs' : FS} {l : Loc} (h : Ready P fs l)
    (hg : Grows fs fs') : Ready P fs' l := by
  obtain ⟨hl, o, ho, hx⟩ := h
  obtain ⟨o', ho', hk⟩ := hg l o ho
  exact ⟨hl, o', ho', hk.leads_eq ▸ hx⟩

/-- A write through a descriptor changes its object. -/
theorem Within.write {P : Place → Prop} {w w' : World} {fd : ℤ} {l : Loc}
    (hfd : w.fds fd = some l) (hl : P (.loc l))
    (hx : ∀ x perm, w.fs l = some (.node x perm) → P (.device x)) {buf : List UInt8}
    (hw : w.write fd buf = some w') : Within P w w' := by
  unfold World.write at hw
  rw [hfd, Option.map_some] at hw
  obtain rfl := Option.some.inj hw
  split
  next perm data hfile =>
    refine .put hl fun o' ho' => ?_
    obtain rfl := Option.some.inj (hfile.symm.trans ho')
    exact trivial
  next x perm hnode => exact (touch hl).trans (touch (hx x perm hnode))
  · exact .touch hl

end Posix

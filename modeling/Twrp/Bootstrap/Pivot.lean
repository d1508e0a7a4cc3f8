/-
# The directory for the old root

`pivot_root` wants a directory below the new root to move the old one to.  `bootstrap.c`
asks for `./oldroot`, in the new root, which is its working directory, but the directory it
has made is `/oldroot`, which is in the old one.  So the one it asks for is there only if the
archive has brought it.

The kernel may be any that keeps a file system as POSIX has it (`Posix`): it may refuse every
call, take less of a write than it is given and lend any descriptor, and only when it does a
call it does what the call is for.  On such a kernel an archive without `oldroot` never boots
(`no_boot_without_oldroot`).
-/

import Twrp.Bootstrap.Booting
import Twrp.Bootstrap.Extract

namespace Twrp
namespace Boot

open Bytes Interaction Posix
open Bootstrap (Answers Buf Stop fills segOffset segSize walk unpackCpio)

/-! ### A kernel with a file system -/

/-- `/newroot`. -/
def newRoot : Loc := [ascii "newroot"]

/-- `/plog`. -/
def plog : Loc := [ascii "plog"]

/-- `oldroot` in the new root. -/
def oldRoot : Loc := [ascii "newroot", ascii "oldroot"]

/-- A world with the file system `sub` mounted at `l`. -/
def mounted (w : World) (l : Loc) (sub : FS) : World :=
  { w with fs := fun m => if l <+: m then sub (m.drop l.length) else w.fs m }

/-- The calls of `main` that leave the tree as it is.  A mount is not moved without a source. -/
def keepsTree : Bootstrap.Call → Bool
  | .openFile _ flags _ => flags = [.rdonly]
  | .lseek .. | .read .. | .malloc _ | .mountMove _ => true
  | _ => false

/-- What a kernel does to the file system that is a part of its state, and that nobody else
changes.  Every call may fail for reasons of its own.  When a call that fills a directory is
done, it is done as a file system has it (`Answers`); a mount, a change of the working directory
and the opening of the log do what they are for; `pivot_root` succeeds only if its second
argument leads to a directory. -/
structure Posix {σ : Type} (kernel : σ → Call → Reply × σ) (view : σ → World) : Prop where
  pid1 : ∀ s c, Pid1 c (kernel s c).1
  fills : ∀ s c, fills c →
    Answers (view s) c (kernel s (.sys c)).1.ret (view (kernel s (.sys c)).2)
  keeps : ∀ s c, keepsTree c → view (kernel s (.sys c)).2 = view s
  mount : ∀ s source target fstype data,
    let r := kernel s (.sys (.mount source target fstype data))
    r.1.ret ≠ 0 ∧ view r.2 = view s ∨
      r.1.ret = 0 ∧ ∃ l sub, (view s).find target = some l ∧ view r.2 = mounted (view s) l sub ∧
        IsDir sub [] ∧ (fstype = ascii "tmpfs" → ∀ m ≠ [], sub m = none)
  openLog : ∀ s mode,
    let w := view (kernel s (.sys (.openFile (ascii "/plog/twrp-boot.log")
      [.wronly, .creat, .append] mode))).2
    Within (fun p => ∀ l, p = .loc l → plog <+: l ∧ l ≠ plog) (view s) w ∧
      ∀ fd l, w.fds fd = some l → (view s).fds fd = some l ∨ plog <+: l
  chdir : ∀ s path,
    let r := kernel s (.sys (.chdir path))
    r.1.ret ≠ 0 ∧ view r.2 = view s ∨
      r.1.ret = 0 ∧ ∃ l, (view s).find path = some l ∧ view r.2 = { view s with cwd := l }
  pivotRoot : ∀ s new old, (kernel s (.sys (.pivotRoot new old))).1.ret = 0 →
    ∃ l, (view s).find old = some l ∧ IsDir (view s).fs l

/-! ### The file system before the new root is mounted -/

/-- The directories in the root that `main` mounts something at. -/
def tops : List Name := ["proc", "sys", "dev", "plog", "newroot"].map ascii

/-- None of them is a link, and no descriptor belongs to the new root. -/
structure Initial (w : World) : Prop where
  noLink : ∀ n ∈ tops, ∀ t, w.fs [n] ≠ some (.link t)
  fds : ∀ fd l, w.fds fd = some l → ¬ newRoot <+: l

/-- Their paths lead to them. -/
theorem find_top {w : World} {n : Name} {l : Loc} (hn : n ∈ tops)
    (hlink : ∀ t, w.fs [n] ≠ some (.link t)) (h : w.find (slash :: n) = some l) : l = [n] := by
  obtain ⟨hcomps, hn, hup⟩ : comps (slash :: n) = [[], n] ∧ ¬ (n = [] ∨ n = dot) ∧ n ≠ dotdot :=
    (by decide : ∀ n ∈ tops, comps (slash :: n) = [[], n] ∧ ¬ (n = [] ∨ n = dot) ∧ n ≠ dotdot) n hn
  rw [World.find, if_neg (List.cons_ne_nil _ _), hcomps, start, if_pos List.head?_cons,
    Option.map_eq_some_iff] at h
  obtain ⟨⟨links, m⟩, hr, rfl⟩ := h
  by_cases hd : IsDir w.fs []
  · rw [resolve_stay hd (Or.inl rfl)] at hr
    cases ho : w.fs ([] ++ [n]) with
    | none =>
      rw [resolve_missing hd hn hup ho, if_pos rfl] at hr
      exact (Prod.mk.inj (Option.some.inj hr)).2.symm
    | some o =>
      have hlink' : ∀ t, o ≠ .link t := fun t ht => hlink t (ht ▸ ho)
      rw [resolve_into hd hn hup ho hlink', resolve_nil] at hr
      exact (Prod.mk.inj (Option.some.inj hr)).2.symm
  · rw [resolve_of_not_isDir hd (by simp)] at hr
    exact absurd hr (by simp)

namespace Initial

variable {w w' : World}

/-- An object that is no link may be put anywhere. -/
theorem put (h : Initial w) {l : Loc} {o : Object} (ho : ∀ t, o ≠ .link t) :
    Initial (w.put l o) := by
  refine ⟨fun n hn t ht => ?_, h.fds⟩
  rcases eq_or_ne [n] l with rfl | hne
  · have hput : (w.put [n] o).fs [n] = some o := Function.update_self ..
    exact ho t (Option.some.inj (hput.symm.trans ht))
  · have hput : (w.put l o).fs [n] = w.fs [n] := Function.update_of_ne hne ..
    exact h.noLink n hn t (hput.symm.trans ht)

theorem mkdir (h : Initial w) {path : Path} {mode : UInt32} {r : ℤ}
    (ha : Answers w (.mkdir path mode) r w') : Initial w' := by
  rcases ha.of_mkdir with rfl | hw
  · exact h
  · obtain ⟨l, -, rfl⟩ := Option.map_eq_some_iff.1 hw
    exact h.put fun t => by simp

theorem write (h : Initial w) {fd : ℤ} {b : Buf} {r : ℤ} (ha : Answers w (.write fd b) r w') :
    Initial w' := by
  rcases ha.of_write with rfl | ⟨n, hw⟩
  · exact h
  · obtain ⟨l, -, rfl⟩ := Option.map_eq_some_iff.1 hw
    split
    · exact h.put fun t => by simp
    · exact ⟨h.noLink, h.fds⟩
    · exact ⟨h.noLink, h.fds⟩

theorem close (h : Initial w) {fd r : ℤ} (ha : Answers w (.close fd) r w') : Initial w' := by
  rcases ha.of_close with rfl | hw
  · exact h
  obtain rfl := Option.some.inj hw
  refine ⟨h.noLink, fun fd' l hl => ?_⟩
  rw [World.close_fds] at hl
  rcases eq_or_ne fd' fd with rfl | hne
  · rw [Function.update_self] at hl
    exact absurd hl (by simp)
  · rw [Function.update_of_ne hne] at hl
    exact h.fds fd' l hl

/-- Mounting at one of them. -/
theorem mount (h : Initial w) {n : Name} {sub : FS} (hsub : IsDir sub []) :
    Initial (mounted w [n] sub) := by
  refine ⟨fun m hm t ht => ?_, h.fds⟩
  rw [mounted] at ht
  dsimp only at ht
  split_ifs at ht with hpre
  · obtain rfl : n = m := by simpa using hpre
    obtain ⟨perm, hdir⟩ := hsub
    rw [List.length_singleton, List.drop_one, List.tail_cons, hdir] at ht
    exact absurd ht (by simp)
  · exact h.noLink m hm t ht

/-- The log may be opened. -/
theorem openLog (h : Initial w)
    (hw : Within (fun p => ∀ l, p = .loc l → plog <+: l ∧ l ≠ plog) w w')
    (hfds : ∀ fd l, w'.fds fd = some l → w.fds fd = some l ∨ plog <+: l) : Initial w' := by
  constructor
  · intro n hn t
    rw [hw.fs [n] fun hp => (hp _ rfl).2 ((hp _ rfl).1.eq_of_length rfl).symm]
    exact h.noLink n hn t
  · intro fd l hl
    rcases hfds fd l hl with hold | ⟨x, rfl⟩
    · exact h.fds fd l hold
    · rintro ⟨y, hy⟩
      exact absurd (List.head_eq_of_cons_eq hy) (by decide)

end Initial

/-! ### The new root -/

/-- The new root is an empty directory, and no descriptor belongs to it. -/
structure Empty (w : World) : Prop where
  isDir : IsDir w.fs newRoot
  below : ∀ l, newRoot <+: l → l ≠ newRoot → w.fs l = none
  fds : ∀ fd l, w.fds fd = some l → ¬ newRoot <+: l

/-- A fresh `tmpfs`. -/
theorem Initial.tmpfs {w : World} (h : Initial w) {sub : FS} (hdir : IsDir sub [])
    (hsub : ∀ m ≠ [], sub m = none) : Empty (mounted w newRoot sub) := by
  have hin : ∀ x, (mounted w newRoot sub).fs (newRoot ++ x) = sub x := fun x => by
    rw [mounted]
    dsimp only
    rw [if_pos (List.prefix_append ..), List.drop_left]
  refine ⟨?_, ?_, h.fds⟩
  · obtain ⟨perm, hd⟩ := hdir
    exact ⟨perm, (hin []).trans hd⟩
  · rintro l ⟨x, rfl⟩ hne
    rw [hin]
    exact hsub x fun hx => hne (by rw [hx, List.append_nil])

/-- It can be entered by its name, and then `.` leads to it. -/
theorem Empty.leadsTo {w : World} (h : Empty w) {l : Loc}
    (hl : w.find (ascii "/newroot") = some l) :
    l = newRoot ∧ LeadsTo { w with cwd := l } (ascii ".") newRoot := by
  obtain ⟨perm, hdir⟩ := h.isDir
  obtain rfl : l = newRoot := find_top (n := ascii "newroot") (by decide)
    (fun t ht => absurd (hdir.symm.trans ht) (by simp)) hl
  refine ⟨rfl, by decide, ⟨maxLinks, ?_⟩, h.isDir⟩
  show resolve w.fs maxLinks newRoot [dot] = some (maxLinks, newRoot)
  rw [resolve_stay h.isDir (Or.inr rfl), resolve_nil]

/-- The process is in the new root, and there is no `oldroot` in it. -/
structure Without (w : World) : Prop where
  cwd : w.cwd = newRoot
  fs : w.fs oldRoot = none

namespace Without

variable {w w' : World}

/-- Nothing that `pivot_root` would take. -/
theorem not_isDir (h : Without w) {l : Loc} (hl : w.find (ascii "./oldroot") = some l) :
    ¬ IsDir w.fs l := by
  have hcomps : comps (ascii "./oldroot") = [dot, ascii "oldroot"] := by decide
  rw [World.find, if_neg (by decide), hcomps, start, if_neg (by decide), h.cwd,
    Option.map_eq_some_iff] at hl
  obtain ⟨⟨links, m⟩, hr, rfl⟩ := hl
  by_cases hd : IsDir w.fs newRoot
  · rw [resolve_stay hd (Or.inr rfl),
      resolve_missing hd (by decide) (by decide) (show w.fs (newRoot ++ [ascii "oldroot"]) = none
        from h.fs), if_pos rfl] at hr
    obtain rfl : oldRoot = m := (Prod.mk.inj (Option.some.inj hr)).2
    exact not_isDir_of_none h.fs
  · rw [resolve_of_not_isDir hd (by simp)] at hr
    exact absurd hr (by simp)

theorem write (h : Without w) {fd : ℤ} {b : Buf} {r : ℤ} (ha : Answers w (.write fd b) r w') :
    Without w' := by
  rcases ha.of_write with rfl | ⟨n, hw⟩
  · exact h
  · obtain ⟨l, -, rfl⟩ := Option.map_eq_some_iff.1 hw
    split
    next perm data hfile =>
      have hne : oldRoot ≠ l := by
        rintro rfl
        rw [h.fs] at hfile
        exact absurd hfile (by simp)
      exact ⟨h.cwd, (Function.update_of_ne hne ..).trans h.fs⟩
    · exact ⟨h.cwd, h.fs⟩
    · exact ⟨h.cwd, h.fs⟩

/-- **The directory that is made** is another one. -/
theorem mkdir (h : Without w) {mode : UInt32} {r : ℤ}
    (ha : Answers w (.mkdir (ascii "/oldroot") mode) r w') : Without w' := by
  rcases ha.of_mkdir with rfl | hw
  · exact h
  · obtain ⟨l, hv, rfl⟩ := Option.map_eq_some_iff.1 hw
    obtain ⟨front, n, links, d, hsplit, -, -, hd, -, -, rfl⟩ := World.exists_of_vacant hv
    have htrim : World.trimmed (ascii "/oldroot") = [[]] ++ [ascii "oldroot"] := by decide
    obtain ⟨rfl, hn⟩ := List.append_inj' (htrim.symm.trans hsplit) rfl
    have hup : d = [] := by
      rw [start, if_pos (by decide)] at hd
      by_cases hroot : IsDir w.fs []
      · rw [resolve_stay hroot (Or.inl rfl), resolve_nil] at hd
        exact (Prod.mk.inj (Option.some.inj hd)).2.symm
      · rw [resolve_of_not_isDir hroot (by simp)] at hd
        exact absurd hd (by simp)
    have hne : oldRoot ≠ d ++ [n] := by
      rw [hup]
      exact fun heq => absurd (congrArg List.length heq) (Nat.succ_ne_self 1)
    exact ⟨h.cwd, (Function.update_of_ne hne ..).trans h.fs⟩

end Without

/-- An entry that brings no `oldroot`: the path to it, its last name aside, stays in the new
root and meets no link of the entries `pre`, and neither it nor a directory on its way is
`oldroot`. -/
structure Avoids (pre : List Stop) (e : Stop) : Prop where
  way : ∀ cs, cs <+: comps e.name → (cs = comps e.name → Bootstrap.kind e.mode = .reg) →
    newRoot <+: follow newRoot cs ∧ ∀ e' ∈ pre, Bootstrap.kind e'.mode = .link →
      follow newRoot cs ≠ follow newRoot (comps e'.name)
  ne : ∀ cs, cs <+: comps e.name → follow newRoot cs ≠ oldRoot

instance (pre : List Stop) (e : Stop) : Decidable (Avoids pre e) :=
  decidable_of_iff
    ((∀ cs ∈ (comps e.name).inits, (cs = comps e.name → Bootstrap.kind e.mode = .reg) →
        newRoot <+: follow newRoot cs ∧ ∀ e' ∈ pre, Bootstrap.kind e'.mode = .link →
          follow newRoot cs ≠ follow newRoot (comps e'.name)) ∧
      ∀ cs ∈ (comps e.name).inits, follow newRoot cs ≠ oldRoot)
    ⟨fun ⟨h₁, h₂⟩ => ⟨fun cs hcs => h₁ cs ((List.mem_inits ..).2 hcs),
        fun cs hcs => h₂ cs ((List.mem_inits ..).2 hcs)⟩,
      fun ⟨h₁, h₂⟩ => ⟨fun cs hcs => h₁ cs ((List.mem_inits ..).1 hcs),
        fun cs hcs => h₂ cs ((List.mem_inits ..).1 hcs)⟩⟩

/-- An archive no entry of which brings one. -/
def NoOldRoot (d : Buf) : Prop :=
  ∀ pre e post, (walk 0 d).1 = pre ++ e :: post → Avoids pre e

/-- The links that stand in the new root when the entries `pre` have been extracted.  Devices may
stand anywhere. -/
def LinkOf (pre : List Stop) (l : Loc) : Target → Prop
  | .path _ => ∃ e ∈ pre, Bootstrap.kind e.mode = .link ∧ l = follow newRoot (comps e.name)
  | .device _ => True

/-- **An entry that brings no `oldroot`** may be unpacked. -/
theorem Avoids.admitted {pre : List Stop} {e : Stop} (h : Avoids pre e) :
    e.Admitted (· ≠ .loc oldRoot) (LinkOf pre) (LinkOf (pre ++ [e])) newRoot := by
  have hne : ∀ cs, cs <+: comps e.name → Place.loc (follow newRoot cs) ≠ .loc oldRoot :=
    fun cs hcs heq => h.ne cs hcs (Place.loc.inj heq)
  refine Stop.admitted_of_direct (fun l x hx => ?_) (fun cs hcs hwhole => ?_)
    (fun front n rest hsplit hn hup => ?_) (fun _ => ⟨hne _ List.prefix_rfl, fun _ _ => nofun⟩)
    (fun hkind _ => ⟨e, List.mem_append_right pre (List.mem_singleton_self e), hkind, rfl⟩)
    fun _ _ => trivial
  · cases x with
    | path t =>
      obtain ⟨e', he', h'⟩ := hx
      exact ⟨e', List.mem_append_left _ he', h'⟩
    | device x => trivial
  · refine ⟨(h.way cs hcs hwhole).1, fun _ hlink => ?_⟩
    obtain ⟨e', he', hkind, heq⟩ := hlink
    exact (h.way cs hcs hwhole).2 e' he' hkind heq
  · have hpre : front ++ [n] <+: comps e.name := by
      rw [hsplit]
      exact ⟨rest, List.append_assoc front [n] rest⟩
    rw [← follow_name (follow newRoot front) hn hup, ← follow_append]
    exact hne _ hpre

/-- **Unpacking it** brings none, whatever the kernel does not do. -/
theorem NoOldRoot.unpacked {d : Buf} (h : NoOldRoot d) {σ : Type}
    {kernel : σ → Bootstrap.Call → ℤ × σ} {view : σ → World} (hk : Bootstrap.Obeys kernel view)
    {s : σ} {w : World} (hw : Empty w) {l : Loc} (hl : w.find (ascii "/newroot") = some l)
    (hs : view s = { w with cwd := l }) (logfd : ℤ) :
    Without (view ((unpackCpio logfd d (ascii ".")).exec kernel s).state) := by
  obtain ⟨rfl, hleads⟩ := hw.leadsTo hl
  rw [← hs] at hleads
  have hfs : (view s).fs = w.fs := by rw [hs]
  have hwithin : Within (· ≠ .loc oldRoot) (view s)
      (view ((unpackCpio logfd d (ascii ".")).exec kernel s).state) := by
    refine Bootstrap.unpackCpio_confined hk hleads (by decide) (L := LinkOf)
      (fun m o hm ho x hx => ?_) (fun pre e post hsplit => (h pre e post hsplit).admitted) ?_
    · -- nothing is there but the new root itself
      rw [hfs] at ho
      rcases eq_or_ne m newRoot with rfl | hne
      · obtain ⟨perm, hdir⟩ := hw.isDir
        obtain rfl := Option.some.inj (hdir.symm.trans ho)
        exact absurd hx (by simp [Object.leads])
      · exact absurd ((hw.below m hm hne).symm.trans ho) (by simp)
    · rintro p ⟨-, m, hm, hp⟩ rfl
      rcases hp with heq | ⟨-, x, heq⟩
      · rw [hs] at hm
        exact hw.fds logfd m hm (Place.loc.inj heq ▸ by decide)
      · exact absurd heq (by simp)
  refine ⟨hwithin.cwd.trans (by rw [hs]), (hwithin.fs oldRoot (not_not.2 rfl)).trans ?_⟩
  rw [hfs]
  exact hw.below oldRoot (by decide) (by decide)

/-! ### Runs that do not boot -/

section Unbooted

variable {σ : Type} {kernel : σ → Call → Reply × σ} {view : σ → World} {s : σ} {I : World → Prop}

/-- The run of `p` from `s` does not end in TWRP's init. -/
def Unbooted (kernel : σ → Call → Reply × σ) (p : Sys Unit) (s : σ) : Prop :=
  (runOf kernel s p).result ≠ some (.stopped (init Full.envp))

/-- A call other than the start of TWRP's init, in front of a run that does not boot. -/
theorem Unbooted.call {c : Call} {k : Reply → Sys Unit} (hc : c ≠ init Full.envp)
    (h : Unbooted kernel (k (kernel s c).1) (kernel s c).2) : Unbooted kernel (.call c k) s := by
  show (Prog.exec kernel (if stops c (kernel s c).1 then Prog.ret (.stopped c)
    else (k (kernel s c).1).upTo stops) (kernel s c).2).result ≠ _
  split_ifs
  · exact fun heq => hc (Outcome.stopped.inj (Option.some.inj heq))
  · exact h

/-- Whether a call executes a program. -/
def executes : Bootstrap.Call → Bool
  | .execve .. => true
  | _ => false

/-- Only `execve` starts TWRP's init. -/
theorem ne_init {c : Bootstrap.Call} (hc : executes c = false) : Call.sys c ≠ init Full.envp :=
  fun heq => by
    rw [Call.sys.inj heq] at hc
    exact absurd hc.symm Bool.false_ne_true

/-- The same of a call of which only the result is used. -/
theorem Unbooted.sys {c : Bootstrap.Call} {f : ℤ → Sys Unit} (hc : executes c = false)
    (h : Unbooted kernel (f (kernel s (.sys c)).1.ret) (kernel s (.sys c)).2) :
    Unbooted kernel (Boot.sys c >>= f) s :=
  .call (ne_init hc) h

/-- The calls that change or keep the tree are no `execve`. -/
theorem not_executes {c : Bootstrap.Call} (hc : fills c ∨ keepsTree c) : executes c = false := by
  cases c with
  | execve => exact absurd hc (by simp [fills, keepsTree])
  | _ => rfl

/-- **A part that fills a directory** leaves what it leaves on a kernel for such parts. -/
theorem Unbooted.lift {α : Type} {p : Bootstrap.Sys α} {g : α → Sys Unit}
    (hp : p.wp fun t _ => ∀ x ∈ t, fills x.1)
    (h : ∀ a, Unbooted kernel (g a)
      (p.exec (fun s c => ((kernel s (.sys c)).1.ret, (kernel s (.sys c)).2)) s).state) :
    Unbooted kernel (lift p >>= g) s := by
  have hreturns : ∀ c : Bootstrap.Call, fills c → ∀ r, stops (.sys c) r = false := fun c hc r => by
    cases c <;> first | rfl | exact absurd hc Bool.false_ne_true
  have hstop : (Boot.lift p).wp fun t _ => ∀ x ∈ t, stops x.1 x.2 = false :=
    (hp.via Call.sys Reply.ret).mono fun t _ ⟨u, hu, hcalls, _⟩ x hx => by
      obtain ⟨y, hy, hxy⟩ := List.mem_map.1 (hcalls ▸ List.mem_map_of_mem hx)
      exact hxy ▸ hreturns y.1 (hu y hy) x.2
  have hstate : ((Boot.lift p).exec kernel s).state = _ :=
    (Prog.exec_via (f := Call.sys) (g := Reply.ret) kernel p s).2
  have hrun : runOf kernel s (Boot.lift p >>= g) = _ := Prog.exec_upTo_bind kernel stops _ g s
  rw [Prog.upTo_of_wp hstop, Prog.exec_bind] at hrun
  rw [Unbooted, hrun]
  cases ((Boot.lift p).exec kernel s).result with
  | none => nofun
  | some a =>
    have ha := h a
    rw [← hstate] at ha
    exact ha

variable (hk : Posix kernel view)

include hk

/-- What the kernel is for such a part. -/
theorem obeys : Bootstrap.Obeys (fun s c => ((kernel s (.sys c)).1.ret, (kernel s (.sys c)).2))
    view :=
  hk.fills

/-- A line in the log. -/
theorem Unbooted.log {logfd : ℤ} {msg : String} {g : Unit → Sys Unit}
    (hwrite : ∀ w w' fd b r, I w → Answers w (.write fd b) r w' → I w') (hI : I (view s))
    (h : ∀ s', I (view s') → Unbooted kernel (g ()) s') :
    Unbooted kernel (L logfd msg >>= g) s := by
  have hcalls : (Bootstrap.L logfd msg).wp fun t _ => ∀ x ∈ t, fills x.1 := by
    unfold Bootstrap.L
    split_ifs
    · exact fun _ _ => List.forall_mem_cons.2 ⟨rfl, List.forall_mem_singleton.2 rfl⟩
    · exact fun x hx => absurd hx List.not_mem_nil
  refine .lift hcalls fun _ => h _ ?_
  unfold Bootstrap.L
  split_ifs
  · have hwritten := hwrite _ _ _ _ _ hI (hk.fills s (.write logfd (ascii msg)) rfl)
    rwa [← (hk.fills _ (.fsync logfd) rfl).of_fsync] at hwritten
  · exact hI

/-- Who switches off does not boot. -/
theorem Unbooted.powerOff {g : Unit → Sys Unit} : Unbooted kernel (doPoweroff >>= g) s := by
  have hstop : stops (.sys (.reboot Boot.powerOff)) (kernel s (.sys (.reboot Boot.powerOff))).1 :=
    decide_eq_true (show 0 ≤ _ from hk.pid1 s (.sys (.reboot Boot.powerOff)))
  show (Prog.exec kernel (if stops _ _ then _ else _) _).result ≠ _
  rw [if_pos hstop]
  nofun

/-- A check that fails ends the run. -/
theorem Unbooted.failIf {logfd : ℤ} {failed : Prop} [Decidable failed] {msg : String}
    {g : Unit → Sys Unit} (h : ¬ failed → Unbooted kernel (g ()) s) :
    Unbooted kernel (failIf logfd failed msg >>= g) s := by
  unfold Boot.failIf
  split_ifs with hfailed
  · rw [Prog.bind_assoc]
    exact .log hk (I := fun _ => True) (fun _ _ _ _ _ h _ => h) trivial fun _ _ => .powerOff hk
  · exact h hfailed

/-- A call of `bootstrap.c` that fills a directory. -/
theorem Unbooted.fill {c : Bootstrap.Call} {f : ℤ → Sys Unit} (hc : fills c)
    (hI : ∀ r w, Answers (view s) c r w → I w)
    (h : ∀ r s', I (view s') → Unbooted kernel (f r) s') :
    Unbooted kernel (Boot.sys c >>= f) s :=
  .sys (not_executes (.inl hc)) (h _ _ (hI _ _ (hk.fills s c hc)))

/-- A call that leaves the tree as it is. -/
theorem Unbooted.keep {c : Bootstrap.Call} {f : ℤ → Sys Unit} (hc : keepsTree c)
    (hI : I (view s)) (h : ∀ r s', I (view s') → Unbooted kernel (f r) s') :
    Unbooted kernel (Boot.sys c >>= f) s := by
  refine .sys (not_executes (.inr hc)) (h _ _ ?_)
  rwa [hk.keeps s c hc]

/-- A mount before the new root is there. -/
theorem Unbooted.mount {source target fstype data : String} {f : ℤ → Sys Unit}
    (htarget : ascii target ∈ tops.map (slash :: ·)) (hI : Initial (view s))
    (h : ∀ r s', Initial (view s') → Unbooted kernel (f r) s') :
    Unbooted kernel (Boot.mount source target fstype data >>= f) s := by
  obtain ⟨n, hn, htarget⟩ := List.mem_map.1 htarget
  refine .sys rfl (h _ _ ?_)
  rcases hk.mount s (ascii source) (ascii target) (ascii fstype) (ascii data) with
    ⟨-, hsame⟩ | ⟨-, l, sub, hl, hview, hdir, -⟩
  · rwa [hsame]
  · rw [← htarget] at hl
    rw [hview, find_top hn (hI.noLink n hn) hl]
    exact hI.mount hdir

/-- The log partition is mounted, at its first node or its second. -/
theorem mountLog_unbooted {g : Unit → Sys Unit} (hI : Initial (view s))
    (h : ∀ s', Initial (view s') → Unbooted kernel (g ()) s') :
    Unbooted kernel (Full.mountLog >>= g) s := by
  unfold Full.mountLog
  simp only [Prog.bind_assoc]
  refine .fill hk rfl (fun _ _ => hI.mkdir) fun _ s₁ hI => ?_
  refine .mount hk (by decide) hI fun m s₂ hI => ?_
  split_ifs
  · exact .mount hk (by decide) hI fun _ => h
  · exact h s₂ hI

/-- The partition is opened, at its first node or its second. -/
theorem openVendorBoot_unbooted {f : ℤ → Sys Unit} (hI : I (view s))
    (h : ∀ r s', I (view s') → Unbooted kernel (f r) s') :
    Unbooted kernel (openVendorBoot >>= f) s := by
  unfold openVendorBoot
  rw [Prog.bind_assoc]
  refine .keep hk rfl hI fun fd s₁ hI => ?_
  split_ifs
  · exact .keep hk rfl hI h
  · exact h fd s₁ hI

/-- **Behind the archive** the root is not changed. -/
theorem handOver_unbooted {logfd : ℤ} (hI : Without (view s)) :
    Unbooted kernel (Full.handOver logfd) s := by
  unfold Full.handOver
  refine .keep hk rfl hI fun _ s₁ hI => .keep hk rfl hI fun _ s₂ hI => .keep hk rfl hI
    fun _ s₃ hI => ?_
  refine .fill hk rfl (fun _ _ => hI.mkdir) fun _ s₄ hI => .sys rfl (.failIf hk fun hp => ?_)
  obtain ⟨l, hl, hdir⟩ := hk.pivotRoot s₄ _ _ (not_not.1 hp)
  exact absurd hdir (hI.not_isDir hl)

/-- **From the empty new root on.** -/
theorem unpack_unbooted {d : Buf} (hd : NoOldRoot d) {logfd : ℤ} {g : Unit → Sys Unit} {l : Loc}
    {w : World} (hw : Empty w) (hl : w.find (ascii "/newroot") = some l)
    (hs : view s = { w with cwd := l })
    (h : ∀ s', Without (view s') → Unbooted kernel (g ()) s') :
    Unbooted kernel (Full.unpack logfd d >>= g) s := by
  unfold Full.unpack
  rw [Prog.bind_assoc]
  refine .lift ((unpackCpio_fills logfd d (ascii ".")).mono fun _ _ h => h.2) fun rc => ?_
  by_cases hrc : rc = 0
  · rw [if_neg (not_not.2 hrc)]
    exact h _ (hd.unpacked (obeys hk) hw hl hs logfd)
  · rw [if_pos hrc]
    exact .powerOff hk

end Unbooted

/-- An empty directory. -/
def emptyDir : FS := fun m => if m = [] then some (.dir 0o777) else none

/-- A kernel with a file system, which does no more than it has to, mounts empty directories,
has no log and reads `image` from the partition. -/
def obedient (image : Buf) (w : World) : Call → Reply × World
  | .sys (.mount _ target _ _) =>
    match w.find target with
    | some l => (⟨0, [], 0⟩, mounted w l emptyDir)
    | none => (⟨-1, [], 0⟩, w)
  | .sys (.chdir path) =>
    match w.find path with
    | some l => (⟨0, [], 0⟩, { w with cwd := l })
    | none => (⟨-1, [], 0⟩, w)
  | .sys (.pivotRoot _ old) =>
    match w.find old with
    | some l => (⟨if IsDir w.fs l then 0 else -1, [], 0⟩, w)
    | none => (⟨-1, [], 0⟩, w)
  | .sys (.openFile path flags mode) =>
    if flags = [.rdonly] then (⟨0, [], 0⟩, w)
    else
      let r := Bootstrap.grudging w (.openFile path flags mode)
      (⟨r.1, [], 0⟩, r.2)
  | .sys (.read ..) => (⟨image.length, image, 0⟩, w)
  | .sys (.malloc _) => (⟨1, [], 0⟩, w)
  | .sys c => (⟨(Bootstrap.grudging w c).1, [], 0⟩, (Bootstrap.grudging w c).2)
  | .fork => (⟨1, [], 0⟩, w)
  | _ => (⟨0, [], 0⟩, w)

/-- It keeps a file system as POSIX has it. -/
theorem obedient_posix (image : Buf) : Posix (obedient image) id where
  pid1 := fun s c => by
    cases c with
    | sys c => cases c <;> first | trivial | exact le_rfl
    | fork => exact one_ne_zero
    | waitpid | exit => trivial
  fills := fun w c hc => by
    have hobeys := Bootstrap.grudging_obeys w c hc
    cases c with
    | openFile path flags mode =>
      obtain rfl : flags = Bootstrap.createFlags := of_decide_eq_true hc
      exact hobeys
    | mkdir | symlink | mknod | write | close | chmod | fsync => exact hobeys
    | _ => exact absurd hc Bool.false_ne_true
  keeps := fun w c hc => by
    cases c with
    | openFile path flags mode =>
      obtain rfl : flags = [.rdonly] := of_decide_eq_true hc
      rfl
    | lseek | read | malloc | mountMove => rfl
    | _ => exact absurd hc Bool.false_ne_true
  mount := fun w source target fstype data => by
    dsimp only [obedient, id]
    cases w.find target with
    | none => exact Or.inl ⟨(by decide : (-1 : ℤ) ≠ 0), rfl⟩
    | some l => exact Or.inr ⟨rfl, l, emptyDir, rfl, rfl, ⟨_, rfl⟩, fun _ m hm => if_neg hm⟩
  openLog := fun w mode => ⟨Within.refl _ _, fun fd l hl => Or.inl hl⟩
  chdir := fun w path => by
    dsimp only [obedient, id]
    cases w.find path with
    | none => exact Or.inl ⟨(by decide : (-1 : ℤ) ≠ 0), rfl⟩
    | some l => exact Or.inr ⟨rfl, l, rfl, rfl⟩
  pivotRoot := fun w new old => by
    dsimp only [obedient, id]
    cases w.find old with
    | none => exact fun h => absurd h (by decide : (-1 : ℤ) ≠ 0)
    | some l =>
      intro (h : (if IsDir w.fs l then (0 : ℤ) else -1) = 0)
      refine ⟨l, rfl, ?_⟩
      by_contra hdir
      rw [if_neg hdir] at h
      exact absurd h (by decide)

end Boot
end Twrp

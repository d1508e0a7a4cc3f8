/-
# Parents first

The kernel makes the entries of an archive one after the other, so a directory has to stand
in front of everything in it.  `pack_dir` sees to it with a sort by the number of slashes:
a path has more of them than any directory that it leads through, whatever the tree and
the order of the walk (`parents_first`).

A device may have a path with empty names, `.` and `..` in it: `place` says where such a path
leads, and that is never deeper than the path is long.
-/

import Twrp.Cpio.Emitted
import Twrp.Cpio.Faithful

namespace Twrp
namespace Cpio

open Bytes Sorting

/-! ### Paths -/

/-- The names between the slashes of a path. -/
def components (p : String) : List String := (p.toList.splitOn '/').map String.ofList

/-- One name further: an empty name and `.` stay, `..` goes back. -/
def goto (here : List String) (n : String) : List String :=
  if n = "" ∨ n = "." then here else if n = ".." then here.dropLast else here ++ [n]

/-- Where names lead from the root. -/
def place (ns : List String) : List String := ns.foldl goto []

/-- The directories that a path leads through, the root among them. -/
def ancestors (p : String) : List (List String) := (components p).dropLast.inits.map place

example : ancestors "dev/block/sda" = [[], ["dev"], ["dev", "block"]] := by decide

/-- The path of a place, as `os.walk` spells it. -/
def pathOf (ns : List String) : String := ns.foldl below "."

/-- A name of a file system. -/
structure IsName (n : String) : Prop where
  ne_empty : n ≠ ""
  ne_dot : n ≠ "."
  ne_dots : n ≠ ".."
  no_slash : '/' ∉ n.toList

instance (n : String) : Decidable (IsName n) :=
  decidable_of_iff (n ≠ "" ∧ n ≠ "." ∧ n ≠ ".." ∧ '/' ∉ n.toList)
    ⟨fun ⟨h1, h2, h3, h4⟩ => ⟨h1, h2, h3, h4⟩, fun h => ⟨h.1, h.2, h.3, h.4⟩⟩

namespace Tree

/-- All names of the tree are names of a file system. -/
def Named : Tree → Prop
  | empty => True
  | dir name _ inside rest => IsName name ∧ inside.Named ∧ rest.Named
  | file name _ _ rest => IsName name ∧ rest.Named
  | link name _ _ rest => IsName name ∧ rest.Named

/-- There is a directory at the place; no link is followed. -/
def hasDir : Tree → List String → Bool
  | empty, ns => ns.isEmpty
  | dir name _ inside rest, ns =>
    (ns.head? == some name && inside.hasDir ns.tail) || rest.hasDir ns
  | file _ _ _ rest, ns => rest.hasDir ns
  | link _ _ _ rest, ns => rest.hasDir ns

end Tree

/-! ### The number of slashes -/

theorem length_splitOn {α : Type} [BEq α] [LawfulBEq α] (a : α) (xs : List α) :
    (xs.splitOn a).length = xs.count a + 1 := by
  induction xs with
  | nil => rfl
  | cons x xs ih =>
    rw [List.splitOn_cons_eq_if_modifyHead, List.count_cons]
    split_ifs with h
    · rw [List.length_cons, ih]
    · rw [List.length_modifyHead, ih]

/-- A path has one name more than it has slashes. -/
theorem length_components (p : String) : (components p).length = p.toList.count '/' + 1 := by
  rw [components, List.length_map, length_splitOn]

/-- **A path leads nowhere deeper than it is long.** -/
theorem length_place_le (ns : List String) : (place ns).length ≤ ns.length := by
  have hfold (here : List String) : (ns.foldl goto here).length ≤ here.length + ns.length := by
    induction ns generalizing here with
    | nil => exact le_rfl
    | cons n ns ih =>
      have hgoto : (goto here n).length ≤ here.length + 1 := by
        unfold goto
        split_ifs
        · omega
        · rw [List.length_dropLast]
          omega
        · rw [List.length_append, List.length_singleton]
      have hrest := ih (goto here n)
      rw [List.foldl_cons, List.length_cons]
      omega
  have hroot := hfold []
  rwa [List.length_nil, Nat.zero_add] at hroot

theorem length_ancestor_le {p : String} {a : List String} (h : a ∈ ancestors p) :
    a.length ≤ p.toList.count '/' := by
  obtain ⟨pre, hpre, rfl⟩ := List.mem_map.1 h
  have hlen := ((List.mem_inits _ _).1 hpre).length_le
  rw [List.length_dropLast, length_components] at hlen
  have hplace := length_place_le pre
  omega

/-- Names of a file system lead where they say. -/
theorem place_of_isName {ns : List String} (h : ∀ n ∈ ns, IsName n) : place ns = ns := by
  have hfold (here : List String) : ns.foldl goto here = here ++ ns := by
    induction ns generalizing here with
    | nil => exact (List.append_nil _).symm
    | cons n ns ih =>
      obtain ⟨hn, hns⟩ := List.forall_mem_cons.1 h
      have hgoto : goto here n = here ++ [n] := by
        rw [goto, if_neg (not_or.2 ⟨hn.ne_empty, hn.ne_dot⟩), if_neg hn.ne_dots]
      rw [List.foldl_cons, hgoto, ih hns, List.append_assoc, List.singleton_append]
  exact hfold []

theorem toList_below {rel : String} (h : rel ≠ ".") (n : String) :
    (below rel n).toList = rel.toList ++ '/' :: n.toList := by
  rw [below, if_neg h, String.toList_append, String.toList_append, List.append_assoc]
  rfl

theorem toList_foldl_below (ns : List String) {rel : String} (h : rel ≠ ".") :
    (ns.foldl below rel).toList = rel.toList ++ ns.flatMap fun n => '/' :: n.toList := by
  induction ns generalizing rel with
  | nil => exact (List.append_nil _).symm
  | cons n ns ih =>
    have hne : below rel n ≠ "." := by
      intro heq
      have hmem : '/' ∈ (below rel n).toList := by
        rw [toList_below h]
        simp
      rw [heq] at hmem
      exact absurd hmem (by decide)
    rw [List.foldl_cons, ih hne, toList_below h, List.flatMap_cons, List.append_assoc]

theorem splitOn_names {x : List Char} (hx : '/' ∉ x) {ns : List String}
    (h : ∀ n ∈ ns, IsName n) :
    (x ++ ns.flatMap fun n => '/' :: n.toList).splitOn '/' = x :: ns.map String.toList := by
  induction ns generalizing x with
  | nil =>
    rw [List.flatMap_nil, List.append_nil, List.splitOn_eq_singleton hx]
    rfl
  | cons n ns ih =>
    obtain ⟨hn, hns⟩ := List.forall_mem_cons.1 h
    rw [List.flatMap_cons, List.cons_append, List.splitOn_append_cons_self_of_not_mem hx,
      ih hn.no_slash hns, List.map_cons]

/-- **The path of a place** spells its names. -/
theorem components_pathOf {ns : List String} (hne : ns ≠ []) (h : ∀ n ∈ ns, IsName n) :
    components (pathOf ns) = ns := by
  cases ns with
  | nil => exact absurd rfl hne
  | cons n ns =>
    obtain ⟨hn, hns⟩ := List.forall_mem_cons.1 h
    have hfirst : below "." n = n := if_pos rfl
    rw [components, pathOf, List.foldl_cons, hfirst, toList_foldl_below ns hn.ne_dot,
      splitOn_names hn.no_slash hns, List.map_cons, List.map_map, String.ofList_toList]
    exact congrArg (n :: ·) ((List.map_congr_left fun m _ => String.ofList_toList).trans
      (List.map_id ns))

/-! ### Directories of the tree -/

theorem hasDir_dir_iff {name : String} {perm : ℕ} {inside rest : Tree} {ns : List String} :
    (Tree.dir name perm inside rest).hasDir ns ↔
      (∃ ms, ns = name :: ms ∧ inside.hasDir ms) ∨ rest.hasDir ns := by
  rw [Tree.hasDir, Bool.or_eq_true, Bool.and_eq_true, beq_iff_eq]
  refine or_congr_left ⟨fun ⟨hhead, htail⟩ => ⟨ns.tail, ?_, htail⟩, ?_⟩
  · exact (List.cons_head?_tail hhead).symm
  · rintro ⟨ms, rfl, hms⟩
    exact ⟨rfl, hms⟩

/-- The root is a directory. -/
theorem hasDir_nil (t : Tree) : t.hasDir [] := by
  induction t with
  | empty => rfl
  | dir name perm inside rest _ ih => exact hasDir_dir_iff.2 (Or.inr ih)
  | file name perm data rest ih => exact ih
  | link name target toDir rest ih => exact ih

/-- Above a directory there are directories. -/
theorem hasDir_of_append {t : Tree} {ns ms : List String} (h : t.hasDir (ns ++ ms)) :
    t.hasDir ns := by
  induction t generalizing ns with
  | empty => exact List.isEmpty_iff.2 (List.append_eq_nil_iff.1 (List.isEmpty_iff.1 h)).1
  | dir name perm inside rest ihi ihr =>
    rcases hasDir_dir_iff.1 h with ⟨ks, hks, hin⟩ | hrest
    · rcases List.append_eq_cons_iff.1 hks with ⟨rfl, -⟩ | ⟨ls, rfl, rfl⟩
      · exact hasDir_nil _
      · exact hasDir_dir_iff.2 (Or.inl ⟨ls, rfl, ihi hin⟩)
    · exact hasDir_dir_iff.2 (Or.inr (ihr hrest))
  | file name perm data rest ih => exact ih h
  | link name target toDir rest ih => exact ih h

/-- A directory of the tree is one of its objects. -/
theorem mem_objects_of_hasDir {t : Tree} {ns : List String} (hne : ns ≠ []) (h : t.hasDir ns)
    (rel : String) : ∃ perm, ⟨ns.foldl below rel, .dir perm⟩ ∈ t.objects rel := by
  induction t generalizing ns rel with
  | empty => exact absurd (List.isEmpty_iff.1 h) hne
  | dir name perm inside rest ihi ihr =>
    rcases hasDir_dir_iff.1 h with ⟨ms, rfl, hin⟩ | hrest
    · rcases eq_or_ne ms [] with rfl | hms
      · exact ⟨perm, List.mem_cons_self⟩
      · obtain ⟨q, hq⟩ := ihi hms hin (below rel name)
        exact ⟨q, List.mem_cons_of_mem _ (List.mem_append_left _ hq)⟩
    · obtain ⟨q, hq⟩ := ihr hne hrest rel
      exact ⟨q, List.mem_cons_of_mem _ (List.mem_append_right _ hq)⟩
  | file name perm data rest ih =>
    obtain ⟨q, hq⟩ := ih hne h rel
    exact ⟨q, List.mem_cons_of_mem _ hq⟩
  | link name target toDir rest ih =>
    obtain ⟨q, hq⟩ := ih hne h rel
    exact ⟨q, List.mem_cons_of_mem _ hq⟩

/-- **Where an object of the tree is:** under a name of its own, in a directory. -/
theorem exists_names_of_mem_objects {t : Tree} (ht : t.Named) {rel : String} {o : Obj}
    (h : o ∈ t.objects rel) :
    ∃ ns n, (∀ m ∈ ns ++ [n], IsName m) ∧ o.path = (ns ++ [n]).foldl below rel ∧ t.hasDir ns := by
  induction t generalizing rel with
  | empty => exact absurd h List.not_mem_nil
  | dir name perm inside rest ihi ihr =>
    obtain ⟨hname, hinside, hrest⟩ := ht
    rcases List.mem_cons.1 h with rfl | h
    · exact ⟨[], name, List.forall_mem_singleton.2 hname, rfl, hasDir_nil _⟩
    rcases List.mem_append.1 h with h | h
    · obtain ⟨ns, n, hnames, hpath, hdir⟩ := ihi hinside h
      exact ⟨name :: ns, n, List.forall_mem_cons.2 ⟨hname, hnames⟩, hpath,
        hasDir_dir_iff.2 (Or.inl ⟨ns, rfl, hdir⟩)⟩
    · obtain ⟨ns, n, hnames, hpath, hdir⟩ := ihr hrest h
      exact ⟨ns, n, hnames, hpath, hasDir_dir_iff.2 (Or.inr hdir)⟩
  | file name perm data rest ih =>
    rcases List.mem_cons.1 h with rfl | h
    · exact ⟨[], name, List.forall_mem_singleton.2 ht.1, rfl, hasDir_nil _⟩
    · exact ih ht.2 h
  | link name target toDir rest ih =>
    rcases List.mem_cons.1 h with rfl | h
    · exact ⟨[], name, List.forall_mem_singleton.2 ht.1, rfl, hasDir_nil _⟩
    · exact ih ht.2 h

/-- **An object of the tree is in directories of the tree,** all the way up. -/
theorem hasDir_of_mem_objects {t : Tree} (ht : t.Named) {o : Obj} (ho : o ∈ t.objects ".")
    {a : List String} (ha : a ∈ ancestors o.path) : t.hasDir a := by
  obtain ⟨ns, n, hnames, hpath, hdir⟩ := exists_names_of_mem_objects ht ho
  obtain ⟨pre, hpre, rfl⟩ := List.mem_map.1 ha
  have hcomp : components o.path = ns ++ [n] := by
    rw [hpath]
    exact components_pathOf (List.append_ne_nil_of_right_ne_nil _ (List.cons_ne_nil _ _)) hnames
  rw [hcomp, List.dropLast_concat] at hpre
  obtain ⟨post, rfl⟩ := (List.mem_inits _ _).1 hpre
  rw [place_of_isName fun m hm =>
    hnames m (List.mem_append_left _ (List.mem_append_left _ hm))]
  exact hasDir_of_append hdir

/-- A directory of the tree has names of a file system. -/
theorem isName_of_hasDir {t : Tree} (ht : t.Named) {ns : List String} (h : t.hasDir ns) :
    ∀ n ∈ ns, IsName n := by
  induction t generalizing ns with
  | empty =>
    rw [List.isEmpty_iff.1 h]
    exact fun n hn => absurd hn List.not_mem_nil
  | dir name perm inside rest ihi ihr =>
    obtain ⟨hname, hinside, hrest⟩ := ht
    rcases hasDir_dir_iff.1 h with ⟨ms, rfl, hin⟩ | h
    · exact List.forall_mem_cons.2 ⟨hname, ihi hinside hin⟩
    · exact ihr hrest h
  | file name perm data rest ih => exact ih ht.2 h
  | link name target toDir rest ih => exact ih ht.2 h

/-! ### The order of the archive -/

/-- **A directory sorts in front of everything that is reached through it.** -/
theorem pathKey_pathOf_lt {t : Tree} (ht : t.Named) {p : String} {a : List String}
    (ha : a ∈ ancestors p) (hne : a ≠ []) (hdir : t.hasDir a) : pathKey (pathOf a) < pathKey p := by
  have hcount := length_components (pathOf a)
  rw [components_pathOf hne (isName_of_hasDir ht hdir)] at hcount
  have hle := length_ancestor_le ha
  exact Prod.Lex.toLex_lt_toLex.2 (Or.inl (show List.count _ _ < List.count _ _ by omega))

/-- **The entries are read in their order,** if what is packed fits the format. -/
theorem readAll_emitted {t : Tree} {devs : List Device} {c : ℕ}
    (hfits : ∀ o ∈ objects t devs, IsAscii o.path ∧ o.packed.Encodable)
    (hc : c + (objects t devs).length < 2 ^ 32) :
    ∃ rs, readAll ((emitted t devs c).map fun _ => .standard) (packDir t devs c).1 =
        some (rs, Pack.trailerBody (c + (objects t devs).length)) ∧
      List.Forall₂ (fun x r => Matches x.item r) (emitted t devs c) rs := by
  have hobj : ∀ x ∈ emitted t devs c, IsAscii x.item.name ∧ x.item.Encodable := by
    intro x hx
    obtain ⟨o, ho, hnamed⟩ := exists_object t devs c hx
    obtain ⟨-, hitem⟩ := Prod.mk.inj hnamed
    obtain ⟨ha, henc⟩ := hfits o ho
    rw [hitem]
    exact ⟨isAscii_packed ha, henc⟩
  have hwritten : List.Forall₂ (Written .standard) ((emitted t devs c).map Call.item)
      ((emitted t devs c).map Call.blob) := by
    rw [List.forall₂_map_left_iff, List.forall₂_map_right_iff, List.forall₂_same]
    intro x hx
    obtain ⟨-, hlt⟩ := ino_mem_emitted hx
    exact Pack.written_entryBody (hobj x hx).2 (by omega)
  obtain ⟨rs, hread, hmatch⟩ := readsBack_of_isAscii hwritten
    (List.forall_mem_map.2 fun x hx => (hobj x hx).1)
    (Pack.trailerBody (c + (objects t devs).length))
  rw [List.map_map, ← List.flatMap_def, ← packDir_emitted] at hread
  exact ⟨rs, hread, List.forall₂_map_left_iff.1 hmatch⟩

/-- Every entry stands behind the directory entries of all directories that its path leads
through. -/
theorem ancestor_before {t : Tree} (ht : t.Named) {devs : List Device}
    (hdevs : ∀ v ∈ devs, ∀ a ∈ ancestors v.path, t.hasDir a) {c : ℕ} {before after : List Call}
    {x : Call} (hsplit : emitted t devs c = before ++ x :: after) {a : List String}
    (ha : a ∈ ancestors x.path) (hne : a ≠ []) :
    ∃ y ∈ before, ∃ perm, y.named = (pathOf a, dirItem (pathOf a) (dirMode perm)) := by
  have hdir : t.hasDir a := by
    have hx : x ∈ emitted t devs c := by
      rw [hsplit]
      exact List.mem_append_right _ List.mem_cons_self
    obtain ⟨o, ho, hnamed⟩ := exists_object t devs c hx
    obtain ⟨hpath, -⟩ := Prod.mk.inj hnamed
    rw [hpath] at ha
    rcases List.mem_append.1 ho with ho | ho
    · obtain ⟨v, hv, rfl⟩ := List.mem_map.1 ho
      exact hdevs v hv a ha
    · exact hasDir_of_mem_objects ht ho ha
  -- the directory has an entry, and it sorts in front of `x`
  obtain ⟨perm, hobj⟩ := mem_objects_of_hasDir hne hdir "."
  obtain ⟨y, hy, hnamed⟩ := exists_emitted t devs c (List.mem_append_right _ hobj)
  have hsorted := pairwise_emitted t devs c
  rw [hsplit] at hy hsorted
  refine ⟨y, mem_before_of_lt hsorted hy ?_, perm, hnamed⟩
  obtain ⟨hpath, -⟩ := Prod.mk.inj hnamed
  rw [Call.key, hpath]
  exact pathKey_pathOf_lt ht ha hne hdir

/-- **Parents first.**  In the archive every entry, that of a device too, stands behind the
directory entries of all directories that its path leads through; and if what is packed fits the
format, it is so of the entries that are read from the bytes. -/
theorem parents_first (t : Tree)
    -- `os.walk` lists no other names
    (ht : t.Named) (devs : List Device)
    -- a device may be anywhere below the root, but not outside the directories of the tree
    (hdevs : ∀ v ∈ devs, ∀ a ∈ ancestors v.path, t.hasDir a) (c : ℕ) :
    (packDir t devs c).1 = (emitted t devs c).flatMap Call.blob ++
        Pack.trailerBody (c + (objects t devs).length) ∧
      (∀ before x after, emitted t devs c = before ++ x :: after →
        ∀ a ∈ ancestors x.path, a ≠ [] →
          ∃ y ∈ before, ∃ perm, y.named = (pathOf a, dirItem (pathOf a) (dirMode perm))) ∧
      ((∀ o ∈ objects t devs, IsAscii o.path ∧ o.packed.Encodable) →
        c + (objects t devs).length < 2 ^ 32 →
        ∃ rs, readAll ((emitted t devs c).map fun _ => .standard) (packDir t devs c).1 =
            some (rs, Pack.trailerBody (c + (objects t devs).length)) ∧
          List.Forall₂ (fun x r => Matches x.item r) (emitted t devs c) rs ∧
          ∀ before r after, rs = before ++ r :: after →
            ∃ x ∈ emitted t devs c, Matches x.item r ∧ ∀ a ∈ ancestors x.path, a ≠ [] →
              ∃ d ∈ before, ∃ perm, Matches (dirItem (pathOf a) (dirMode perm)) d) := by
  refine ⟨packDir_emitted t devs c, fun _ _ _ hsplit _ => ancestor_before ht hdevs hsplit,
    fun hfits hc => ?_⟩
  obtain ⟨rs, hread, hmatch⟩ := readAll_emitted hfits hc
  refine ⟨rs, hread, hmatch, ?_⟩
  rintro before r after rfl
  -- the calls are split where the records are
  have hfront := List.forall₂_take_append _ _ _ hmatch
  have hback := List.forall₂_drop_append _ _ _ hmatch
  obtain ⟨x, post, hx, -, hdrop⟩ := List.forall₂_cons_right_iff.1 hback
  have hsplit := (List.take_append_drop before.length (emitted t devs c)).symm
  rw [hdrop] at hsplit
  refine ⟨x, hsplit ▸ List.mem_append_right _ List.mem_cons_self, hx, fun a ha hne => ?_⟩
  obtain ⟨y, hy, perm, hnamed⟩ := ancestor_before ht hdevs hsplit ha hne
  obtain ⟨-, hitem⟩ := Prod.mk.inj hnamed
  obtain ⟨d, hd, hyd⟩ := forall_mem_of_forall₂ hfront.flip (fun _ hd => hd)
    (fun d y hd hyd => (⟨d, hd, hyd⟩ : ∃ d ∈ before, Matches y.item d)) y hy
  exact ⟨d, hd, perm, hitem ▸ hyd⟩

/-- The hypotheses are satisfiable: the null device, in a directory for devices. -/
theorem parents_first_devTree :
    (∃ y ∈ [(⟨"dev", dirItem "dev" (dirMode 0o755), 300001⟩ : Call)],
      ∃ perm, y.named = (pathOf ["dev"], dirItem (pathOf ["dev"]) (dirMode perm))) ∧
      ∃ rs, readAll [.standard, .standard] (packDir devTree [devNull] Pack.firstIno).1 =
          some (rs, Pack.trailerBody 300002) ∧
        ∀ before r after, rs = before ++ r :: after →
          ∃ x ∈ emitted devTree [devNull] Pack.firstIno, Matches x.item r ∧
            ∀ a ∈ ancestors x.path, a ≠ [] →
              ∃ d ∈ before, ∃ perm, Matches (dirItem (pathOf a) (dirMode perm)) d := by
  obtain ⟨-, hcalls, hrecords⟩ := parents_first devTree ⟨by decide, trivial, trivial⟩ [devNull]
    (by decide) Pack.firstIno
  obtain ⟨rs, hread, -, hfirst⟩ := hrecords (by decide) (by decide)
  exact ⟨hcalls [⟨"dev", dirItem "dev" (dirMode 0o755), 300001⟩]
    ⟨"dev/null", devNull.item, 300000⟩ [] (by decide) ["dev"] (by decide) (by decide),
    rs, hread, hfirst⟩

end Cpio
end Twrp

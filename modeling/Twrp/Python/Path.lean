/-
# `os.path` on POSIX

`join`, `basename` and `dirname` on strings of characters.  A path is not parsed: all
three look at slashes only, so `join` of a relative path to a directory `.` gives
another string than the relative path, though both name the same file.
-/

import Mathlib.Data.List.DropRight
import Mathlib.Data.List.Infix
import Mathlib.Data.Nat.Notation

namespace Python

/-- `os.path.join(a, b)`. -/
def join (a b : List Char) : List Char :=
  if ['/'] <+: b then b
  else if a = [] ∨ ['/'] <:+ a then a ++ b
  else a ++ '/' :: b

/-- `os.path.basename(p)`. -/
def basename (p : List Char) : List Char := p.rtakeWhile (· ≠ '/')

/-- `os.path.dirname(p)`. -/
def dirname (p : List Char) : List Char :=
  let head := p.rdropWhile (· ≠ '/')
  if head.all (· = '/') then head else head.rdropWhile (· = '/')

/-! ### Joining a name to a directory -/

theorem not_startsWith_slash {b : List Char} (h : '/' ∉ b) : ¬ ['/'] <+: b := fun hp =>
  h (hp.subset (List.mem_singleton_self _))

/-- Behind a directory without a slash at its end. -/
theorem join_of_not_suffix {a b : List Char} (hb : '/' ∉ b) (hne : a ≠ []) (ha : ¬ ['/'] <:+ a) :
    join a b = a ++ '/' :: b := by
  rw [join, if_neg (not_startsWith_slash hb), if_neg (not_or.2 ⟨hne, ha⟩)]

/-- A slash stands in front of the name, unless there is no directory. -/
theorem exists_join_eq {a b : List Char} (hb : '/' ∉ b) (hne : a ≠ []) :
    ∃ c, join a b = c ++ '/' :: b := by
  by_cases ha : ['/'] <:+ a
  · obtain ⟨c, rfl⟩ := ha
    refine ⟨c, ?_⟩
    rw [join, if_neg (not_startsWith_slash hb), if_pos (.inr (List.suffix_append ..)),
      List.append_assoc, List.singleton_append]
  · exact ⟨a, join_of_not_suffix hb hne ha⟩

/-- What stands in front of a relative path is the same for all of them. -/
theorem exists_join_eq_append (a : List Char) :
    ∃ c, ∀ b, ¬ ['/'] <+: b → join a b = c ++ b := by
  by_cases ha : a = [] ∨ ['/'] <:+ a
  · refine ⟨a, fun b hb => ?_⟩
    rw [join, if_neg hb, if_pos ha]
  · refine ⟨a ++ ['/'], fun b hb => ?_⟩
    rw [join, if_neg hb, if_neg ha, List.append_assoc, List.singleton_append]

/-- A path that ends in a name does not end in a slash. -/
theorem not_endsWith_slash {a b : List Char} (hb : '/' ∉ b) (hne : b ≠ []) :
    ¬ ['/'] <:+ a ++ b := by
  rintro ⟨c, hc⟩
  have hlast : (c ++ ['/']).getLast? = (a ++ b).getLast? := congrArg List.getLast? hc
  rw [List.getLast?_concat, List.getLast?_append_of_ne_nil _ hne] at hlast
  exact hb (List.mem_of_getLast? hlast.symm)

/-- Names that follow one another are separated by single slashes. -/
theorem join_append {c a b : List Char} (ha : '/' ∉ a) (hne : a ≠ []) (hb : '/' ∉ b) :
    join (c ++ '/' :: a) b = c ++ '/' :: a ++ '/' :: b := by
  refine join_of_not_suffix hb (by simp) ?_
  rw [List.append_cons]
  exact not_endsWith_slash ha hne

theorem basename_append {a b : List Char} (hb : '/' ∉ b) : basename (a ++ '/' :: b) = b := by
  have hall : ∀ c ∈ b.reverse, decide (c ≠ '/') = true := fun c hc =>
    decide_eq_true fun he => hb (he ▸ List.mem_reverse.1 hc)
  rw [basename, List.rtakeWhile, List.reverse_append, List.reverse_cons, List.append_assoc,
    List.takeWhile_append_of_pos hall, List.singleton_append,
    List.takeWhile_cons_of_neg (by simp), List.append_nil, List.reverse_reverse]

end Python

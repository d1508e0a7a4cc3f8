/-
# Worklists

A worklist search keeps a stack of names still to be looked at and the names already
seen.  It takes a name from the stack; a new one is looked up, and everything found
there is collected and puts further names on the stack.  The lookup fails for all but
finitely many names, which is why the search ends, although what it finds may name
anything.

`mem_run_iff` says what is collected, whatever the order: what the lookup gives for
the names that can be reached from the initial ones.
-/

import Mathlib.Data.List.Basic
import Mathlib.Data.Nat.Notation
import Mathlib.Tactic.Tauto

namespace Worklist

variable {α β : Type*} (visit : α → Option (List β)) (push : β → List α)

/-! ### What can be found -/

/-- The names that can come onto the stack. -/
inductive Reach (start : List α) : α → Prop
  | start {x : α} (hx : x ∈ start) : Reach start x
  | step {x y : α} {found : List β} {b : β} (hx : Reach start x) (hv : visit x = some found)
      (hb : b ∈ found) (hy : y ∈ push b) : Reach start y

/-- What a search from `start` has to collect. -/
def Found (start : List α) (b : β) : Prop :=
  ∃ x found, Reach visit push start x ∧ visit x = some found ∧ b ∈ found

/-- What the search has done so far: the initial names are seen or on the stack, and
so is everything that a seen name leads to, whose finds are collected. -/
structure Explored (start stack seen : List α) (acc : List β) : Prop where
  start_mem : ∀ x ∈ start, x ∈ seen ∨ x ∈ stack
  collected : ∀ x ∈ seen, ∀ found, visit x = some found → ∀ b ∈ found, b ∈ acc
  pushed : ∀ x ∈ seen, ∀ found, visit x = some found → ∀ b ∈ found, ∀ y ∈ push b,
    y ∈ seen ∨ y ∈ stack

/-- With the stack empty everything that can be reached has been seen. -/
theorem Explored.seen_of_reach {visit : α → Option (List β)} {push : β → List α}
    {start seen : List α} {acc : List β} (h : Explored visit push start [] seen acc) {x : α}
    (hx : Reach visit push start x) : x ∈ seen := by
  have hempty : ∀ {y : α}, y ∈ seen ∨ y ∈ ([] : List α) → y ∈ seen := fun hy =>
    hy.resolve_right List.not_mem_nil
  induction hx with
  | start hx => exact hempty (h.start_mem _ hx)
  | step _ hv hb hy ih => exact hempty (h.pushed _ ih _ hv _ hb _ hy)

/-! ### The search -/

/-- The stack with the names that everything of `found` puts on it, the last on top. -/
def pushAll (found : List β) (stack : List α) : List α :=
  found.foldl (fun stack b => (push b).reverse ++ stack) stack

theorem mem_pushAll {found : List β} {stack : List α} {x : α} :
    x ∈ pushAll push found stack ↔ x ∈ stack ∨ ∃ b ∈ found, x ∈ push b := by
  unfold pushAll
  induction found generalizing stack with
  | nil => simp
  | cons b found ih =>
    rw [List.foldl_cons, ih, List.mem_append, List.mem_reverse, List.exists_mem_cons_iff]
    tauto

section Steps

variable {visit push} {start stack seen : List α} {acc : List β} {x : α}

/-- A name that was seen before is dropped. -/
theorem Explored.skip (h : Explored visit push start (x :: stack) seen acc) (hx : x ∈ seen) :
    Explored visit push start stack seen acc := by
  have hmem : ∀ {y : α}, y ∈ seen ∨ y ∈ x :: stack → y ∈ seen ∨ y ∈ stack := by
    rintro y (hy | hy)
    · exact .inl hy
    · rcases List.mem_cons.1 hy with rfl | hy
      · exact .inl hx
      · exact .inr hy
  exact ⟨fun y hy => hmem (h.start_mem y hy), h.collected,
    fun z hz found hv b hb y hy => hmem (h.pushed z hz found hv b hb y hy)⟩

/-- A name that cannot be looked up leads nowhere. -/
theorem Explored.blank (h : Explored visit push start (x :: stack) seen acc)
    (hv : visit x = none) :
    Explored visit push start stack (x :: seen) acc := by
  have hmem : ∀ {y : α}, y ∈ seen ∨ y ∈ x :: stack → y ∈ x :: seen ∨ y ∈ stack := by
    intro y
    rw [List.mem_cons, List.mem_cons]
    tauto
  refine ⟨fun y hy => hmem (h.start_mem y hy), fun z hz found hz' => ?_,
    fun z hz found hz' b hb y hy => ?_⟩
  · rcases List.mem_cons.1 hz with rfl | hz
    · rw [hv] at hz'
      cases hz'
    · exact h.collected z hz found hz'
  · rcases List.mem_cons.1 hz with rfl | hz
    · rw [hv] at hz'
      cases hz'
    · exact hmem (h.pushed z hz found hz' b hb y hy)

variable [DecidableEq β]

/-- A name that is looked up has its finds collected and pushed. -/
theorem Explored.visited {found : List β}
    (h : Explored visit push start (x :: stack) seen acc) (hv : visit x = some found) :
    Explored visit push start (pushAll push found stack) (x :: seen) (found ∪ acc) := by
  have hmem : ∀ {y : α}, y ∈ seen ∨ y ∈ x :: stack →
      y ∈ x :: seen ∨ y ∈ pushAll push found stack := by
    intro y
    rw [List.mem_cons, List.mem_cons, mem_pushAll]
    tauto
  refine ⟨fun y hy => hmem (h.start_mem y hy), fun z hz found' hz' b hb => ?_,
    fun z hz found' hz' b hb y hy => ?_⟩
  · rw [List.mem_union_iff]
    rcases List.mem_cons.1 hz with rfl | hz
    · obtain rfl := Option.some.inj (hv.symm.trans hz')
      exact .inl hb
    · exact .inr (h.collected z hz found' hz' b hb)
  · rcases List.mem_cons.1 hz with rfl | hz
    · obtain rfl := Option.some.inj (hv.symm.trans hz')
      exact .inr ((mem_pushAll push).2 (.inr ⟨b, hb, hy⟩))
    · exact hmem (h.pushed z hz found' hz' b hb y hy)

end Steps

variable [DecidableEq α]

theorem filter_cons_seen (support seen : List α) (x : α) :
    support.filter (· ∉ x :: seen) = (support.filter (· ∉ seen)).filter (· ≠ x) := by
  rw [List.filter_filter]
  refine List.filter_congr fun y _ => ?_
  rw [← Bool.decide_and]
  refine decide_eq_decide.2 ?_
  rw [List.mem_cons, not_or]

theorem length_filter_le (support seen : List α) (x : α) :
    (support.filter (· ∉ x :: seen)).length ≤ (support.filter (· ∉ seen)).length := by
  rw [filter_cons_seen]
  exact List.length_filter_le ..

/-- The names not yet seen become fewer. -/
theorem length_filter_lt {support seen : List α} {x : α} (hx : x ∈ support) (hs : x ∉ seen) :
    (support.filter (· ∉ x :: seen)).length < (support.filter (· ∉ seen)).length := by
  rw [filter_cons_seen]
  refine List.length_filter_lt_length_iff_exists.2 ⟨x, List.mem_filter.2 ⟨hx, ?_⟩, ?_⟩
  · exact decide_eq_true hs
  · simp

variable [DecidableEq β]

/-- The search.  Only the names of `support` can be looked up. -/
def run (support : List α) (hsupport : ∀ x, (visit x).isSome → x ∈ support) :
    List α → List α → List β → List β
  | [], _, acc => acc
  | x :: stack, seen, acc =>
    if x ∈ seen then run support hsupport stack seen acc
    else
      match _hv : visit x with
      | none => run support hsupport stack (x :: seen) acc
      | some found =>
        run support hsupport (pushAll push found stack) (x :: seen) (found ∪ acc)
termination_by stack seen _ => ((support.filter (· ∉ seen)).length, stack.length)
decreasing_by
  · exact Prod.Lex.right _ (Nat.lt_succ_self _)
  · exact Prod.Lex.right' _ (length_filter_le ..) (Nat.lt_succ_self _)
  · exact Prod.Lex.left _ _ (length_filter_lt (hsupport x (by rw [_hv]; rfl)) ‹_›)

/-! ### What is collected -/

variable {visit push} {support : List α} {hsupport : ∀ x, (visit x).isSome → x ∈ support}
  {start : List α}

/-- Nothing is collected that cannot be found. -/
theorem run_sound (stack seen : List α) (acc : List β)
    (hstack : ∀ x ∈ stack, Reach visit push start x) (hacc : ∀ b ∈ acc, Found visit push start b) :
    ∀ b ∈ run visit push support hsupport stack seen acc, Found visit push start b := by
  fun_induction run visit push support hsupport stack seen acc with
  | case1 seen acc => exact hacc
  | case2 x stack seen acc hx ih =>
    exact ih (fun y hy => hstack y (List.mem_cons_of_mem _ hy)) hacc
  | case3 x stack seen acc hx hv ih =>
    exact ih (fun y hy => hstack y (List.mem_cons_of_mem _ hy)) hacc
  | case4 x stack seen acc hx found hv ih =>
    have hreach : Reach visit push start x := hstack x (List.mem_cons_self ..)
    refine ih (fun y hy => ?_) fun b hb => ?_
    · rcases (mem_pushAll push).1 hy with hy | ⟨b, hb, hy⟩
      · exact hstack y (List.mem_cons_of_mem _ hy)
      · exact .step hreach hv hb hy
    · rcases List.mem_union_iff.1 hb with hb | hb
      · exact ⟨x, found, hreach, hv, hb⟩
      · exact hacc b hb

/-- Everything that can be found is collected. -/
theorem run_complete (stack seen : List α) (acc : List β)
    (h : Explored visit push start stack seen acc) {b : β} (hb : Found visit push start b) :
    b ∈ run visit push support hsupport stack seen acc := by
  fun_induction run visit push support hsupport stack seen acc with
  | case1 seen acc =>
    obtain ⟨x, found, hx, hv, hb⟩ := hb
    exact h.collected x (h.seen_of_reach hx) found hv b hb
  | case2 x stack seen acc hx ih => exact ih (h.skip hx)
  | case3 x stack seen acc hx hv ih => exact ih (h.blank hv)
  | case4 x stack seen acc hx found hv ih => exact ih (h.visited hv)

/-- **The search collects exactly what can be found.** -/
theorem mem_run_iff {stack : List α} (hstack : ∀ x, x ∈ stack ↔ x ∈ start) {b : β} :
    b ∈ run visit push support hsupport stack [] [] ↔ Found visit push start b := by
  constructor
  · exact run_sound stack [] [] (fun x hx => .start ((hstack x).1 hx))
      (fun b hb => absurd hb List.not_mem_nil) b
  · refine run_complete stack [] [] ⟨fun x hx => .inr ((hstack x).2 hx), ?_, ?_⟩ <;>
      exact fun x hx => absurd hx List.not_mem_nil

end Worklist

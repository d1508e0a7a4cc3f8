/-
# Saturation

A search that marks names as it finds them.  It keeps a queue of places and the closure,
the set of the names found so far; a round takes a place out of the queue and goes
through what is found there, and a name that is new enters the closure and may put one
more place on the queue.  In `Worklist` a name is marked when it is taken up; here it is
marked at once, so that no place is ever dropped.

Nothing is said about which place is taken or in which order a set is gone through:
`Step` allows every choice.  `no_infinite_run` says that the search ends whatever is
chosen, `Step.exists_of_ne_nil` that it can only end with an empty queue, and
`mem_closure_iff` that the closure is then what can be reached.
-/

import Mathlib.Data.Finset.Card
import Mathlib.Logic.Relation
import Mathlib.Order.OrderIsoNat

namespace Saturation

variable {α β : Type*}

/-- What the loop works on. -/
structure State (α β : Type*) where
  queue : List α
  closure : Finset β

variable (found : α → Finset β) (next : β → Option α)

/-! ### What can be reached -/

/-- What a search from `start` has to find. -/
inductive Reach (start : List α) : β → Prop
  | start {x : α} {d : β} (hx : x ∈ start) (hd : d ∈ found x) : Reach start d
  | step {x : α} {b d : β} (hb : Reach start b) (hx : next b = some x) (hd : d ∈ found x) :
      Reach start d

/-- What a search from `start` has done so far: whatever is found at a place it knows of
is in the closure, unless the place is still on the queue, and it knows of no place and
no name that cannot be reached. -/
structure Explored (start : List α) (s : State α β) : Prop where
  start_mem : ∀ x ∈ start, x ∈ s.queue ∨ found x ⊆ s.closure
  next_mem : ∀ b ∈ s.closure, ∀ x, next b = some x → x ∈ s.queue ∨ found x ⊆ s.closure
  queue_reach : ∀ x ∈ s.queue, ∀ d ∈ found x, Reach found next start d
  closure_reach : ∀ b ∈ s.closure, Reach found next start b

section Explored

variable {found next} {start : List α} {s : State α β}

/-- At the beginning everything is on the queue. -/
theorem Explored.init : Explored found next start { queue := start, closure := ∅ } :=
  ⟨fun _ hx => .inl hx, fun b hb => absurd hb (Finset.notMem_empty b),
    fun _ hx _ hd => .start hx hd, fun b hb => absurd hb (Finset.notMem_empty b)⟩

/-- With an empty queue nothing is left to find. -/
theorem Explored.mem_closure_of_reach (hs : Explored found next start s) (hqueue : s.queue = [])
    {b : β} (hb : Reach found next start b) : b ∈ s.closure := by
  have hdone : ∀ {x : α}, x ∈ s.queue ∨ found x ⊆ s.closure → found x ⊆ s.closure := fun hx =>
    hx.resolve_left (hqueue ▸ List.not_mem_nil)
  induction hb with
  | start hx hd => exact hdone (hs.start_mem _ hx) hd
  | step _ hx hd ih => exact hdone (hs.next_mem _ ih _ hx) hd

end Explored

/-! ### The search -/

variable [DecidableEq β]

/-- The inner loop: `ds` is what was found, in the order it is gone through. -/
def visit : List β → State α β → State α β
  | [], s => s
  | d :: ds, s =>
    if d ∈ s.closure then visit ds s
    else visit ds { queue := s.queue ++ (next d).toList, closure := insert d s.closure }

/-- One round, with any place of the queue and any order of what is found there. -/
inductive Step : State α β → State α β → Prop
  | round (before after : List α) (x : α) (closure : Finset β) (ds : List β) (hds : ds.Nodup)
      (hfound : ds.toFinset = found x) :
      Step { queue := before ++ x :: after, closure := closure }
        (visit next ds { queue := before ++ after, closure := closure })

/-! ### The inner loop -/

section Visit

variable {next}

/-- Everything gone through is in the closure afterwards, and nothing else is new. -/
theorem mem_closure_visit {ds : List β} {s : State α β} {b : β} :
    b ∈ (visit next ds s).closure ↔ b ∈ s.closure ∨ b ∈ ds := by
  induction ds generalizing s with
  | nil => simp [visit]
  | cons d ds ih =>
    rw [visit]
    split_ifs with hd
    · rw [ih, List.mem_cons]
      constructor
      · rintro (hb | hb)
        exacts [.inl hb, .inr (.inr hb)]
      · rintro (hb | rfl | hb)
        exacts [.inl hb, .inl hd, .inr hb]
    · rw [ih, List.mem_cons, Finset.mem_insert, or_comm (a := b = d), or_assoc]

/-- The queue grows by the places of the new names. -/
theorem mem_queue_visit {ds : List β} {s : State α β} {x : α} :
    x ∈ (visit next ds s).queue ↔
      x ∈ s.queue ∨ ∃ d ∈ ds, d ∉ s.closure ∧ next d = some x := by
  induction ds generalizing s with
  | nil => simp [visit]
  | cons d ds ih =>
    rw [visit]
    split_ifs with hd
    · rw [ih, List.exists_mem_cons_iff]
      simp [hd]
    · rw [ih, List.exists_mem_cons_iff, List.mem_append, Option.mem_toList, or_assoc]
      refine or_congr_right ⟨?_, ?_⟩
      · rintro (hx | ⟨b, hb, hnew, hx⟩)
        · exact .inl ⟨hd, hx⟩
        · exact .inr ⟨b, hb, fun hmem => hnew (Finset.mem_insert_of_mem hmem), hx⟩
      · rintro (⟨-, hx⟩ | ⟨b, hb, hnew, hx⟩)
        · exact .inl hx
        · by_cases hbd : b = d
          · exact .inl (hbd ▸ hx)
          · exact .inr ⟨b, hb, fun hmem => (Finset.mem_insert.1 hmem).elim hbd hnew, hx⟩

end Visit

/-! ### The search ends -/

/-- How much there is left to do when nothing outside `names` can be found: a name that
is missing counts for itself and for the place it may put on the queue. -/
def pending (names : Finset β) (s : State α β) : ℕ :=
  2 * (names \ s.closure).card + s.queue.length

section Ends

variable {found next} {names : Finset β}

/-- The inner loop does not add to what is left. -/
theorem pending_visit_le {ds : List β} {s : State α β} (hds : ∀ d ∈ ds, d ∈ names) :
    pending names (visit next ds s) ≤ pending names s := by
  induction ds generalizing s with
  | nil => exact le_refl _
  | cons d ds ih =>
    have hrest : ∀ d ∈ ds, d ∈ names := fun b hb => hds b (List.mem_cons_of_mem _ hb)
    rw [visit]
    split_ifs with hd
    · exact ih hrest
    · refine (ih hrest).trans ?_
      have hmem : d ∈ names \ s.closure := Finset.mem_sdiff.2 ⟨hds d List.mem_cons_self, hd⟩
      have hcard : (names \ insert d s.closure).card + 1 = (names \ s.closure).card := by
        rw [Finset.sdiff_insert]
        exact Finset.card_erase_add_one hmem
      have hnext : (next d).toList.length ≤ 1 := by cases next d <;> simp
      simp only [pending, List.length_append]
      omega

/-- Every round lowers what is left: a place has gone from the queue. -/
theorem Step.pending_lt {s t : State α β} (h : Step found next s t)
    (hfound : ∀ x, found x ⊆ names) : pending names t < pending names s := by
  obtain ⟨before, after, x, closure, ds, -, hds⟩ := h
  have hmem : ∀ d ∈ ds, d ∈ names := fun d hd =>
    hfound x (hds ▸ List.mem_toFinset.2 hd)
  refine (pending_visit_le hmem).trans_lt ?_
  simp only [pending, List.length_append, List.length_cons]
  omega

/-- **The search ends, whatever is chosen.** -/
theorem no_infinite_run (hfound : ∀ x, found x ⊆ names) :
    ¬ ∃ run : ℕ → State α β, ∀ n, Step found next (run n) (run (n + 1)) := by
  rintro ⟨run, hrun⟩
  exact not_strictAnti_of_wellFoundedLT (fun n => pending names (run n))
    (strictAnti_nat_of_succ_lt fun n => (hrun n).pending_lt hfound)

/-- As long as there is a place on the queue a round can follow. -/
theorem Step.exists_of_ne_nil {s : State α β} (hs : s.queue ≠ []) :
    ∃ t, Step found next s t := by
  obtain ⟨_ | ⟨x, queue⟩, closure⟩ := s
  · exact absurd rfl hs
  · exact ⟨_, .round [] queue x closure (found x).toList (Finset.nodup_toList _)
      (Finset.toList_toFinset _)⟩

end Ends

/-! ### What is found -/

section Found

variable {found next} {start : List α} {s t : State α β}

/-- A round keeps it so. -/
theorem Explored.step (hs : Explored found next start s) (h : Step found next s t) :
    Explored found next start t := by
  obtain ⟨before, after, x, closure, ds, -, hds⟩ := h
  have hmem : ∀ d, d ∈ ds ↔ d ∈ found x := fun d => by rw [← hds, List.mem_toFinset]
  have hx : x ∈ before ++ x :: after := List.mem_append_right _ List.mem_cons_self
  have hreach : ∀ d ∈ ds, Reach found next start d := fun d hd =>
    hs.queue_reach x hx d ((hmem d).1 hd)
  have hsub : closure ⊆ (visit next ds { queue := before ++ after, closure := closure }).closure :=
    fun b hb => mem_closure_visit.2 (.inl hb)
  -- a place that was waited for is the one taken, still waited for, or done with
  have hkeep : ∀ y, y ∈ before ++ x :: after ∨ found y ⊆ closure →
      y ∈ (visit next ds { queue := before ++ after, closure := closure }).queue ∨
        found y ⊆ (visit next ds { queue := before ++ after, closure := closure }).closure := by
    rintro y (hy | hy)
    · rcases List.mem_append.1 hy with hy | hy
      · exact .inl (mem_queue_visit.2 (.inl (List.mem_append_left _ hy)))
      · rcases List.mem_cons.1 hy with rfl | hy
        · exact .inr fun d hd => mem_closure_visit.2 (.inr ((hmem d).2 hd))
        · exact .inl (mem_queue_visit.2 (.inl (List.mem_append_right _ hy)))
    · exact .inr (hy.trans hsub)
  refine ⟨fun y hy => hkeep y (hs.start_mem y hy), fun b hb y hy => ?_, fun y hy d hd => ?_,
    fun b hb => ?_⟩
  · by_cases hold : b ∈ closure
    · exact hkeep y (hs.next_mem b hold y hy)
    · have hb : b ∈ ds := (mem_closure_visit.1 hb).resolve_left hold
      exact .inl (mem_queue_visit.2 (.inr ⟨b, hb, hold, hy⟩))
  · rcases mem_queue_visit.1 hy with hy | ⟨b, hb, -, hy⟩
    · have hy : y ∈ before ++ x :: after := by
        rw [List.mem_append, List.mem_cons]
        exact (List.mem_append.1 hy).imp_right .inr
      exact hs.queue_reach y hy d hd
    · exact .step (hreach b hb) hy hd
  · rcases mem_closure_visit.1 hb with hb | hb
    exacts [hs.closure_reach b hb, hreach b hb]

/-- Any number of rounds keeps it so. -/
theorem Explored.run (hrun : Relation.ReflTransGen (Step found next) s t)
    (hs : Explored found next start s) : Explored found next start t := by
  induction hrun with
  | refl => exact hs
  | tail _ h ih => exact ih.step h

/-- **A search that has ended has found exactly what can be reached.** -/
theorem mem_closure_iff
    (hrun : Relation.ReflTransGen (Step found next) { queue := start, closure := ∅ } s)
    (hqueue : s.queue = []) {b : β} : b ∈ s.closure ↔ Reach found next start b := by
  have hs : Explored found next start s := Explored.init.run hrun
  exact ⟨hs.closure_reach b, hs.mem_closure_of_reach hqueue⟩

end Found

end Saturation

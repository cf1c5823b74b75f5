import Interleave.Proofs.Session

/-!
# The order of active threads

Active threads are listed in the order in which they were made, in every session that operations
lead to. This holds whatever handlers do, and also of the sessions that faults leave behind: a pass
that is broken off leaves the list of active threads as it was, with the threads that the handler
made at its end.

## The invariant

In the middle of a pass there is more to be said: who was kept so far is among those visited, in the
same order (`Session.InOrder`). When the pass is over, the list becomes those who were kept. When
the budget is used up, it becomes those who were kept and then those not visited, which is a part of
the old list again. A new thread has a greater number than all others and is put at the end.

Sessions are taken as they arise from any operations, faults included (`Session.Arises`). The world
does not matter to the order, and may change between operations in any way. So the result can be
used where nothing is known about what programs do.
-/

namespace Interleave

theorem Outcome.failed_or_ne_failed {α : Type} (o : Outcome α) :
    (∃ f, o = .failed f) ∨ ∀ f, o ≠ .failed f := by
  cases o with
  | done a => exact .inr (by simp)
  | failed f => exact .inl ⟨f, rfl⟩
  | outOfFuel => exact .inr (by simp)

namespace Session

/-- The sessions that operations lead to. Between operations the world may change in any way, by
evaluations on the side or otherwise. Passes and runs may come out in any way, and the handler may
be another one each time. -/
inductive Arises : Session → Prop where
  | fresh (w : World) : Arises { world := w }
  | world {s : Session} (h : Arises s) (w : World) : Arises { s with world := w }
  | spawn {s : Session} (h : Arises s) (program : List Expr) (frame : FrameId) :
    Arises (s.spawn program frame)
  | cancel {s : Session} (h : Arises s) (id : Nat) : Arises (s.cancel id)
  | step {s : Session} (h : Arises s) (id : Nat) : Arises (s.stepThread id).2
  | pass {s : Session} (h : Arises s) (sup : Supervision) (fuel : Nat) (budget : Option Int) :
    Arises (s.pass sup fuel budget).2
  | run {s : Session} (h : Arises s) (sup : Supervision) (fuel : Nat) (budget : Option Int) :
    Arises (s.run sup fuel budget).2

/-- In the middle of a pass: the active threads are in the order in which they were made, and the
threads kept so far are among those visited, in the same order. -/
structure InOrder (p : Progress) (s : Session) : Prop where
  increasing : s.active.toList.Pairwise (· < ·)
  known : ∀ id ∈ s.active.toList, id < s.threads.size
  visited_le : p.visited ≤ s.active.size
  kept : p.kept.toList.Sublist (s.active.toList.take p.visited)

namespace InOrder

variable {sup : Supervision} {budget : Option Int} {p p' : Progress} {s s' : Session} {id : Nat}

theorem congr (h : s.InOrder p) (hactive : s'.active = s.active)
    (hsize : s'.threads.size = s.threads.size) : s'.InOrder p where
  increasing := hactive ▸ h.increasing
  known := hactive ▸ hsize ▸ h.known
  visited_le := hactive ▸ h.visited_le
  kept := hactive ▸ h.kept

theorem begin (h : s.InOrder p) : s.InOrder {} :=
  ⟨h.increasing, h.known, Nat.zero_le _, List.nil_sublist _⟩

theorem spawn (h : s.InOrder p) (program : List Expr) (frame : FrameId) :
    (s.spawn program frame).InOrder p := by
  have hactive : (s.spawn program frame).active.toList = s.active.toList ++ [s.threads.size] :=
    Array.toList_push
  have hsize : (s.spawn program frame).threads.size = s.threads.size + 1 := Array.size_push _
  refine ⟨?_, ?_, ?_, ?_⟩
  · rw [hactive, List.pairwise_append]
    refine ⟨h.increasing, List.pairwise_singleton _ _, fun i hi j hj ↦ ?_⟩
    rw [List.mem_singleton.mp hj]
    exact h.known i hi
  · intro i hi
    rw [hactive, List.mem_append, List.mem_singleton] at hi
    rw [hsize]
    rcases hi with hi | rfl
    · exact Nat.lt_succ_of_lt (h.known i hi)
    · exact Nat.lt_succ_self _
  · change p.visited ≤ (s.active.push _).size
    rw [Array.size_push]
    exact Nat.le_succ_of_le h.visited_le
  · rw [hactive, List.take_append_of_le_length h.visited_le]
    exact h.kept

theorem react (h : s.InOrder p) (r : Reaction) : (s.react r).InOrder p := by
  cases r with
  | cancel id => exact h.congr rfl Array.size_modify
  | spawn program frame => exact h.spawn program frame

theorem tell {handler : Option Handler} {e : ProgramError} {o : Option Fault}
    (h : s.InOrder p) (htell : Session.tell handler id e s = (o, s')) : s'.InOrder p := by
  have hreact : ∀ (rs : List Reaction) {s : Session}, s.InOrder p →
      (rs.foldl Session.react s).InOrder p := by
    intro rs
    induction rs with
    | nil => exact fun h ↦ h
    | cons r rs ih => exact fun h ↦ ih (h.react r)
  cases handler with
  | none =>
    cases htell
    exact h.congr rfl rfl
  | some handler =>
    cases htell
    exact hreact _ (h.congr rfl rfl)

theorem fail {t : Thread} {w : World} {e : ProgramError} (h : s.InOrder p) :
    ((s.replace id t w).fail id e).InOrder p :=
  h.congr rfl (by simp only [Session.fail, Session.retire, Session.replace, Array.size_modify,
    Array.size_setIfInBounds])

theorem advance (h : s.InOrder p) (hid : s.active[p.visited]? = some id)
    (hvisited : p'.visited = p.visited + 1)
    (hkept : p'.kept = p.kept ∨ p'.kept = p.kept.push id) : s.InOrder p' := by
  have hlt : p.visited < s.active.toList.length := (Array.getElem?_eq_some_iff.mp hid).1
  have htake : s.active.toList.take (p.visited + 1) = s.active.toList.take p.visited ++ [id] := by
    rw [List.take_add_one, Array.getElem?_toList, hid]
    rfl
  refine ⟨h.increasing, h.known, ?_, ?_⟩
  · rw [hvisited]
    exact hlt
  · rw [hvisited, htake]
    rcases hkept with hkept | hkept
    · rw [hkept]
      exact h.kept.trans (List.sublist_append_left _ _)
    · rw [hkept, Array.toList_push]
      exact h.kept.append (List.Sublist.refl _)

theorem preservedByVisits (sup : Supervision) :
    PreservedByVisits sup fun _ p s ↦ s.InOrder p := by
  refine ⟨?_, ?_⟩
  · intro budget turns p p' s s' h hvisit
    cases visited_of_visit hvisit with
    | @idle id hid =>
      have hnext : s.InOrder p.skip := h.advance hid rfl (.inl rfl)
      exact hnext.congr rfl (Quiet.retire s id).size
    | @kept id t st q q' v w hid =>
      have hnext : s.InOrder (p.keep id) := h.advance hid rfl (.inr rfl)
      exact hnext.congr rfl Array.size_setIfInBounds
    | @ended id t st q v w hid =>
      have hnext : s.InOrder p.drop := h.advance hid rfl (.inl rfl)
      exact hnext.congr rfl ((Quiet.retire _ id).size.trans Array.size_setIfInBounds)
    | failed hid _ _ _ htell =>
      have hnext : s.InOrder p.drop := h.advance hid rfl (.inl rfl)
      exact hnext.fail.tell htell
  · intro budget turns p n s s' h hvisit
    have hsublist : ∀ {active : Array Nat}, active.toList.Sublist s.active.toList →
        InOrder {} { s with active } := by
      intro active hactive
      exact ⟨h.increasing.sublist hactive, fun i hi ↦ h.known i (hactive.subset hi),
        Nat.zero_le _, List.nil_sublist _⟩
    cases visited_of_visit hvisit with
    | allVisited => exact hsublist (h.kept.trans (List.take_sublist _ _))
    | cut =>
      refine hsublist ?_
      rw [toList_cut]
      have hrest := h.kept.append (List.Sublist.refl (s.active.toList.drop p.visited))
      rwa [List.take_append_drop] at hrest

/-- A fault leaves the list of active threads as it was, with new threads at its end. -/
theorem of_broken {f : Fault} (h : s.InOrder p) (hvisit : s.visit sup budget p = .broken f s') :
    s'.InOrder {} := by
  cases visited_of_visit hvisit with
  | raised _ _ _ _ htell => exact (h.fail.tell htell).begin
  | brokenDown => exact .congr h.begin rfl Array.size_setIfInBounds
  | unlogged => exact h.begin

theorem pass (h : s.InOrder {}) (fuel : Nat) : (s.pass sup fuel budget).2.InOrder {} := by
  rcases hpass : s.pass sup fuel budget with ⟨o, s'⟩
  rcases o.failed_or_ne_failed with ⟨f, rfl⟩ | ho
  · obtain ⟨budget', turns, p', s₁, hway, hvisit⟩ := exists_broken_of_passFrom .start hpass
    exact (hway.preserves (preservedByVisits sup) h).of_broken hvisit
  · obtain ⟨p', h', -⟩ := passFrom_preserves (preservedByVisits sup) [] h hpass ho
    exact h'.begin

theorem run (h : s.InOrder {}) (fuel : Nat) : (s.run sup fuel budget).2.InOrder {} := by
  rcases hrun : s.run sup fuel budget with ⟨o, s'⟩
  rcases o.failed_or_ne_failed with ⟨f, rfl⟩ | ho
  · obtain ⟨budget', turns, p', s₁, hway, hvisit⟩ := exists_broken_of_runFrom .start hrun
    exact (hway.preserves (preservedByVisits sup) h).of_broken hvisit
  · obtain ⟨p', h', -⟩ := runFrom_preserves (preservedByVisits sup) [] h hrun ho
    exact h'.begin

end InOrder

/-- **Active threads are in the order in which they were made.** -/
theorem Arises.inOrder {s : Session} (h : s.Arises) : s.InOrder {} := by
  induction h with
  | fresh => exact ⟨.nil, List.forall_mem_nil _, Nat.zero_le _, List.nil_sublist _⟩
  | world _ w ih => exact ih.congr rfl rfl
  | spawn _ program frame ih => exact ih.spawn program frame
  | cancel _ id ih => exact ih.congr rfl Array.size_modify
  | step _ id ih =>
    rw [stepThread]
    split
    · exact ih
    · exact .congr ih rfl Array.size_setIfInBounds
  | pass _ sup fuel budget ih => exact ih.pass fuel
  | run _ sup fuel budget ih => exact ih.run fuel

end Session

end Interleave

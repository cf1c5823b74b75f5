import Interleave.Proofs.Session

/-!
# Threads in any order

A scheduler decides whose turn it is. What holds whatever it decides is shown for all orders at
once: `Session.Moves` lets any thread take a step at any time. A thread whose step fails is at its
end, new threads may come at any time, and the books may be kept in between.

`Moves.cases` says what a move is to the threads: one of them has taken a step in the world that all
share, or none has, and then each is where it was or at the beginning of a program.
`runs_run` says that a run of the session is made of moves.

## Why not the scheduler itself

An invariant of all orders is easier to prove than one of the order that passes have, which would
have to speak of the threads not yet visited. It is also stronger, since it covers steps taken by
hand. The moves are chosen so that they say nothing about flags and lists: a move that only keeps
the books leaves every thread its value and its queue and may change the rest. What a handler does
is then made of moves as well, since it cancels threads, which is for the books, and makes new ones.
-/

namespace Interleave.Session

/-- The thread of that number has this current value and this queue. -/
def Has (s : Session) (i : Nat) (v : Value) (q : Queue) : Prop :=
  ∃ t, s.threads[i]? = some t ∧ t.current = v ∧ t.queue = q

/-- Ends a thread: it has nothing left to do. -/
def dismiss (s : Session) (i : Nat) : Session :=
  { s with threads := s.threads.modify i ({ · with queue := [] }) }

/-- One move of a session. -/
inductive Moves : Session → Session → Prop where
  /-- A thread is made. -/
  | spawn (s : Session) (program : List Expr) (frame : FrameId) : Moves s (s.spawn program frame)
  /-- A thread takes a step. -/
  | step {s s' : Session} {i : Nat} (h : s.stepThread i = (.ok (), s')) : Moves s s'
  /-- The step of a thread fails, and the thread is at its end. -/
  | fail {s s' : Session} {i : Nat} {f : Fault} (h : s.stepThread i = (.error f, s')) :
    Moves s (s'.dismiss i)
  /-- Nothing happens but in the books: threads are where they were, and something may be noted. -/
  | quiet {s s' : Session} (hthreads : ∀ i v q, s'.Has i v q ↔ s.Has i v q)
    (hworld : ∃ journal, s'.world = { s.world with journal }) : Moves s s'

/-- Any number of moves. -/
inductive Runs : Session → Session → Prop where
  | refl (s : Session) : Runs s s
  | snoc {s s' s'' : Session} (first : Runs s s') (last : Moves s' s'') : Runs s s''

theorem Runs.trans {s s' s'' : Session} (h : Runs s s') (h' : Runs s' s'') : Runs s s'' := by
  induction h' with
  | refl => exact h
  | snoc _ last ih => exact .snoc ih last

theorem Moves.runs {s s' : Session} (h : Moves s s') : Runs s s' := .snoc (.refl s) h

/-! ## What a move is to the threads -/

section Threads

variable {s s' : Session} {i j : Nat} {u v : Value} {q r : Queue}

theorem Has.unique (h : s.Has i u q) (h' : s.Has i v r) : u = v ∧ q = r := by
  obtain ⟨t, ht, rfl, rfl⟩ := h
  obtain ⟨t', ht', rfl, rfl⟩ := h'
  rw [ht] at ht'
  cases ht'
  exact ⟨rfl, rfl⟩

theorem has_replace_self {t : Thread} {w : World} (h : i < s.threads.size) :
    (s.replace i t w).Has i t.current t.queue :=
  ⟨t, by rw [getElem?_threads_replace h, if_pos rfl], rfl, rfl⟩

theorem has_replace_of_ne {t : Thread} {w : World} (hne : j ≠ i) :
    (s.replace i t w).Has j v q ↔ s.Has j v q := by
  rw [Has, Has, replace]
  simp only [Array.getElem?_setIfInBounds, if_neg hne.symm]

theorem has_dismiss_of_ne (hne : j ≠ i) : (s.dismiss i).Has j v q ↔ s.Has j v q := by
  rw [Has, Has, dismiss]
  simp only [Array.getElem?_modify, if_neg hne.symm]

theorem Has.queue_of_dismiss (h : (s.dismiss i).Has i v q) : q = [] := by
  obtain ⟨t, ht, -, rfl⟩ := h
  rw [dismiss, Array.getElem?_modify, if_pos rfl] at ht
  obtain ⟨t', -, rfl⟩ := Option.map_eq_some_iff.1 ht
  rfl

/-- A step of a thread is a step of the machine, and nothing changes about the other threads. -/
theorem stepThread_eq_ok (h : s.stepThread i = (.ok (), s')) :
    ∃ v st q v' q', s.Has i v (st :: q) ∧
      Machine.step st v q s.world = (.ok (v', q'), s'.world) ∧ s'.Has i v' q' ∧
      ∀ j, j ≠ i → ∀ u r, s'.Has j u r ↔ s.Has j u r := by
  rw [stepThread] at h
  cases ht : s.threads[i]? with
  | none =>
    rw [ht] at h
    cases h
  | some t =>
    have hlt : i < s.threads.size := (Array.getElem?_eq_some_iff.1 ht).1
    cases hq : t.queue with
    | nil =>
      simp only [ht, Thread.step, hq] at h
      cases h
    | cons st q =>
      simp only [ht, Thread.step, hq] at h
      rcases hstep : Machine.step st t.current q s.world with ⟨f | ⟨v', q'⟩, w'⟩
      · rw [hstep] at h
        cases h
      · rw [hstep] at h
        cases h
        exact ⟨t.current, st, q, v', q', ⟨t, ht, rfl, hq⟩, hstep, has_replace_self hlt,
          fun j hne u r ↦ has_replace_of_ne hne⟩

/-- A step that fails changes nothing about the other threads, and of the world the journal only. -/
theorem stepThread_eq_error {f : Fault} (h : s.stepThread i = (.error f, s')) :
    (∃ journal, s'.world = { s.world with journal }) ∧
      ∀ j, j ≠ i → ∀ u r, s'.Has j u r ↔ s.Has j u r := by
  rw [stepThread] at h
  cases ht : s.threads[i]? with
  | none =>
    rw [ht] at h
    cases h
    exact ⟨⟨_, rfl⟩, fun _ _ _ _ ↦ Iff.rfl⟩
  | some t =>
    cases hq : t.queue with
    | nil =>
      simp only [ht, Thread.step, hq] at h
      cases h
      exact ⟨⟨_, rfl⟩, fun j hne u r ↦ has_replace_of_ne hne⟩
    | cons st q =>
      simp only [ht, Thread.step, hq] at h
      rcases hstep : Machine.step st t.current q s.world with ⟨g | ⟨v', q'⟩, w'⟩
      · rw [hstep] at h
        cases h
        exact ⟨Machine.step_error hstep, fun j hne u r ↦ has_replace_of_ne hne⟩
      · rw [hstep] at h
        cases h

/-- **The cases of a move.** No thread has taken a step, and each is where it was or at the
beginning of a program; or one has, and the others are where they were. -/
theorem Moves.cases (h : Moves s s') :
    ((∃ journal, s'.world = { s.world with journal }) ∧
      ∀ j v q, s'.Has j v q → s.Has j v q ∨ ∃ program frame, q = Queue.ofProgram program frame) ∨
    ∃ i v st q v' q', s.Has i v (st :: q) ∧
      Machine.step st v q s.world = (.ok (v', q'), s'.world) ∧ s'.Has i v' q' ∧
      ∀ j, j ≠ i → ∀ u r, s'.Has j u r ↔ s.Has j u r := by
  cases h with
  | spawn program frame =>
    refine .inl ⟨⟨_, rfl⟩, fun j v q hj ↦ ?_⟩
    obtain ⟨t, ht, hv, hq⟩ := hj
    rw [Session.spawn, Array.getElem?_push] at ht
    split at ht
    · cases ht
      exact .inr ⟨program, frame, hq.symm⟩
    · exact .inl ⟨t, ht, hv, hq⟩
  | step h =>
    obtain ⟨v, st, q, v', q', hhas, hstep, hhas', hothers⟩ := stepThread_eq_ok h
    exact .inr ⟨_, v, st, q, v', q', hhas, hstep, hhas', hothers⟩
  | @fail s₁ i f h =>
    obtain ⟨hworld, hothers⟩ := stepThread_eq_error h
    refine .inl ⟨hworld, fun j v q hj ↦ ?_⟩
    by_cases hne : j = i
    · subst hne
      exact .inr ⟨[], 0, hj.queue_of_dismiss⟩
    · exact .inl ((hothers j hne v q).1 ((has_dismiss_of_ne hne).1 hj))
  | quiet hthreads hworld => exact .inl ⟨hworld, fun j v q hj ↦ .inl ((hthreads j v q).1 hj)⟩

end Threads

/-! ## Visits are made of moves -/

section Visits

variable {s s' : Session} {sup : Supervision} {budget : Option Int} {p p' : Progress} {id : Nat}

theorem moves_of_modify (g : Thread → Thread)
    (hg : ∀ t : Thread, (g t).current = t.current ∧ (g t).queue = t.queue)
    (hthreads : s'.threads = s.threads.modify id g)
    (hworld : ∃ journal, s'.world = { s.world with journal }) : Moves s s' := by
  refine .quiet (fun i v q ↦ ?_) hworld
  rw [Has, Has, hthreads]
  simp only [Array.getElem?_modify]
  by_cases hi : id = i
  · simp only [if_pos hi, Option.map_eq_some_iff]
    constructor
    · rintro ⟨_, ⟨t, ht, rfl⟩, hv, hq⟩
      exact ⟨t, ht, (hg t).1.symm.trans hv, (hg t).2.symm.trans hq⟩
    · rintro ⟨t, ht, hv, hq⟩
      exact ⟨g t, ⟨t, ht, rfl⟩, (hg t).1.trans hv, (hg t).2.trans hq⟩
  · simp only [if_neg hi]

theorem moves_retire (s : Session) (id : Nat) : Moves s (s.retire id) :=
  moves_of_modify ({ · with isRetired := true }) (fun _ ↦ ⟨rfl, rfl⟩) rfl ⟨_, rfl⟩

theorem moves_cancel (s : Session) (id : Nat) : Moves s (s.cancel id) :=
  moves_of_modify ({ · with isCancelled := true }) (fun _ ↦ ⟨rfl, rfl⟩) rfl ⟨_, rfl⟩

theorem moves_of_threads_eq (hthreads : s'.threads = s.threads)
    (hworld : ∃ journal, s'.world = { s.world with journal }) : Moves s s' := by
  refine .quiet (fun i v q ↦ ?_) hworld
  rw [Has, Has, hthreads]

theorem moves_note (s : Session) (n : Note) : Moves s (s.note n) :=
  moves_of_threads_eq rfl ⟨_, rfl⟩

theorem runs_reactAll (rs : List Reaction) (s : Session) : Runs s (rs.foldl react s) := by
  induction rs generalizing s with
  | nil => exact .refl s
  | cons r rs ih =>
    have hfirst : Moves s (s.react r) := by
      cases r with
      | cancel id => exact moves_cancel s id
      | spawn program frame => exact .spawn s program frame
    exact hfirst.runs.trans (ih _)

theorem runs_tell {e : ProgramError} {o : Option Fault}
    (h : s.tell sup.handler id e = (o, s')) : Runs s s' := by
  cases hh : sup.handler with
  | none =>
    rw [hh] at h
    cases h
    exact (moves_note s _).runs
  | some handler =>
    rw [hh] at h
    cases h
    exact (moves_note s _).runs.trans (runs_reactAll _ _)

/-- To be marked as failed is to be ended, and then it is for the books. -/
theorem runs_fail (s : Session) (id : Nat) (e : ProgramError) :
    Runs (s.dismiss id) (s.fail id e) := by
  have hmark : Moves (s.dismiss id)
      { s with
        threads := s.threads.modify id ({ · with error := some e, queue := [] })
        failed := s.failed.push id } := by
    refine .quiet (fun i v q ↦ ?_) ⟨_, rfl⟩
    rw [Has, Has, dismiss]
    simp only [Array.getElem?_modify]
    split
    · simp only [Option.map_eq_some_iff]
      constructor <;> rintro ⟨_, ⟨t, ht, rfl⟩, hv, hq⟩ <;> exact ⟨_, ⟨t, ht, rfl⟩, hv, hq⟩
    · exact Iff.rfl
  exact hmark.runs.trans (moves_retire _ id).runs

theorem runs_turn (h : s.turn sup p id = .next p' s') : Runs s s' := by
  rw [turn] at h
  cases htrace : s.traceTurn sup.log id with
  | error b =>
    rw [htrace] at h
    cases h
  | ok s₀ =>
    simp only [htrace] at h
    obtain ⟨hthreads, hworld⟩ := exists_journal_of_traceTurn htrace
    apply (moves_of_threads_eq hthreads hworld).runs.trans
    rcases hstep : s₀.stepThread id with ⟨⟨e | b⟩ | _, s₁⟩
    · simp only [hstep] at h
      rcases htell : (s₁.fail id e).tell sup.handler id e with ⟨_ | f, s₂⟩
      · rw [htell] at h
        cases h
        exact ((Moves.fail hstep).runs.trans (runs_fail s₁ id e)).trans (runs_tell htell)
      · rw [htell] at h
        cases h
    · rw [hstep] at h
      cases h
    · simp only [hstep] at h
      split at h
      · cases h
        exact (Moves.step hstep).runs
      · cases h
        exact (Moves.step hstep).runs.trans (moves_retire _ id).runs

/-- Visits are made of moves, whatever the handler does. -/
theorem runs_preservedByVisits (sup : Supervision) (s₀ : Session) :
    PreservedByVisits sup fun _ _ s ↦ Runs s₀ s := by
  refine ⟨?_, ?_⟩
  · intro budget turns p p' s s' h hvisit
    rw [visit] at hvisit
    split at hvisit
    · cases hvisit
    · split at hvisit
      · cases hvisit
      · split at hvisit
        · cases hvisit
          exact h.trans (moves_retire _ _).runs
        · exact h.trans (runs_turn hvisit)
  · intro budget turns p n s s' h hvisit
    cases visited_of_visit hvisit with
    | allVisited => exact h.snoc (moves_of_threads_eq rfl ⟨_, rfl⟩)
    | cut => exact h.snoc (moves_of_threads_eq rfl ⟨_, rfl⟩)

theorem runs_run {fuel n : Nat} (h : s.run sup fuel budget = (.done n, s')) : Runs s s' := by
  obtain ⟨_, hruns, -⟩ :=
    runFrom_preserves (runs_preservedByVisits sup s) [] (.refl s) h (fun _ ↦ by simp)
  exact hruns

end Visits

end Interleave.Session

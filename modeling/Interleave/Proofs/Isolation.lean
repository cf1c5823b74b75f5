import Interleave.Proofs.Session
import Interleave.Proofs.Writable

/-!
# Failures stay where they are

A program error is the affair of one thread. The thread is marked as failed, loses its queue, is
retired and reported once; the other threads, the frames and all else that programs can see stay as
they were (`Session.FailsAlone`). The pass goes on.

A breakdown is different. It ends the pass where it is, and the fault comes out of the pass or run.
For programs that were read from text there is one cause of it. A call of something that is no
function is an error of the program, and its message shows the offending value; if that is an
integer of more than `Numeral.maxDigits` digits, the message cannot be made, and the attempt breaks
down before there is an error to report. The thread is then left active, without the step and
without an error, and nobody is told.

`failures_stay_alone_but_for_long_callees` puts the two together.

## The log

A log that is shown the steps may end a pass too, before the step is taken. What it breaks off at is
up to it, so the result is about every log, and says of each visit that did not go on which of the
two it was. The thread then still has its step. Without a log there is one cause only.
-/

namespace Interleave

open Machine

/-! ## A failure on its own -/

/-- Failures are recorded, and nothing is done about them. -/
def Supervision.recording (log : Option Log) : Supervision where
  log := log
  handler := some fun _ _ _ ↦ {}

/-- From one session to the other a thread failed, and that is all. -/
structure Session.FailsAlone (s : Session) (id : Nat) (e : ProgramError) (s' : Session) : Prop where
  size : s'.threads.size = s.threads.size
  /-- The thread has the error and no queue, and is retired. -/
  thread : s'.threads[id]? =
    s.threads[id]?.map ({ · with queue := [], error := some e, isRetired := true })
  /-- The other threads are as they were. -/
  others : ∀ j, j ≠ id → s'.threads[j]? = s.threads[j]?
  retired : s'.retired = s.retired.push id
  failed : s'.failed = s.failed.push id
  active : s'.active = s.active
  /-- The world is as it was, but for the journal. -/
  world : ∃ journal, s'.world = { s.world with journal }
  /-- The failure was reported once, and no other was. -/
  reports : s'.world.reports = s.world.reports ++ [(id, e)]

section Visits

variable {log : Option Log} {budget : Option Int} {p : Progress} {s : Session} {id : Nat}
  {t : Thread} {st : Step} {q : Queue} {e : ProgramError} {w : World}

/-- What is left when a step failed with an error of the program and a handler was told, before the
handler does anything about it. -/
theorem Session.failsAlone_of_step {sup : Supervision} (ready : s.Ready id t st q)
    (hstep : step st t.current q (sup.turnWorld id st s.world) = (.error (.program e), w)) :
    s.FailsAlone id e
      (((s.replace id { t with queue := q } w).fail id e).note (.reported id e)) := by
  have hi : id < s.threads.size := (Array.getElem?_eq_some_iff.mp ready.thread).1
  obtain ⟨journal, hw⟩ := step_error hstep
  obtain ⟨journal', hturn⟩ := sup.turnWorld_eq id st s.world
  have hreports : w.reports = s.world.reports := by
    rw [step_reports hstep, Supervision.reports_turnWorld]
  refine ⟨?_, ?_, fun j hj ↦ ?_, rfl, rfl, rfl, ?_, ?_⟩
  · exact Array.size_modify.trans (Array.size_modify.trans Array.size_setIfInBounds)
  · change ((s.replace id _ w).fail id e).threads[id]? = _
    rw [getElem?_threads_fail, if_pos rfl, getElem?_threads_replace hi, if_pos rfl, ready.thread]
    rfl
  · change ((s.replace id _ w).fail id e).threads[j]? = _
    rw [getElem?_threads_fail, if_neg (Ne.symm hj), getElem?_threads_replace hi,
      if_neg (Ne.symm hj)]
  · rw [hturn] at hw
    subst hw
    exact ⟨_, rfl⟩
  · rw [Session.note, World.reports_note, reports_fail, ← hreports]
    rfl

/-- An error of a program stays with the thread that ran into it, and the pass goes on. -/
theorem Session.visit_of_program_error (hid : s.active[p.visited]? = some id)
    (hbudget : budget.any (· ≤ (p.executed : Int)) = false) (ready : s.Ready id t st q)
    (hlog : (Supervision.recording log).refusal? st = none)
    (hstep : step st t.current q ((Supervision.recording log).turnWorld id st s.world)
      = (.error (.program e), w)) :
    ∃ s', s.visit (.recording log) budget p = .next p.drop s' ∧ s.FailsAlone id e s' := by
  refine ⟨_, ?_, failsAlone_of_step ready hstep⟩
  rw [visit_of_ready hid hbudget ready hlog, hstep]
  rfl

theorem callsLongInteger_turnWorld (sup : Supervision) :
    CallsLongInteger st (sup.turnWorld id st s.world) ↔ CallsLongInteger st s.world := by
  obtain ⟨journal, hw⟩ := sup.turnWorld_eq id st s.world
  rw [hw]
  exact Iff.rfl

/-- A call of an integer that is too long ends the pass where it is. The thread has lost the step,
and nothing else has changed. -/
theorem Session.visit_of_callsLongInteger {sup : Supervision} (hid : s.active[p.visited]? = some id)
    (hbudget : budget.any (· ≤ (p.executed : Int)) = false) (ready : s.Ready id t st q)
    (hlog : sup.refusal? st = none) (hlong : CallsLongInteger st s.world) :
    s.visit sup budget p = .broken (.breakdown .integerTooLong)
      (s.replace id { t with queue := q } (sup.turnWorld id st s.world)) := by
  rw [visit_of_ready hid hbudget ready hlog,
    step_of_callsLongInteger ((callsLongInteger_turnWorld sup).mpr hlong)]

end Visits

/-! ## Code in a session -/

/-- All code in a session has the property. -/
structure Session.CodeIn (P : Expr → Prop) (s : Session) : Prop where
  world : s.world.CodeIn P
  thread : ∀ {i : Nat} {t : Thread}, s.threads[i]? = some t →
    t.current.CodeIn P ∧ ∀ st ∈ t.queue, st.CodeIn P

section Code

variable {P : Expr → Prop} {s s' : Session} {w w' : World}

theorem World.CodeIn.journal (h : w.CodeIn P) (hw : ∃ journal, w' = { w with journal }) :
    w'.CodeIn P := by
  obtain ⟨journal, rfl⟩ := hw
  exact ⟨h.frame, h.call⟩

theorem codeIn_isInvariant (hP : Hereditary P) :
    IsInvariant (World.CodeIn P) fun _ v q ↦ v.CodeIn P ∧ ∀ st ∈ q, st.CodeIn P where
  worldNoted hw := hw.journal ⟨_, rfl⟩
  threadNoted ht := ht
  emptied ht := ⟨ht.1, List.forall_mem_nil _⟩
  world hw ht hstep := by
    obtain ⟨hst, hq⟩ := List.forall_mem_cons.mp ht.2
    exact (step_codeIn hP hst ht.1 hq hw hstep).1
  own hw ht hstep := by
    obtain ⟨hst, hq⟩ := List.forall_mem_cons.mp ht.2
    exact (step_codeIn hP hst ht.1 hq hw hstep).2 _ _ rfl
  others _ _ _ hu := hu

theorem codeIn_preservedByVisits (hP : Hereditary P) {sup : Supervision}
    (hsup : sup.SpawnsNothing) :
    Session.PreservedByVisits sup fun _ _ s ↦ s.CodeIn P := by
  have hholds : ∀ s : Session, s.CodeIn P ↔
      s.Holds (World.CodeIn P) fun _ v q ↦ v.CodeIn P ∧ ∀ st ∈ q, st.CodeIn P :=
    fun s ↦ ⟨fun h ↦ ⟨h.world, h.thread⟩, fun h ↦ ⟨h.world, h.thread⟩⟩
  simp only [hholds]
  exact (codeIn_isInvariant hP).preservedByVisits hsup

theorem Session.codeIn_spawnAll {jobs : List (List Expr × FrameId)} (hw : w.CodeIn P)
    (hjobs : ∀ job ∈ jobs, ∀ e ∈ job.1, P e) :
    (({ world := w } : Session).spawnAll jobs).CodeIn P where
  world := hw.journal (world_spawnAll _ _)
  thread {i t} ht := by
    rw [threads_spawnAll] at ht
    simp only [Array.empty_append, List.getElem?_toArray, List.getElem?_mapIdx,
      Option.map_eq_some_iff] at ht
    obtain ⟨job, hjob, rfl⟩ := ht
    refine ⟨trivial, fun st hst ↦ ?_⟩
    obtain ⟨e, he, rfl⟩ := List.mem_map.mp hst
    exact hjobs job (List.mem_of_getElem? hjob) e he

end Code

theorem Supervision.recording_spawnsNothing (log : Option Log) :
    (Supervision.recording log).SpawnsNothing := by
  intro h hh s id e r hr
  cases hh
  cases hr

/-! ## Breakdowns -/

/-- Where all code can be written, a pass is ended by a log that breaks off or by a call of an
integer that is too long, and by nothing else. -/
theorem Session.refused_or_callsLongInteger_of_broken {log : Option Log} {budget : Option Int}
    {p : Progress} {s s' : Session} {f : Fault} (h : s.CodeIn Writable)
    (hvisit : s.visit (.recording log) budget p = .broken f s') :
    ∃ id t st q, s.active[p.visited]? = some id ∧ s.Ready id t st q ∧
      ((∃ b, (Supervision.recording log).refusal? st = some b ∧ f = .breakdown b ∧ s' = s) ∨
        (Supervision.recording log).refusal? st = none ∧ CallsLongInteger st s.world ∧
          f = .breakdown .integerTooLong ∧
          s' = s.replace id { t with queue := q }
            ((Supervision.recording log).turnWorld id st s.world)) := by
  cases visited_of_visit hvisit with
  | raised _ _ _ _ htell =>
    -- who only records raises nothing
    cases htell
  | @brokenDown id t st q b w hid _ ready hstep hlog =>
    have hst : st.CodeIn Writable := (h.thread ready.thread).2 st (by rw [ready.queue]; simp)
    obtain ⟨rfl, rfl, hlong⟩ := (step_breakdown_iff hst).mp hstep
    exact ⟨id, t, st, q, hid, ready,
      .inr ⟨hlog, (callsLongInteger_turnWorld _).mp hlong, rfl, rfl⟩⟩
  | @unlogged id t st q b hid _ ready hlog =>
    exact ⟨id, t, st, q, hid, ready, .inl ⟨b, hlog, rfl, rfl⟩⟩

theorem Session.exists_next_of_not_callsLongInteger {log : Option Log} {budget : Option Int}
    {p : Progress} {s : Session} {id : Nat} {t : Thread} {st : Step} {q : Queue}
    (h : s.CodeIn Writable) (hid : s.active[p.visited]? = some id)
    (hbudget : budget.any (· ≤ (p.executed : Int)) = false) (ready : s.Ready id t st q)
    (hlog : (Supervision.recording log).refusal? st = none)
    (hshort : ¬CallsLongInteger st s.world) :
    ∃ p' s', s.visit (.recording log) budget p = .next p' s' := by
  cases hvisit : s.visit (.recording log) budget p with
  | next p' s' => exact ⟨p', s', rfl⟩
  | finished n s' =>
    cases visited_of_visit hvisit with
    | allVisited hid' => rw [hid] at hid'; cases hid'
    | cut _ hbudget' => rw [hbudget] at hbudget'; cases hbudget'
  | broken f s' =>
    obtain ⟨id', t', st', q', hid', ready', hcause⟩ :=
      refused_or_callsLongInteger_of_broken h hvisit
    cases hid.symm.trans hid'
    cases ready.thread.symm.trans ready'.thread
    cases ready.queue.symm.trans ready'.queue
    rcases hcause with ⟨b, hrefused, -⟩ | ⟨-, hlong, -⟩
    · rw [hlog] at hrefused
      cases hrefused
    · exact absurd hlong hshort

/-! ## Programs read from text -/

/-- **Failures stay alone, but for calls of long integers.** Programs that were read from text run
as threads, in any frames, and failures are recorded.

A pass or run gives out a fault only where a thread came to call an integer that is too long, or
where the log broke off. In the first case the fault is that the integer cannot be written, and the
thread is left with its error unmarked; in the second it is what the log raised, and nothing was
done. Without a log, or with one that takes every note, there is the first case only.

In every visit where a thread takes a step there are as many cases. If the log breaks off, or takes
the note and the step calls an integer that is too long, the pass ends there with that fault. If
not, the pass goes on; and if the step fails, then exactly this thread is marked as failed, loses
its queue, is retired and is reported once, and nothing else changes. -/
theorem failures_stay_alone_but_for_long_callees {w : World} (hw : w.CodeIn Writable)
    {jobs : List (List Expr × FrameId)} (hjobs : ∀ job ∈ jobs, ∃ source, parse source = .ok job.1)
    (log : Option Log) :
    (∀ {turns : List Turn} {f : Fault} {s' : Session},
      Session.Calls (.recording log) (({ world := w } : Session).spawnAll jobs) turns (.failed f)
        s' →
      ∃ turns' p s id t st q,
        Session.Underway (.recording log) (({ world := w } : Session).spawnAll jobs) turns' p s ∧
        s.active[p.visited]? = some id ∧ s.Ready id t st q ∧
        ((∃ b, (Supervision.recording log).refusal? st = some b ∧ f = .breakdown b ∧ s' = s) ∨
          (Supervision.recording log).refusal? st = none ∧ CallsLongInteger st s.world ∧
            f = .breakdown .integerTooLong ∧
            s' = s.replace id { t with queue := q }
              ((Supervision.recording log).turnWorld id st s.world))) ∧
    ∀ {turns : List Turn} {p : Progress} {s : Session} {budget : Option Int} {id : Nat}
      {t : Thread} {st : Step} {q : Queue},
      Session.Underway (.recording log) (({ world := w } : Session).spawnAll jobs) turns p s →
      s.active[p.visited]? = some id → budget.any (· ≤ (p.executed : Int)) = false →
      s.Ready id t st q →
      (∀ b, (Supervision.recording log).refusal? st = some b → ∀ fuel,
        Session.passFrom (.recording log) budget (fuel + 1) p s = (.failed (.breakdown b), s)) ∧
      ((Supervision.recording log).refusal? st = none → CallsLongInteger st s.world → ∀ fuel,
        Session.passFrom (.recording log) budget (fuel + 1) p s =
          (.failed (.breakdown .integerTooLong), s.replace id { t with queue := q }
            ((Supervision.recording log).turnWorld id st s.world))) ∧
      ((Supervision.recording log).refusal? st = none → ¬CallsLongInteger st s.world →
        ∃ p' s', s.visit (.recording log) budget p = .next p' s' ∧
          ∀ e x, step st t.current q ((Supervision.recording log).turnWorld id st s.world)
              = (.error (.program e), x) →
            p' = p.drop ∧ s.FailsAlone id e s') := by
  -- programs were read from texts, so no number in their code is too long to be written
  have hcode : ∀ {turns : List Turn} {p : Progress} {s : Session},
      Session.Underway (.recording log) (({ world := w } : Session).spawnAll jobs) turns p s →
      s.CodeIn Writable := by
    intro turns p s h
    refine h.preserves (codeIn_preservedByVisits hereditary_writable
      (Supervision.recording_spawnsNothing log)) (Session.codeIn_spawnAll hw ?_)
    intro job hjob
    obtain ⟨source, hsource⟩ := hjobs job hjob
    exact isWritable_of_parse hsource
  refine ⟨?_, ?_⟩
  · intro turns f s' hcalls
    obtain ⟨budget, turns', p, s, h, hvisit⟩ := hcalls.exists_broken
    obtain ⟨id, t, st, q, hcause⟩ := Session.refused_or_callsLongInteger_of_broken (hcode h) hvisit
    exact ⟨turns', p, s, id, t, st, q, h, hcause⟩
  · intro turns p s budget id t st q h hid hbudget ready
    refine ⟨fun b hlog fuel ↦ ?_, fun hlog hlong fuel ↦ ?_, fun hlog hshort ↦ ?_⟩
    · rw [Session.passFrom, Session.visit_of_refusal hid hbudget ready hlog]
    · rw [Session.passFrom, Session.visit_of_callsLongInteger hid hbudget ready hlog hlong]
    · obtain ⟨p', s', hvisit⟩ :=
        Session.exists_next_of_not_callsLongInteger (hcode h) hid hbudget ready hlog hshort
      refine ⟨p', s', hvisit, fun e x hstep ↦ ?_⟩
      obtain ⟨s₁, hvisit₁, hfails⟩ := Session.visit_of_program_error hid hbudget ready hlog hstep
      rw [hvisit] at hvisit₁
      cases hvisit₁
      exact ⟨rfl, hfails⟩

/-- A program that raises `100000` to the power of `1000` and calls the result. -/
def longCall : List Expr :=
  let tenthPower := .compound (.reference "*" :: List.replicate 10 (.reference "x"))
  [.compound [.compound [
    .compound [.reference "lambda", .compound [.reference "q"], .compound [.reference "q",
      .compound [.reference "q", .compound [.reference "q", .number 100000]]]],
    .compound [.reference "lambda", .compound [.reference "x"], tenthPower]]]]

theorem failures_stay_alone_but_for_long_callees_longCall :
    ((Session.fresh.spawnAll [(longCall, World.globalFrame)]).run (.recording none) 200 none).1
        = .failed (.breakdown .integerTooLong) ∧
      ∃ turns p s id t st q, Session.Underway (.recording none)
          (Session.fresh.spawnAll [(longCall, World.globalFrame)]) turns p s ∧
        s.active[p.visited]? = some id ∧ s.Ready id t st q ∧ CallsLongInteger st s.world := by
  have hread : (parse "(((lambda (q) (q (q (q 100000)))) (lambda (x) (* x x x x x x x x x x))))"
      ).toOption = some longCall := by decide +kernel
  have hjobs : ∀ job ∈ [(longCall, World.globalFrame)], ∃ source, parse source = .ok job.1 := by
    intro job hjob
    rw [List.mem_singleton.mp hjob]
    cases hparse : parse "(((lambda (q) (q (q (q 100000)))) (lambda (x) (* x x x x x x x x x x))))"
      with
    | error f => rw [hparse] at hread; cases hread
    | ok program =>
      rw [hparse] at hread
      cases hread
      exact ⟨_, hparse⟩
  have hrun : ((Session.fresh.spawnAll [(longCall, World.globalFrame)]).run (.recording none) 200
      none).1 = .failed (.breakdown .integerTooLong) := by decide +kernel
  have hcalls := Session.Calls.run (.start : Session.Calls (.recording none)
    (Session.fresh.spawnAll [(longCall, World.globalFrame)]) _ _ _) 200 none
  rw [hrun] at hcalls
  obtain ⟨turns, p, s, id, t, st, q, h, hid, ready, ⟨b, hlog, -⟩ | ⟨-, hlong, -⟩⟩ :=
    (failures_stay_alone_but_for_long_callees (World.fresh_codeIn _) hjobs none).1 hcalls
  · cases hlog
  · exact ⟨hrun, turns, p, s, id, t, st, q, h, hid, ready, hlong⟩

end Interleave

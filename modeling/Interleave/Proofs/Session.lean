import Interleave.Proofs.Step
import Interleave.Session.Run

/-!
# What visits, passes and runs do

Everything that a session does to its threads it does in visits. `Session.Visited` lists the cases
of a visit, each with what was found and what is left behind, and `visited_visit` says that there
are no others. Later results argue by these cases and do not look into the definitions again.

A pass is a sequence of visits and a run a sequence of passes. What every visit preserves therefore
holds after every sequence of passes and runs (`Session.Calls.preserves`), and at every visit on the
way (`Session.Underway.preserves`). Both are stated with the turns taken, so that what is preserved
may speak of the past: `Session.passTurns` and `Session.runTurns` list the steps that threads took,
failing ones included, each with the thread that took it and the texts that it printed.

## Logs

A visit in which a step is to be taken begins with the log. If the log breaks off, the visit is
broken and nothing has happened (`visit_of_refusal`). That is one of the cases of a visit, and the
cases in which a step was taken all say that the log let it pass. A session without a log, or with
one that takes every step of every thread (`Supervision.IsLenient`), never meets the first case.
-/

namespace Interleave

/-! ## The cases of a visit -/

/-- What the log raises when it is shown a step of a thread. -/
def Supervision.refusal? (sup : Supervision) (st : Step) : Option Breakdown :=
  sup.log.bind (· st none)

/-- The log takes every step of every thread. -/
def Supervision.IsLenient (sup : Supervision) : Prop :=
  ∀ st, sup.refusal? st = none

/-- The world in which a thread takes its step: a traced step was noted before. -/
def Supervision.turnWorld (sup : Supervision) (id : Nat) (st : Step) (w : World) : World :=
  if sup.log.isSome then w.note (.turn id st) else w

theorem Supervision.trace_turn (sup : Supervision) (id : Nat) (st : Step) (w : World) :
    w.trace sup.log (.turn id st) =
      match sup.refusal? st with
      | none => .ok (sup.turnWorld id st w)
      | some b => .error b := by
  rw [refusal?, turnWorld]
  cases sup.log <;> rfl

theorem Supervision.reports_turnWorld (sup : Supervision) (id : Nat) (st : Step) (w : World) :
    (sup.turnWorld id st w).reports = w.reports := by
  rw [turnWorld]
  split
  · exact (World.reports_note _ _).trans (List.append_nil _)
  · rfl

theorem Supervision.turnWorld_eq (sup : Supervision) (id : Nat) (st : Step) (w : World) :
    ∃ journal, sup.turnWorld id st w = { w with journal } := by
  rw [turnWorld]
  split
  · exact ⟨_, rfl⟩
  · exact ⟨w.journal, rfl⟩

theorem Supervision.printed_turnWorld (sup : Supervision) (id : Nat) (st : Step) (w : World) :
    (sup.turnWorld id st w).printed = w.printed := by
  obtain ⟨journal, hw⟩ := sup.turnWorld_eq id st w
  rw [hw]

namespace Session

/-- The session with another thread of that number and another world. -/
def replace (s : Session) (id : Nat) (t : Thread) (w : World) : Session :=
  { s with world := w, threads := s.threads.setIfInBounds id t }

/-! ### Threads and reports after an operation -/

theorem getElem?_threads_replace {s : Session} {id : Nat} (hid : id < s.threads.size) (t : Thread)
    (w : World) (j : Nat) :
    (s.replace id t w).threads[j]? = if id = j then some t else s.threads[j]? := by
  rw [replace, Array.getElem?_setIfInBounds]
  by_cases hj : id = j
  · rw [if_pos hj, if_pos hj, if_pos (hj ▸ hid)]
  · rw [if_neg hj, if_neg hj]

theorem getElem?_threads_retire (s : Session) (id j : Nat) :
    (s.retire id).threads[j]? =
      if id = j then s.threads[j]?.map ({ · with isRetired := true }) else s.threads[j]? :=
  Array.getElem?_modify

theorem getElem?_threads_fail (s : Session) (id : Nat) (e : ProgramError) (j : Nat) :
    (s.fail id e).threads[j]? =
      if id = j then
        s.threads[j]?.map ({ · with queue := [], error := some e, isRetired := true })
      else s.threads[j]? := by
  rw [fail, getElem?_threads_retire, Array.getElem?_modify]
  by_cases hj : id = j
  · simp only [hj, if_true, Option.map_map]
    rfl
  · simp only [hj, if_false]

theorem reports_retire (s : Session) (id : Nat) :
    (s.retire id).world.reports = s.world.reports :=
  (World.reports_note _ _).trans (List.append_nil _)

theorem reports_fail (s : Session) (id : Nat) (e : ProgramError) :
    (s.fail id e).world.reports = s.world.reports :=
  reports_retire _ id

/-! ### What a visit finds -/

/-- A thread that takes a step when it is visited: it has one to take and was not cancelled. -/
structure Ready (s : Session) (id : Nat) (t : Thread) (st : Step) (q : Queue) : Prop where
  thread : s.threads[id]? = some t
  notCancelled : t.isCancelled = false
  queue : t.queue = st :: q

/-- What can come of a visit. -/
inductive Visited (sup : Supervision) (budget : Option Int) (p : Progress) (s : Session) :
    Visit → Prop where
  /-- There is nobody left to visit. -/
  | allVisited (hid : s.active[p.visited]? = none) :
    Visited sup budget p s (.finished p.executed { s with active := p.kept })
  /-- The budget is used up. -/
  | cut {id : Nat} (hid : s.active[p.visited]? = some id)
    (hbudget : budget.any (· ≤ (p.executed : Int)) = true) :
    Visited sup budget p s
      (.finished p.executed { s with active := p.kept ++ s.active.extract p.visited })
  /-- The thread is retired without a step. -/
  | idle {id : Nat} (hid : s.active[p.visited]? = some id)
    (hbudget : budget.any (· ≤ (p.executed : Int)) = false) (hidle : s.isIdle id = true) :
    Visited sup budget p s (.next p.skip (s.retire id))
  /-- The thread takes a step and has more to do. -/
  | kept {id : Nat} {t : Thread} {st : Step} {q q' : Queue} {v : Value} {w : World}
    (hid : s.active[p.visited]? = some id)
    (hbudget : budget.any (· ≤ (p.executed : Int)) = false) (ready : s.Ready id t st q)
    (hstep : Machine.step st t.current q (sup.turnWorld id st s.world) = (.ok (v, q'), w))
    (hq : q' ≠ []) (hlog : sup.refusal? st = none) :
    Visited sup budget p s (.next (p.keep id)
      (s.replace id { t with current := v, queue := q', steps := t.steps + 1 } w))
  /-- The thread takes its last step and is retired. -/
  | ended {id : Nat} {t : Thread} {st : Step} {q : Queue} {v : Value} {w : World}
    (hid : s.active[p.visited]? = some id)
    (hbudget : budget.any (· ≤ (p.executed : Int)) = false) (ready : s.Ready id t st q)
    (hstep : Machine.step st t.current q (sup.turnWorld id st s.world) = (.ok (v, []), w))
    (hlog : sup.refusal? st = none) :
    Visited sup budget p s (.next p.drop
      ((s.replace id { t with current := v, queue := [], steps := t.steps + 1 } w).retire id))
  /-- The step of the thread fails, and those who are told of it do not object. -/
  | failed {id : Nat} {t : Thread} {st : Step} {q : Queue} {e : ProgramError} {w : World}
    {s' : Session} (hid : s.active[p.visited]? = some id)
    (hbudget : budget.any (· ≤ (p.executed : Int)) = false) (ready : s.Ready id t st q)
    (hstep : Machine.step st t.current q (sup.turnWorld id st s.world) = (.error (.program e), w))
    (htell : tell sup.handler id e ((s.replace id { t with queue := q } w).fail id e)
      = (none, s')) (hlog : sup.refusal? st = none) :
    Visited sup budget p s (.next p.drop s')
  /-- The step of the thread fails, and the handler raises a fault. -/
  | raised {id : Nat} {t : Thread} {st : Step} {q : Queue} {e : ProgramError} {w : World}
    {f : Fault} {s' : Session} (hid : s.active[p.visited]? = some id)
    (hbudget : budget.any (· ≤ (p.executed : Int)) = false) (ready : s.Ready id t st q)
    (hstep : Machine.step st t.current q (sup.turnWorld id st s.world) = (.error (.program e), w))
    (htell : tell sup.handler id e ((s.replace id { t with queue := q } w).fail id e)
      = (some f, s')) (hlog : sup.refusal? st = none) :
    Visited sup budget p s (.broken f s')
  /-- The step of the thread breaks down. -/
  | brokenDown {id : Nat} {t : Thread} {st : Step} {q : Queue} {b : Breakdown} {w : World}
    (hid : s.active[p.visited]? = some id)
    (hbudget : budget.any (· ≤ (p.executed : Int)) = false) (ready : s.Ready id t st q)
    (hstep : Machine.step st t.current q (sup.turnWorld id st s.world)
      = (.error (.breakdown b), w)) (hlog : sup.refusal? st = none) :
    Visited sup budget p s (.broken (.breakdown b) (s.replace id { t with queue := q } w))
  /-- The log breaks off, and the thread has not taken its step. -/
  | unlogged {id : Nat} {t : Thread} {st : Step} {q : Queue} {b : Breakdown}
    (hid : s.active[p.visited]? = some id)
    (hbudget : budget.any (· ≤ (p.executed : Int)) = false) (ready : s.Ready id t st q)
    (hlog : sup.refusal? st = some b) :
    Visited sup budget p s (.broken (.breakdown b) s)

variable {sup : Supervision} {budget : Option Int} {p : Progress} {s : Session}

/-- A thread that is not idle is there, was not cancelled and has a step to take. -/
theorem exists_ready_of_not_isIdle {id : Nat} (h : s.isIdle id = false) :
    ∃ t st q, s.Ready id t st q := by
  rw [isIdle] at h
  cases ht : s.threads[id]? with
  | none => rw [ht] at h; cases h
  | some t =>
    rw [ht, Option.all_some, Bool.or_eq_false_iff] at h
    cases hq : t.queue with
    | nil => rw [hq] at h; cases h.2
    | cons st q => exact ⟨t, st, q, ht, h.1, hq⟩

theorem exists_journal_of_traceTurn {log : Option Log} {id : Nat} {s' : Session}
    (h : s.traceTurn log id = .ok s') :
    s'.threads = s.threads ∧ ∃ journal, s'.world = { s.world with journal } := by
  rw [traceTurn] at h
  split at h
  · rename_i st _
    cases htrace : s.world.trace log (.turn id st) with
    | error b =>
      rw [htrace] at h
      cases h
    | ok w =>
      rw [htrace] at h
      cases h
      exact ⟨rfl, World.exists_journal_of_trace htrace⟩
  · cases h
    exact ⟨rfl, s.world.journal, rfl⟩

theorem traceTurn_of_ready {id : Nat} {t : Thread} {st : Step} {q : Queue}
    (h : s.Ready id t st q) :
    s.traceTurn sup.log id =
      match sup.refusal? st with
      | none => .ok { s with world := sup.turnWorld id st s.world }
      | some b => .error b := by
  rw [traceTurn, h.thread, Option.bind_some, h.queue, List.head?_cons]
  dsimp only
  rw [sup.trace_turn]
  cases sup.refusal? st <;> rfl

/-- The step of a visited thread is the step of the machine, in the world of the turn. -/
theorem stepThread_of_ready {id : Nat} {t : Thread} {st : Step} {q : Queue}
    (h : s.Ready id t st q) (w : World) :
    stepThread { s with world := w } id =
      match Machine.step st t.current q w with
      | (.ok (v, q'), w') =>
        (.ok (), s.replace id { t with current := v, queue := q', steps := t.steps + 1 } w')
      | (.error f, w') => (.error f, s.replace id { t with queue := q } w') := by
  rw [stepThread]
  simp only [h.thread, Thread.step, h.queue]
  rcases Machine.step st t.current q w with ⟨f | ⟨v, q'⟩, w'⟩ <;> rfl

/-- After its step a thread has more to do if the step left a queue. -/
theorem hasSteps_replace {id : Nat} {t t' : Thread} {st : Step} {q : Queue} {w : World}
    (h : s.Ready id t st q) : (s.replace id t' w).hasSteps id = !t'.queue.isEmpty := by
  have hlt : id < s.threads.size := (Array.getElem?_eq_some_iff.mp h.thread).1
  rw [hasSteps, replace, Array.getElem?_setIfInBounds_self_of_lt hlt, Option.any_some]

theorem isIdle_of_ready {id : Nat} {t : Thread} {st : Step} {q : Queue} (h : s.Ready id t st q) :
    s.isIdle id = false := by
  rw [isIdle, h.thread, Option.all_some, h.notCancelled, h.queue]
  rfl

theorem visit_of_refusal {id : Nat} {t : Thread} {st : Step} {q : Queue} {b : Breakdown}
    (hid : s.active[p.visited]? = some id)
    (hbudget : budget.any (· ≤ (p.executed : Int)) = false) (ready : s.Ready id t st q)
    (hlog : sup.refusal? st = some b) :
    s.visit sup budget p = .broken (.breakdown b) s := by
  rw [visit, hid]
  simp only [hbudget, isIdle_of_ready ready, Bool.false_eq_true, if_false, turn,
    traceTurn_of_ready ready, hlog]

/-- A thread that takes a step when it is visited decides by it what comes of the visit. -/
theorem visit_of_ready {id : Nat} {t : Thread} {st : Step} {q : Queue}
    (hid : s.active[p.visited]? = some id)
    (hbudget : budget.any (· ≤ (p.executed : Int)) = false) (ready : s.Ready id t st q)
    (hlog : sup.refusal? st = none) :
    s.visit sup budget p =
      match Machine.step st t.current q (sup.turnWorld id st s.world) with
      | (.ok (v, []), w) => .next p.drop
        ((s.replace id { t with current := v, queue := [], steps := t.steps + 1 } w).retire id)
      | (.ok (v, q'), w) => .next (p.keep id)
        (s.replace id { t with current := v, queue := q', steps := t.steps + 1 } w)
      | (.error (.program e), w) =>
        match tell sup.handler id e ((s.replace id { t with queue := q } w).fail id e) with
        | (none, s') => .next p.drop s'
        | (some f, s') => .broken f s'
      | (.error (.breakdown b), w) =>
        .broken (.breakdown b) (s.replace id { t with queue := q } w) := by
  rw [visit, hid]
  simp only [hbudget, isIdle_of_ready ready, Bool.false_eq_true, if_false, turn,
    traceTurn_of_ready ready, hlog, stepThread_of_ready ready]
  rcases Machine.step st t.current q (sup.turnWorld id st s.world) with ⟨⟨e | b⟩ | ⟨v, q'⟩, w⟩
  · rfl
  · rfl
  · dsimp only
    rw [hasSteps_replace ready]
    cases q' <;> rfl

theorem visited_visit (sup : Supervision) (budget : Option Int) (p : Progress) (s : Session) :
    Visited sup budget p s (s.visit sup budget p) := by
  cases hid : s.active[p.visited]? with
  | none =>
    rw [visit, hid]
    exact .allVisited hid
  | some id =>
    by_cases hbudget : budget.any (· ≤ (p.executed : Int)) = true
    · rw [visit, hid]
      simp only [hbudget, if_true]
      exact .cut hid hbudget
    rw [Bool.not_eq_true] at hbudget
    by_cases hidle : s.isIdle id = true
    · rw [visit, hid]
      simp only [hbudget, hidle, if_true, Bool.false_eq_true, if_false]
      exact .idle hid hbudget hidle
    rw [Bool.not_eq_true] at hidle
    obtain ⟨t, st, q, ready⟩ := exists_ready_of_not_isIdle hidle
    -- from here on a step is to be taken, if the log lets it pass
    cases hlog : sup.refusal? st with
    | some b =>
      rw [visit_of_refusal hid hbudget ready hlog]
      exact .unlogged hid hbudget ready hlog
    | none =>
      rw [visit_of_ready hid hbudget ready hlog]
      rcases hstep : Machine.step st t.current q (sup.turnWorld id st s.world)
        with ⟨⟨e | b⟩ | ⟨v, q'⟩, w⟩
      · dsimp only
        rcases htell : tell sup.handler id e ((s.replace id { t with queue := q } w).fail id e)
          with ⟨_ | f, s'⟩
        · exact .failed hid hbudget ready hstep htell hlog
        · exact .raised hid hbudget ready hstep htell hlog
      · exact .brokenDown hid hbudget ready hstep hlog
      · cases q' with
        | nil => exact .ended hid hbudget ready hstep hlog
        | cons st' q' => exact .kept hid hbudget ready hstep (List.cons_ne_nil _ _) hlog

theorem visited_of_visit {r : Visit} (h : s.visit sup budget p = r) :
    Visited sup budget p s r :=
  h ▸ visited_visit sup budget p s

end Session

/-! ## Turns -/

/-- A step that a thread took, with the texts that it printed. -/
structure Turn where
  /-- The number of the thread. -/
  thread : Nat
  /-- The texts printed by the step. -/
  texts : List String
  deriving DecidableEq

namespace Turn

/-- The texts that a thread printed. -/
def textsBy (id : Nat) (turns : List Turn) : List String :=
  (turns.filter (·.thread = id)).flatMap Turn.texts

theorem textsBy_snoc_self (id : Nat) (turns : List Turn) (texts : List String) :
    textsBy id (turns ++ [⟨id, texts⟩]) = textsBy id turns ++ texts := by
  simp [textsBy]

theorem textsBy_snoc_of_ne {id id' : Nat} (hne : id ≠ id') (turns : List Turn)
    (texts : List String) : textsBy id' (turns ++ [⟨id, texts⟩]) = textsBy id' turns := by
  simp [textsBy, hne]

def countBy (id : Nat) (turns : List Turn) : Nat :=
  turns.countP (·.thread = id)

theorem countBy_snoc_self (id : Nat) (turns : List Turn) (texts : List String) :
    countBy id (turns ++ [⟨id, texts⟩]) = countBy id turns + 1 := by
  simp [countBy]

theorem countBy_snoc_of_ne {id id' : Nat} (hne : id ≠ id') (turns : List Turn)
    (texts : List String) : countBy id' (turns ++ [⟨id, texts⟩]) = countBy id' turns := by
  simp [countBy, hne]

end Turn

namespace Session

def textsSince (s s' : Session) : List String :=
  s'.world.printed.toList.drop s.world.printed.size

/-- The turn taken in a visit, if there is one. -/
def visitTurns (sup : Supervision) (budget : Option Int) (p : Progress) (s : Session) :
    List Turn :=
  match s.visit sup budget p with
  | .next p' s' =>
    if p.executed < p'.executed then [⟨s.active[p.visited]?.getD 0, s.textsSince s'⟩] else []
  | .finished .. | .broken .. => []

theorem textsSince_of_append {s s' : Session} {texts : Array String}
    (h : s'.world.printed = s.world.printed ++ texts) : s.textsSince s' = texts.toList := by
  rw [textsSince, h, Array.toList_append, ← Array.length_toList, List.drop_left]

theorem visitTurns_of_skip {sup : Supervision} {budget : Option Int} {p : Progress}
    {s s' : Session} (h : s.visit sup budget p = .next p.skip s') :
    s.visitTurns sup budget p = [] := by
  simp only [visitTurns, h]
  exact if_neg (Nat.lt_irrefl _)

theorem visitTurns_of_executed {sup : Supervision} {budget : Option Int} {p p' : Progress}
    {s s' : Session} {id : Nat} {texts : Array String}
    (h : s.visit sup budget p = .next p' s') (hid : s.active[p.visited]? = some id)
    (hexecuted : p'.executed = p.executed + 1)
    (hprinted : s'.world.printed = s.world.printed ++ texts) :
    s.visitTurns sup budget p = [⟨id, texts.toList⟩] := by
  simp only [visitTurns, h, hid, hexecuted, Option.getD_some, textsSince_of_append hprinted]
  exact if_pos (Nat.lt_succ_self _)

/-- The turns taken from some point of a pass on. -/
def passTurns (sup : Supervision) (budget : Option Int) :
    (fuel : Nat) → Progress → Session → List Turn
  | 0, _, _ => []
  | fuel + 1, p, s =>
    s.visitTurns sup budget p ++
      match s.visit sup budget p with
      | .next p' s' => passTurns sup budget fuel p' s'
      | .finished .. | .broken .. => []

/-- The turns taken by a run after `executed` steps. -/
def runTurnsFrom (sup : Supervision) (budget : Option Int) :
    (fuel executed : Nat) → Session → List Turn
  | 0, _, _ => []
  | fuel + 1, executed, s =>
    let left := budget.map (· - (executed : Int))
    if s.isDone || left.any (· ≤ 0) then []
    else
      passTurns sup left fuel {} s ++
        match s.pass sup fuel left with
        | (.done n, s') => runTurnsFrom sup budget fuel (executed + n) s'
        | _ => []

def runTurns (sup : Supervision) (fuel : Nat) (budget : Option Int) (s : Session) : List Turn :=
  runTurnsFrom sup budget fuel 0 s

/-! ## What visits preserve -/

section Preserves

variable {sup : Supervision} {budget : Option Int} {p : Progress} {s s' : Session}
  {P : List Turn → Progress → Session → Prop}

/-- A property of the turns taken, of how far the pass has come and of the session, which every
visit preserves. Between passes it holds of a pass that has not begun. -/
structure PreservedByVisits (sup : Supervision) (P : List Turn → Progress → Session → Prop) :
    Prop where
  /-- It holds when the pass goes on. -/
  next : ∀ {budget : Option Int} {turns : List Turn} {p p' : Progress} {s s' : Session},
    P turns p s → s.visit sup budget p = .next p' s' → P (turns ++ s.visitTurns sup budget p) p' s'
  /-- It holds when the pass is over. -/
  finished : ∀ {budget : Option Int} {turns : List Turn} {p : Progress} {n : Nat} {s s' : Session},
    P turns p s → s.visit sup budget p = .finished n s' → P turns {} s'

theorem passFrom_preserves (hP : PreservedByVisits sup P) {fuel : Nat} (turns : List Turn)
    {o : Outcome Nat} (h : P turns p s) (hpass : passFrom sup budget fuel p s = (o, s'))
    (ho : ∀ f, o ≠ .failed f) :
    ∃ p', P (turns ++ passTurns sup budget fuel p s) p' s' ∧ (o ≠ .outOfFuel → p' = {}) := by
  induction fuel generalizing turns p s with
  | zero =>
    cases hpass
    exact ⟨p, by rwa [passTurns, List.append_nil], fun hne ↦ absurd rfl hne⟩
  | succ fuel ih =>
    rw [passFrom] at hpass
    rw [passTurns]
    cases hv : s.visit sup budget p with
    | next p₁ s₁ =>
      simp only [hv] at hpass
      obtain ⟨p', hp', hend⟩ := ih _ (hP.next h hv) hpass
      exact ⟨p', by rwa [← List.append_assoc], hend⟩
    | finished n s₁ =>
      simp only [hv, Prod.mk.injEq] at hpass
      obtain ⟨rfl, rfl⟩ := hpass
      refine ⟨{}, ?_, fun _ ↦ rfl⟩
      rw [visitTurns, hv, List.append_nil, List.append_nil]
      exact hP.finished h hv
    | broken f s₁ =>
      simp only [hv, Prod.mk.injEq] at hpass
      exact absurd hpass.1.symm (ho f)

theorem runFrom_preserves (hP : PreservedByVisits sup P) {fuel executed : Nat} (turns : List Turn)
    {o : Outcome Nat} (h : P turns {} s)
    (hrun : runFrom sup budget fuel executed s = (o, s')) (ho : ∀ f, o ≠ .failed f) :
    ∃ p', P (turns ++ runTurnsFrom sup budget fuel executed s) p' s' ∧
      (o ≠ .outOfFuel → p' = {}) := by
  induction fuel generalizing turns executed s with
  | zero =>
    cases hrun
    exact ⟨{}, by rwa [runTurnsFrom, List.append_nil], fun _ ↦ rfl⟩
  | succ fuel ih =>
    rw [runFrom] at hrun
    rw [runTurnsFrom]
    by_cases hdone : s.isDone || (budget.map (· - (executed : Int))).any (· ≤ 0)
    · simp only [hdone, if_true, Prod.mk.injEq] at hrun ⊢
      obtain ⟨rfl, rfl⟩ := hrun
      exact ⟨{}, by rwa [List.append_nil], fun _ ↦ rfl⟩
    · simp only [hdone, Bool.false_eq_true, if_false] at hrun ⊢
      rcases hpass : s.pass sup fuel (budget.map (· - (executed : Int))) with ⟨n | f | _, s₁⟩
      · -- the pass is over, and the next one has not begun
        obtain ⟨p₁, hp₁, hend⟩ := passFrom_preserves hP _ h hpass (by simp)
        cases hend (by simp)
        simp only [hpass] at hrun ⊢
        rw [← List.append_assoc]
        exact ih _ hp₁ hrun
      · simp only [hpass, Prod.mk.injEq] at hrun
        exact absurd hrun.1.symm (ho f)
      · obtain ⟨p₁, hp₁, -⟩ := passFrom_preserves hP _ h hpass (by simp)
        simp only [hpass, Prod.mk.injEq] at hrun ⊢
        obtain ⟨rfl, rfl⟩ := hrun
        exact ⟨p₁, by rwa [List.append_nil], fun hne ↦ absurd rfl hne⟩

/-! ## Calls -/

/-- Where visits lead to, one after the other: the turns taken, how far the pass has come, and the
session then. The budget may be another one at every visit. -/
inductive Underway (sup : Supervision) (s₀ : Session) :
    List Turn → Progress → Session → Prop where
  | start : Underway sup s₀ [] {} s₀
  | next {budget : Option Int} {turns : List Turn} {p p' : Progress} {s s' : Session}
    (h : Underway sup s₀ turns p s) (hvisit : s.visit sup budget p = .next p' s') :
    Underway sup s₀ (turns ++ s.visitTurns sup budget p) p' s'
  | finished {budget : Option Int} {turns : List Turn} {p : Progress} {n : Nat} {s s' : Session}
    (h : Underway sup s₀ turns p s) (hvisit : s.visit sup budget p = .finished n s') :
    Underway sup s₀ turns {} s'

theorem underway_preservedByVisits (sup : Supervision) (s₀ : Session) :
    PreservedByVisits sup (Underway sup s₀) :=
  ⟨.next, .finished⟩

theorem Underway.preserves (hP : PreservedByVisits sup P) {s₀ : Session} {turns : List Turn}
    (h : Underway sup s₀ turns p s) (h₀ : P [] {} s₀) : P turns p s := by
  induction h with
  | start => exact h₀
  | next _ hvisit ih => exact hP.next ih hvisit
  | finished _ hvisit ih => exact hP.finished ih hvisit

/-- What a sequence of passes and runs leads to, one after the other, with any budgets: the turns
taken, how the last of them came out, and the session then. A pass or run that gives out is seen in
the middle of its work, which more fuel would continue; nothing follows it, and nothing follows one
that failed. -/
inductive Calls (sup : Supervision) (s₀ : Session) : List Turn → Outcome Nat → Session → Prop where
  | start : Calls sup s₀ [] (.done 0) s₀
  | pass {turns : List Turn} {n : Nat} {s : Session} (h : Calls sup s₀ turns (.done n) s)
    (fuel : Nat) (budget : Option Int) :
    Calls sup s₀ (turns ++ s.passTurns sup budget fuel {}) (s.pass sup fuel budget).1
      (s.pass sup fuel budget).2
  | run {turns : List Turn} {n : Nat} {s : Session} (h : Calls sup s₀ turns (.done n) s)
    (fuel : Nat) (budget : Option Int) :
    Calls sup s₀ (turns ++ s.runTurns sup fuel budget) (s.run sup fuel budget).1
      (s.run sup fuel budget).2

theorem Calls.preserves (hP : PreservedByVisits sup P) {s₀ : Session} {turns : List Turn}
    {o : Outcome Nat} (h : Calls sup s₀ turns o s) (h₀ : P [] {} s₀) (ho : ∀ f, o ≠ .failed f) :
    ∃ p, P turns p s ∧ (o ≠ .outOfFuel → p = {}) := by
  induction h with
  | start => exact ⟨{}, h₀, fun _ ↦ rfl⟩
  | pass _ fuel budget ih =>
    obtain ⟨p, hp, hend⟩ := ih (by simp)
    cases hend (by simp)
    exact passFrom_preserves hP _ hp rfl ho
  | run _ fuel budget ih =>
    obtain ⟨p, hp, hend⟩ := ih (by simp)
    cases hend (by simp)
    exact runFrom_preserves hP _ hp rfl ho

theorem Calls.underway {s₀ : Session} {turns : List Turn} {n : Nat}
    (h : Calls sup s₀ turns (.done n) s) : Underway sup s₀ turns {} s := by
  obtain ⟨p, hp, hend⟩ := h.preserves (underway_preservedByVisits sup s₀) .start (by simp)
  cases hend (by simp)
  exact hp

theorem exists_broken_of_passFrom {s₀ : Session} {fuel : Nat} {turns : List Turn} {f : Fault}
    (h : Underway sup s₀ turns p s) (hpass : passFrom sup budget fuel p s = (.failed f, s')) :
    ∃ budget turns' p' s₁, Underway sup s₀ turns' p' s₁ ∧
      s₁.visit sup budget p' = .broken f s' := by
  induction fuel generalizing turns p s with
  | zero => cases hpass
  | succ fuel ih =>
    rw [passFrom] at hpass
    cases hv : s.visit sup budget p with
    | next p₁ s₁ =>
      simp only [hv] at hpass
      exact ih (h.next hv) hpass
    | finished n s₁ =>
      simp only [hv] at hpass
      cases hpass
    | broken g s₁ =>
      simp only [hv] at hpass
      cases hpass
      exact ⟨budget, turns, p, s, h, hv⟩

theorem exists_broken_of_runFrom {s₀ : Session} {fuel executed : Nat} {turns : List Turn}
    {f : Fault} (h : Underway sup s₀ turns {} s)
    (hrun : runFrom sup budget fuel executed s = (.failed f, s')) :
    ∃ budget turns' p' s₁, Underway sup s₀ turns' p' s₁ ∧
      s₁.visit sup budget p' = .broken f s' := by
  induction fuel generalizing turns executed s with
  | zero => cases hrun
  | succ fuel ih =>
    rw [runFrom] at hrun
    by_cases hdone : s.isDone || (budget.map (· - (executed : Int))).any (· ≤ 0)
    · simp only [hdone, if_true] at hrun
      cases hrun
    · simp only [hdone, Bool.false_eq_true, if_false] at hrun
      rcases hpass : s.pass sup fuel (budget.map (· - (executed : Int))) with ⟨n | g | _, s₁⟩
      · simp only [hpass] at hrun
        obtain ⟨p₁, hp₁, hend⟩ :=
          passFrom_preserves (underway_preservedByVisits sup s₀) _ h hpass (by simp)
        cases hend (by simp)
        exact ih hp₁ hrun
      · simp only [hpass] at hrun
        cases hrun
        exact exists_broken_of_passFrom h hpass
      · simp only [hpass] at hrun
        cases hrun

theorem Calls.exists_broken {s₀ : Session} {turns : List Turn} {f : Fault}
    (h : Calls sup s₀ turns (.failed f) s) :
    ∃ budget turns' p s₁, Underway sup s₀ turns' p s₁ ∧ s₁.visit sup budget p = .broken f s := by
  generalize ho : (Outcome.failed f : Outcome Nat) = o at h
  cases h with
  | start => cases ho
  | pass h fuel budget => exact exists_broken_of_passFrom h.underway (Prod.ext ho.symm rfl)
  | run h fuel budget => exact exists_broken_of_runFrom h.underway (Prod.ext ho.symm rfl)

end Preserves

/-! ## Making threads -/

/-- Makes a thread for every program, each in a frame. -/
def spawnAll (s : Session) (jobs : List (List Expr × FrameId)) : Session :=
  jobs.foldl (fun s job ↦ s.spawn job.1 job.2) s

theorem threads_spawnAll (s : Session) (jobs : List (List Expr × FrameId)) :
    (s.spawnAll jobs).threads = s.threads ++ (jobs.mapIdx fun i job ↦
      { id := s.threads.size + i, queue := Queue.ofProgram job.1 job.2 : Thread }).toArray := by
  induction jobs generalizing s with
  | nil => exact Array.append_empty.symm
  | cons job jobs ih =>
    change ((s.spawn job.1 job.2).spawnAll jobs).threads = _
    rw [ih, List.mapIdx_cons]
    simp [spawn, Nat.add_assoc, Nat.add_comm 1]

theorem world_spawnAll (s : Session) (jobs : List (List Expr × FrameId)) :
    ∃ journal, (s.spawnAll jobs).world = { s.world with journal } := by
  induction jobs generalizing s with
  | nil => exact ⟨_, rfl⟩
  | cons job jobs ih => exact ih (s.spawn job.1 job.2)

/-! ## Threads to be visited -/

/-- The thread that is visited next is the first of those not visited yet. -/
theorem drop_visited {s : Session} {p : Progress} {id : Nat}
    (hid : s.active[p.visited]? = some id) :
    s.active.toList.drop p.visited = id :: s.active.toList.drop (p.visited + 1) := by
  obtain ⟨hlt, hget⟩ := Array.getElem?_eq_some_iff.mp hid
  rw [List.drop_eq_getElem_cons (by exact hlt), Array.getElem_toList, hget]

/-- When a pass is cut, the threads not visited stay active behind those that were kept. -/
theorem toList_cut (s : Session) (p : Progress) :
    (p.kept ++ s.active.extract p.visited).toList
      = p.kept.toList ++ s.active.toList.drop p.visited := by
  rw [Array.toList_append, Array.toList_extract, List.extract_eq_take_drop,
    List.take_of_length_le (by simp)]

end Session

/-! ## Changes that do not show -/

/-- The thread is the other one, as far as its run goes. -/
structure Thread.SameRun (t t' : Thread) : Prop where
  current : t'.current = t.current
  queue : t'.queue = t.queue
  error : t'.error = t.error
  steps : t'.steps = t.steps

/-- The session goes on as the other one, as far as runs go: its threads are the same and its world
differs in the journal only. -/
structure Session.Quiet (s s' : Session) : Prop where
  size : s'.threads.size = s.threads.size
  thread : ∀ {i : Nat} {t' : Thread}, s'.threads[i]? = some t' →
    ∃ t, s.threads[i]? = some t ∧ t.SameRun t'
  world : ∃ journal, s'.world = { s.world with journal }

namespace Session.Quiet

variable {s s' s'' : Session}

theorem refl (s : Session) : s.Quiet s :=
  ⟨rfl, fun ht ↦ ⟨_, ht, rfl, rfl, rfl, rfl⟩, _, rfl⟩

theorem trans (h : s.Quiet s') (h' : s'.Quiet s'') : s.Quiet s'' := by
  refine ⟨h'.size.trans h.size, fun ht ↦ ?_, ?_⟩
  · obtain ⟨t', ht', hs'⟩ := h'.thread ht
    obtain ⟨t, ht, hs⟩ := h.thread ht'
    exact ⟨t, ht, hs'.current.trans hs.current, hs'.queue.trans hs.queue,
      hs'.error.trans hs.error, hs'.steps.trans hs.steps⟩
  · obtain ⟨journal, hw⟩ := h.world
    obtain ⟨journal', hw'⟩ := h'.world
    rw [hw] at hw'
    exact ⟨journal', hw'⟩

theorem modify {id : Nat} (g : Thread → Thread) (hg : ∀ t : Thread, t.SameRun (g t))
    (hthreads : s'.threads = s.threads.modify id g)
    (hworld : ∃ journal, s'.world = { s.world with journal }) : s.Quiet s' := by
  refine ⟨by rw [hthreads, Array.size_modify], fun {i t'} ht ↦ ?_, hworld⟩
  rw [hthreads, Array.getElem?_modify] at ht
  by_cases hi : id = i
  · rw [if_pos hi] at ht
    obtain ⟨t, hs, rfl⟩ := Option.map_eq_some_iff.mp ht
    exact ⟨t, hs, hg t⟩
  · rw [if_neg hi] at ht
    exact ⟨t', ht, rfl, rfl, rfl, rfl⟩

theorem retire (s : Session) (id : Nat) : s.Quiet (s.retire id) :=
  .modify ({ · with isRetired := true }) (fun _ ↦ ⟨rfl, rfl, rfl, rfl⟩) rfl ⟨_, rfl⟩

theorem cancel (s : Session) (id : Nat) : s.Quiet (s.cancel id) :=
  .modify ({ · with isCancelled := true }) (fun _ ↦ ⟨rfl, rfl, rfl, rfl⟩) rfl ⟨_, rfl⟩

theorem note (s : Session) (n : Note) : s.Quiet (s.note n) :=
  ⟨rfl, fun ht ↦ ⟨_, ht, rfl, rfl, rfl, rfl⟩, _, rfl⟩

theorem turnWorld (s : Session) (sup : Supervision) (id : Nat) (st : Step) :
    s.Quiet { s with world := sup.turnWorld id st s.world } :=
  ⟨rfl, fun ht ↦ ⟨_, ht, rfl, rfl, rfl, rfl⟩, sup.turnWorld_eq id st s.world⟩

theorem reactAll {rs : List Reaction} (hrs : ∀ r ∈ rs, ∃ k, r = .cancel k) (s : Session) :
    s.Quiet (rs.foldl Session.react s) := by
  induction rs generalizing s with
  | nil => exact .refl s
  | cons r rs ih =>
    obtain ⟨k, rfl⟩ := hrs r List.mem_cons_self
    exact (Quiet.cancel s k).trans (ih (fun r hr ↦ hrs r (List.mem_cons_of_mem _ hr)) _)

end Session.Quiet

/-- Nobody makes threads when told of a failure. -/
def Supervision.SpawnsNothing (sup : Supervision) : Prop :=
  ∀ h, sup.handler = some h → ∀ s id e, ∀ r ∈ (h s id e).reactions, ∃ k, r = .cancel k

theorem Session.Quiet.tell {sup : Supervision} (hsup : sup.SpawnsNothing) {id : Nat}
    {e : ProgramError} {s s' : Session} {o : Option Fault}
    (h : Session.tell sup.handler id e s = (o, s')) : s.Quiet s' := by
  cases hh : sup.handler with
  | none =>
    rw [hh] at h
    cases h
    exact .note s _
  | some handler =>
    have hreactions := hsup handler hh s id e
    rw [hh, Session.tell] at h
    cases h
    exact (Session.Quiet.note s _).trans (.reactAll hreactions _)

/-- A thread whose step failed is one that has lost its queue to the error. -/
theorem Session.Quiet.fail {s : Session} {id : Nat} {t t' : Thread} {w : World} (e : ProgramError)
    (ht : t.SameRun { t' with error := some e, queue := [] }) :
    (s.replace id t w).Quiet ((s.replace id t' w).fail id e) := by
  rw [Session.fail]
  refine Session.Quiet.trans ?_ (.retire _ id)
  refine ⟨?_, fun {i u} hu ↦ ?_, _, rfl⟩
  · simp only [replace, Array.size_modify, Array.size_setIfInBounds]
  · simp only [replace, Array.getElem?_modify, Array.getElem?_setIfInBounds] at hu ⊢
    by_cases hi : id = i
    · simp only [hi, if_true] at hu ⊢
      by_cases hlt : i < s.threads.size
      · rw [if_pos hlt, Option.map_some, Option.some.injEq] at hu
        exact ⟨t, if_pos hlt, hu ▸ ht⟩
      · rw [if_neg hlt] at hu
        cases hu
    · simp only [hi, if_false] at hu ⊢
      exact ⟨u, hu, rfl, rfl, rfl, rfl⟩

/-- Neither the retirement of a failed thread nor what the handler does about it shows. -/
theorem Session.Quiet.failed {sup : Supervision} (hsup : sup.SpawnsNothing) {s s' : Session}
    {id : Nat} {t : Thread} {q : Queue} {w : World} {e : ProgramError} {o : Option Fault}
    (h : Session.tell sup.handler id e ((s.replace id { t with queue := q } w).fail id e)
      = (o, s')) :
    (s.replace id { t with queue := [], error := some e } w).Quiet s' := by
  have hfail : (s.replace id { t with queue := [], error := some e } w).Quiet
      ((s.replace id { t with queue := q } w).fail id e) := .fail e ⟨rfl, rfl, rfl, rfl⟩
  exact hfail.trans (.tell hsup h)

/-! ## Invariants of steps -/

/-- A property of worlds, and one of what a thread holds in a world, its current value and its
queue. Steps preserve both: a thread may take any step that it holds, in any world with the
property, and what the others hold has the property still. -/
structure Machine.IsInvariant (I : World → Prop) (J : World → Value → Queue → Prop) : Prop where
  /-- The journal does not matter to the world. -/
  worldNoted : ∀ {w : World} {journal : Array Note}, I w → I { w with journal }
  /-- The journal does not matter to the threads. -/
  threadNoted : ∀ {w : World} {journal : Array Note} {v : Value} {q : Queue},
    J w v q → J { w with journal } v q
  /-- A thread may lose its queue. -/
  emptied : ∀ {w : World} {v : Value} {q : Queue}, J w v q → J w v []
  /-- The world has the property after a step, failing or not. -/
  world : ∀ {st : Step} {v : Value} {q : Queue} {r : Except Fault (Value × Queue)} {w w' : World},
    I w → J w v (st :: q) → step st v q w = (r, w') → I w'
  /-- The thread has the property after its step. -/
  own : ∀ {st : Step} {v v' : Value} {q q' : Queue} {w w' : World},
    I w → J w v (st :: q) → step st v q w = (.ok (v', q'), w') → J w' v' q'
  /-- The other threads have the property after the step, failing or not. -/
  others : ∀ {st : Step} {v u : Value} {q p : Queue} {r : Except Fault (Value × Queue)}
    {w w' : World}, I w → J w v (st :: q) → step st v q w = (r, w') → J w u p → J w' u p

/-- The world of a session and what its threads hold have the properties. -/
structure Session.Holds (I : World → Prop) (J : World → Value → Queue → Prop) (s : Session) :
    Prop where
  world : I s.world
  thread : ∀ {i : Nat} {t : Thread}, s.threads[i]? = some t → J s.world t.current t.queue

section Invariants

variable {I : World → Prop} {J : World → Value → Queue → Prop} {s s' : Session} {id : Nat}

theorem Session.Holds.quiet (hIJ : Machine.IsInvariant I J) (h : s.Holds I J) (hs : s.Quiet s') :
    s'.Holds I J := by
  obtain ⟨journal, hw⟩ := hs.world
  refine ⟨hw ▸ hIJ.worldNoted h.world, fun ht ↦ ?_⟩
  obtain ⟨t, ht, hsame⟩ := hs.thread ht
  rw [hsame.current, hsame.queue, hw]
  exact hIJ.threadNoted (h.thread ht)

theorem Session.Holds.replace {t : Thread} {w : World} (hworld : I w)
    (hown : J w t.current t.queue)
    (hothers : ∀ {i : Nat} {u : Thread}, s.threads[i]? = some u → J w u.current u.queue) :
    (s.replace id t w).Holds I J where
  world := hworld
  thread {i u} hu := by
    rw [Session.replace, Array.getElem?_setIfInBounds] at hu
    split at hu
    · split at hu
      · cases hu
        exact hown
      · cases hu
    · exact hothers hu

theorem Session.Holds.advance (hIJ : Machine.IsInvariant I J) (h : s.Holds I J) {t : Thread}
    {st : Step} {v : Value} {q q' : Queue} {w : World} (ready : s.Ready id t st q)
    (hstep : Machine.step st t.current q s.world = (.ok (v, q'), w)) :
    (s.replace id { t with current := v, queue := q', steps := t.steps + 1 } w).Holds I J := by
  have hready : J s.world t.current (st :: q) := ready.queue ▸ h.thread ready.thread
  exact .replace (hIJ.world h.world hready hstep) (hIJ.own h.world hready hstep)
    fun hu ↦ hIJ.others h.world hready hstep (h.thread hu)

theorem Session.Holds.fail (hIJ : Machine.IsInvariant I J) (h : s.Holds I J) {t : Thread}
    {st : Step} {q : Queue} {f : Fault} {w : World} (ready : s.Ready id t st q)
    (hstep : Machine.step st t.current q s.world = (.error f, w)) (error : Option ProgramError) :
    (s.replace id { t with queue := [], error } w).Holds I J := by
  have hready : J s.world t.current (st :: q) := ready.queue ▸ h.thread ready.thread
  exact .replace (hIJ.world h.world hready hstep)
    (hIJ.others h.world hready hstep (hIJ.emptied hready))
    fun hu ↦ hIJ.others h.world hready hstep (h.thread hu)

/-- **What steps preserve, visits preserve.** Whoever is told of failures must not make threads. -/
theorem Machine.IsInvariant.preservedByVisits (hIJ : Machine.IsInvariant I J) {sup : Supervision}
    (hsup : sup.SpawnsNothing) : Session.PreservedByVisits sup fun _ _ s ↦ s.Holds I J := by
  refine ⟨?_, ?_⟩
  · intro budget turns p p' s s' h hvisit
    have hnoted : ∀ id st, Session.Holds I J { s with world := sup.turnWorld id st s.world } :=
      fun id st ↦ h.quiet hIJ (.turnWorld s sup id st)
    cases Session.visited_of_visit hvisit with
    | idle => exact h.quiet hIJ (.retire s _)
    | @kept id t st q q' v w hid hbudget ready hstep hq =>
      exact (hnoted id st).advance hIJ ⟨ready.thread, ready.notCancelled, ready.queue⟩ hstep
    | @ended id t st q v w hid hbudget ready hstep =>
      exact ((hnoted id st).advance hIJ ⟨ready.thread, ready.notCancelled, ready.queue⟩
        hstep).quiet hIJ (.retire _ id)
    | @failed id t st q e w _ hid hbudget ready hstep htell =>
      exact ((hnoted id st).fail hIJ ⟨ready.thread, ready.notCancelled, ready.queue⟩ hstep
        (some e)).quiet hIJ (.failed hsup htell)
  · intro budget turns p n s s' h hvisit
    cases Session.visited_of_visit hvisit with
    | allVisited => exact ⟨h.world, h.thread⟩
    | cut => exact ⟨h.world, h.thread⟩

end Invariants

end Interleave

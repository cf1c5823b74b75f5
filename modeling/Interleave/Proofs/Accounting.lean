import Interleave.Proofs.Budget
import Interleave.Proofs.Order
import Mathlib.Algebra.BigOperators.Group.Finset.Piecewise

/-!
# Accounts of budgeted runs

A run with a budget ends and gives the number of steps that it took. Here that number is compared
with what the threads have to show for it. A step that a thread took without failing counts for the
thread, and a step that failed left the thread with its error. So the number is the sum of the steps
that threads gained and the threads that failed.

Accounts are kept thread by thread (`Session.Tally`): what a thread gained, with one for an error,
is the number of turns that it took. Whatever a handler does about a failure does not show in them,
since it cancels and makes threads only (`Session.Extends`). Two more facts hold in every session
that operations lead to. A thread with an error has nothing to do (`Session.Drained`), so nobody
fails twice, and a thread that is not retired is still on the list (`Session.Listed`).

## Why three invariants

The accounts alone do not settle the number. A thread that could fail twice would cost two turns and
show one error, and a thread that fell off the list would leave the run without having been counted
to its end. The invariants are proved of one visit each, by the cases of a visit, and carried over
passes and runs together.
-/

namespace Interleave

/-- Whoever is told of failures raises no fault. -/
def Supervision.NeverRaises (sup : Supervision) : Prop :=
  ∀ h, sup.handler = some h → ∀ s id e, (h s id e).raises = none

theorem Thread.life_of_step (t : Thread) (w : World) :
    (t.step w).2.1.error = t.error ∧ (t.step w).2.1.isRetired = t.isRetired ∧
      (t.queue = [] → (t.step w).2.1.queue = []) := by
  rw [Thread.step.eq_def]
  cases hq : t.queue with
  | nil => exact ⟨rfl, rfl, fun _ ↦ hq⟩
  | cons st q =>
    dsimp only
    split <;> exact ⟨rfl, rfl, fun h ↦ by cases h⟩

namespace Session

/-! ## Accounts -/

def stepsOf (s : Session) (id : Nat) : Nat :=
  (s.threads[id]?.map Thread.steps).getD 0

def hasFailed (s : Session) (id : Nat) : Bool :=
  (s.threads[id]?).any (·.error.isSome)

/-- How many steps the threads took since an earlier session, without those that failed. -/
def stepsSince (s s' : Session) : Nat :=
  ∑ id ∈ Finset.range s'.threads.size, (s'.stepsOf id - s.stepsOf id)

/-- The threads that failed since an earlier session. -/
def failedSince (s s' : Session) : Finset Nat :=
  {id ∈ Finset.range s'.threads.size | s'.hasFailed id = true ∧ s.hasFailed id = false}

/-- From one session to the other each thread took as many steps as the turns say. One that has an
error now and had none before took one more than it counts. -/
structure Tally (s₀ : Session) (turns : List Turn) (s : Session) : Prop where
  known : ∀ turn ∈ turns, turn.thread < s.threads.size
  balance : ∀ id, s.stepsOf id + (s.hasFailed id).toNat =
    s₀.stepsOf id + (s₀.hasFailed id).toNat + Turn.countBy id turns
  steps_le : ∀ id, s₀.stepsOf id ≤ s.stepsOf id
  failed_of_failed : ∀ id, s₀.hasFailed id = true → s.hasFailed id = true

theorem sum_countBy {turns : List Turn} {size : Nat} (h : ∀ turn ∈ turns, turn.thread < size) :
    ∑ id ∈ Finset.range size, Turn.countBy id turns = turns.length := by
  induction turns with
  | nil => exact Finset.sum_eq_zero fun id _ ↦ rfl
  | cons turn turns ih =>
    obtain ⟨hturn, hturns⟩ := List.forall_mem_cons.mp h
    have hcons (id : Nat) : Turn.countBy id (turn :: turns)
        = Turn.countBy id turns + if turn.thread = id then 1 else 0 := by
      simp only [Turn.countBy, List.countP_cons, decide_eq_true_eq]
    rw [Finset.sum_congr rfl fun id _ ↦ hcons id, Finset.sum_add_distrib, ih hturns,
      Finset.sum_ite_eq, if_pos (Finset.mem_range.mpr hturn), List.length_cons]

/-- **Accounts add up.** All turns are steps that threads gained, or failures. -/
theorem Tally.length_eq {s₀ s : Session} {turns : List Turn} (h : s₀.Tally turns s) :
    turns.length = s₀.stepsSince s + (s₀.failedSince s).card := by
  have hgain (id : Nat) : Turn.countBy id turns = (s.stepsOf id - s₀.stepsOf id) +
      if s.hasFailed id = true ∧ s₀.hasFailed id = false then 1 else 0 := by
    have hbalance := h.balance id
    have hle := h.steps_le id
    -- only an error that is new stands for a turn, and errors are never lost
    cases hs₀ : s₀.hasFailed id with
    | true =>
      rw [h.failed_of_failed id hs₀, hs₀] at hbalance
      rw [if_neg (by simp)]
      omega
    | false =>
      rw [hs₀] at hbalance
      cases hs : s.hasFailed id with
      | true =>
        rw [hs, Bool.toNat_true, Bool.toNat_false] at hbalance
        rw [if_pos ⟨rfl, rfl⟩]
        omega
      | false =>
        rw [hs] at hbalance
        rw [if_neg (by simp)]
        omega
  rw [← sum_countBy h.known, Finset.sum_congr rfl fun id _ ↦ hgain id, Finset.sum_add_distrib,
    failedSince, Finset.card_filter, stepsSince]

/-! ## What does not show in accounts -/

/-- From one session to the other threads were cancelled, retired and made, and no thread took a
step. New threads were put at the end of the list. -/
structure Extends (s s' : Session) : Prop where
  size : s.threads.size ≤ s'.threads.size
  old : ∀ {id : Nat} {t' : Thread}, id < s.threads.size → s'.threads[id]? = some t' →
    ∃ t, s.threads[id]? = some t ∧ t.SameRun t' ∧ (t.isRetired = true → t'.isRetired = true)
  new : ∀ {id : Nat} {t' : Thread}, s.threads.size ≤ id → s'.threads[id]? = some t' →
    t'.steps = 0 ∧ t'.error = none
  active : ∃ new : List Nat, s'.active.toList = s.active.toList ++ new ∧
    ∀ id, s.threads.size ≤ id → id < s'.threads.size → id ∈ new

namespace Extends

variable {s s' s'' : Session}

theorem modify (id : Nat) (g : Thread → Thread)
    (hg : ∀ t : Thread, t.SameRun (g t) ∧ (t.isRetired = true → (g t).isRetired = true))
    (hthreads : s'.threads = s.threads.modify id g) (hactive : s'.active = s.active) :
    s.Extends s' := by
  have hsize : s'.threads.size = s.threads.size := by rw [hthreads, Array.size_modify]
  refine ⟨Nat.le_of_eq hsize.symm, fun {j t'} _ ht ↦ ?_, fun {j t'} hj ht ↦ ?_,
    [], by rw [hactive, List.append_nil], fun j hj hlt ↦ ?_⟩
  · rw [hthreads, Array.getElem?_modify] at ht
    by_cases hj : id = j
    · rw [if_pos hj] at ht
      obtain ⟨t, hs, rfl⟩ := Option.map_eq_some_iff.mp ht
      exact ⟨t, hs, hg t⟩
    · rw [if_neg hj] at ht
      exact ⟨t', ht, ⟨rfl, rfl, rfl, rfl⟩, fun h ↦ h⟩
  · have hlt := (Array.getElem?_eq_some_iff.mp ht).1
    omega
  · omega

theorem refl (s : Session) : s.Extends s :=
  ⟨Nat.le_refl _, fun _ ht ↦ ⟨_, ht, ⟨rfl, rfl, rfl, rfl⟩, fun h ↦ h⟩,
    fun hle ht ↦ absurd (Array.getElem?_eq_some_iff.mp ht).1 (Nat.not_lt.mpr hle),
    [], (List.append_nil _).symm, fun _ hle hlt ↦ absurd hlt (Nat.not_lt.mpr hle)⟩

theorem trans (h : s.Extends s') (h' : s'.Extends s'') : s.Extends s'' := by
  obtain ⟨new, hnew, hlisted⟩ := h.active
  obtain ⟨new', hnew', hlisted'⟩ := h'.active
  refine ⟨h.size.trans h'.size, fun {i t''} hi ht ↦ ?_, fun {i t''} hi ht ↦ ?_,
    new ++ new', by rw [hnew', hnew, List.append_assoc], fun i hi hlt ↦ ?_⟩
  · obtain ⟨t', ht', hsame', hretired'⟩ := h'.old (hi.trans_le h.size) ht
    obtain ⟨t, ht, hsame, hretired⟩ := h.old hi ht'
    exact ⟨t, ht, ⟨hsame'.current.trans hsame.current, hsame'.queue.trans hsame.queue,
      hsame'.error.trans hsame.error, hsame'.steps.trans hsame.steps⟩,
      fun hr ↦ hretired' (hretired hr)⟩
  · rcases Nat.lt_or_ge i s'.threads.size with hlt | hge
    · obtain ⟨t', ht', hsame, -⟩ := h'.old hlt ht
      obtain ⟨hsteps, herror⟩ := h.new hi ht'
      exact ⟨hsame.steps.trans hsteps, hsame.error.trans herror⟩
    · exact h'.new hge ht
  · rcases Nat.lt_or_ge i s'.threads.size with hlt' | hge
    · exact List.mem_append_left _ (hlisted i hi hlt')
    · exact List.mem_append_right _ (hlisted' i hge hlt)

theorem ofWorld (s : Session) (w : World) : s.Extends { s with world := w } :=
  ⟨(refl s).size, (refl s).old, (refl s).new, (refl s).active⟩

theorem retire (s : Session) (id : Nat) : s.Extends (s.retire id) :=
  .modify id ({ · with isRetired := true }) (fun _ ↦ ⟨⟨rfl, rfl, rfl, rfl⟩, fun _ ↦ rfl⟩) rfl rfl

theorem cancel (s : Session) (id : Nat) : s.Extends (s.cancel id) :=
  .modify id ({ · with isCancelled := true }) (fun _ ↦ ⟨⟨rfl, rfl, rfl, rfl⟩, fun h ↦ h⟩) rfl rfl

theorem spawn (s : Session) (program : List Expr) (frame : FrameId) :
    s.Extends (s.spawn program frame) := by
  have hsize : (s.spawn program frame).threads.size = s.threads.size + 1 := Array.size_push _
  have hthreads : (s.spawn program frame).threads
      = s.threads.push { id := s.threads.size, queue := Queue.ofProgram program frame } := rfl
  refine ⟨by omega, fun {i t'} hi ht ↦ ?_, fun {i t'} hi ht ↦ ?_, [s.threads.size],
    Array.toList_push, fun i hi hlt ↦ ?_⟩
  · rw [hthreads, Array.getElem?_push, if_neg (Nat.ne_of_lt hi)] at ht
    exact ⟨t', ht, ⟨rfl, rfl, rfl, rfl⟩, fun h ↦ h⟩
  · have hlt := (Array.getElem?_eq_some_iff.mp ht).1
    rw [hthreads, Array.getElem?_push, if_pos (by omega)] at ht
    cases ht
    exact ⟨rfl, rfl⟩
  · exact List.mem_singleton.mpr (by omega)

theorem reactAll (s : Session) (rs : List Reaction) : s.Extends (rs.foldl react s) := by
  induction rs generalizing s with
  | nil => exact refl s
  | cons r rs ih =>
    have hreact : s.Extends (s.react r) := by
      cases r with
      | cancel id => exact cancel s id
      | spawn program frame => exact spawn s program frame
    exact hreact.trans (ih _)

theorem tell {handler : Option Handler} {id : Nat} {e : ProgramError} {o : Option Fault}
    (h : Session.tell handler id e s = (o, s')) : s.Extends s' := by
  cases handler with
  | none =>
    cases h
    exact ofWorld s _
  | some handler =>
    cases h
    exact (ofWorld s _).trans (reactAll _ _)

/-- A thread that fails loses its queue and gets an error. That it is retired does not show. -/
theorem fail (s : Session) (id : Nat) (t : Thread) (q : Queue) (w : World) (e : ProgramError) :
    (s.replace id { t with queue := [], error := some e } w).Extends
      ((s.replace id { t with queue := q } w).fail id e) := by
  refine .modify id ({ · with isRetired := true }) (fun _ ↦ ⟨⟨rfl, rfl, rfl, rfl⟩, fun _ ↦ rfl⟩)
    ?_ rfl
  have hmodify : (s.threads.setIfInBounds id { t with queue := q }).modify id
      ({ · with error := some e, queue := [] })
        = s.threads.setIfInBounds id { t with queue := [], error := some e } := by
    refine Array.ext_getElem? fun j ↦ ?_
    rw [Array.getElem?_modify, Array.getElem?_setIfInBounds, Array.getElem?_setIfInBounds]
    by_cases hj : id = j
    · simp only [hj, if_true]
      split <;> rfl
    · simp only [hj, if_false]
  exact congrArg (Array.modify · id ({ · with isRetired := true })) hmodify

/-- A thread is an old one, and the same as before in its run, or a new one. -/
theorem thread_cases (h : s.Extends s') (id : Nat) :
    (∃ t t', s.threads[id]? = some t ∧ s'.threads[id]? = some t' ∧ t.SameRun t') ∨
      s.threads[id]? = none ∧ ∀ t', s'.threads[id]? = some t' → t'.steps = 0 ∧ t'.error = none := by
  rcases Nat.lt_or_ge id s.threads.size with hlt | hge
  · obtain ⟨t', ht'⟩ : ∃ t', s'.threads[id]? = some t' :=
      ⟨_, Array.getElem?_eq_getElem (hlt.trans_le h.size)⟩
    obtain ⟨t, ht, hsame, -⟩ := h.old hlt ht'
    exact .inl ⟨t, t', ht, ht', hsame⟩
  · exact .inr ⟨Array.getElem?_eq_none hge, fun t' ↦ h.new hge⟩

theorem stepsOf (h : s.Extends s') (id : Nat) : s'.stepsOf id = s.stepsOf id := by
  rw [Session.stepsOf, Session.stepsOf]
  rcases h.thread_cases id with ⟨t, t', ht, ht', hsame⟩ | ⟨ht, hnew⟩
  · rw [ht, ht', Option.map_some, Option.map_some, hsame.steps]
  · rw [ht]
    cases ht' : s'.threads[id]? with
    | none => rfl
    | some t' => exact (hnew t' ht').1

theorem hasFailed (h : s.Extends s') (id : Nat) : s'.hasFailed id = s.hasFailed id := by
  rw [Session.hasFailed, Session.hasFailed]
  rcases h.thread_cases id with ⟨t, t', ht, ht', hsame⟩ | ⟨ht, hnew⟩
  · rw [ht, ht', Option.any_some, Option.any_some, hsame.error]
  · rw [ht]
    cases ht' : s'.threads[id]? with
    | none => rfl
    | some t' =>
      rw [Option.any_some, (hnew t' ht').2]
      rfl

end Extends

/-! ## Threads that take turns -/

/-- What a turn does for a thread: the thread has taken one more step, or it has failed. -/
inductive Gains (t : Thread) : Thread → Prop where
  | step {t' : Thread} (hsteps : t'.steps = t.steps + 1) (herror : t'.error = t.error) : Gains t t'
  | failure {t' : Thread} {e : ProgramError} (hsteps : t'.steps = t.steps)
    (herror : t'.error = some e) (hqueue : t'.queue = []) : Gains t t'

section Turns

variable {sup : Supervision} {budget : Option Int} {p p' : Progress} {s s' s₀ : Session}
  {id : Nat} {turns : List Turn}

/-- From one session to another a thread was visited. It took a turn, or it did not. -/
inductive Served (id : Nat) (s : Session) : List Turn → Session → Prop where
  | idle {s' : Session} (h : s.Extends s') : Served id s [] s'
  | turn {t t' : Thread} {st : Step} {q : Queue} {w : World} {s' : Session} {texts : List String}
    (ready : s.Ready id t st q) (h : (s.replace id t' w).Extends s') (hgains : Gains t t')
    (hretired : t'.isRetired = t.isRetired) : Served id s [⟨id, texts⟩] s'

theorem Served.getElem?_active (h : s.Served id turns s') {k j : Nat}
    (hj : s.active[k]? = some j) : s'.active[k]? = some j := by
  have hactive : ∃ new, s'.active.toList = s.active.toList ++ new := by
    cases h with
    | idle h => exact h.active.imp fun new hnew ↦ hnew.1
    | turn _ h => exact h.active.imp fun new hnew ↦ hnew.1
  obtain ⟨new, hnew⟩ := hactive
  rw [← Array.getElem?_toList] at hj ⊢
  rw [hnew, List.getElem?_append_left (List.getElem?_eq_some_iff.mp hj).1, hj]

theorem visitTurns_of_lt (h : s.visit sup budget p = .next p' s')
    (hid : s.active[p.visited]? = some id) (hlt : p.executed < p'.executed) :
    s.visitTurns sup budget p = [⟨id, s.textsSince s'⟩] := by
  simp only [visitTurns, h, hid, Option.getD_some, hlt, if_true]

theorem isRetired_of_retire {t : Thread} (h : (s.retire id).threads[id]? = some t) :
    t.isRetired = true := by
  rw [getElem?_threads_retire, if_pos rfl] at h
  obtain ⟨u, -, rfl⟩ := Option.map_eq_some_iff.mp h
  rfl

/-- A visit serves the thread that is visited. If the thread is not kept, then it is retired. -/
theorem served_of_next (h : s.visit sup budget p = .next p' s') :
    ∃ id, s.active[p.visited]? = some id ∧ p'.visited = p.visited + 1 ∧
      s.Served id (s.visitTurns sup budget p) s' ∧
      (p'.kept = p.kept.push id ∨
        p'.kept = p.kept ∧ ∀ t', s'.threads[id]? = some t' → t'.isRetired = true) := by
  have hlt : p.executed < p.executed + 1 := Nat.lt_succ_self _
  cases visited_of_visit h with
  | @idle id hid =>
    rw [visitTurns_of_skip h]
    exact ⟨id, hid, rfl, .idle (.retire s id), .inr ⟨rfl, fun _ ↦ isRetired_of_retire⟩⟩
  | @kept id t st q q' v w hid _ ready =>
    rw [visitTurns_of_lt h hid hlt]
    exact ⟨id, hid, rfl, .turn ready (.refl _) (.step rfl rfl) rfl, .inl rfl⟩
  | @ended id t st q v w hid _ ready =>
    rw [visitTurns_of_lt h hid hlt]
    exact ⟨id, hid, rfl, .turn ready (.retire _ id) (.step rfl rfl) rfl,
      .inr ⟨rfl, fun _ ↦ isRetired_of_retire⟩⟩
  | @failed id t st q e w _ hid _ ready _ htell =>
    rw [visitTurns_of_lt h hid hlt]
    have hextends := (Extends.fail s id t q w e).trans (.tell htell)
    refine ⟨id, hid, rfl, .turn ready hextends (.failure rfl rfl rfl) rfl,
      .inr ⟨rfl, fun t' ht' ↦ ?_⟩⟩
    -- the handler made threads at most, so the one that failed is an old one to it
    have hidlt : id < ((s.replace id { t with queue := q } w).fail id e).threads.size := by
      simpa only [Session.fail, Session.retire, replace, Array.size_modify,
        Array.size_setIfInBounds] using (Array.getElem?_eq_some_iff.mp ready.thread).1
    obtain ⟨u, hu, -, hretired⟩ := (Extends.tell htell).old hidlt ht'
    exact hretired (isRetired_of_retire hu)

/-! ### Threads with errors -/

/-- A thread that has an error has nothing to do. -/
def Drained (s : Session) : Prop :=
  ∀ (id : Nat) (t : Thread), s.threads[id]? = some t → t.error ≠ none → t.queue = []

theorem Drained.extends (h : s.Drained) (hs : s.Extends s') : s'.Drained := by
  intro id t' ht' herror
  rcases Nat.lt_or_ge id s.threads.size with hlt | hge
  · obtain ⟨t, ht, hsame, -⟩ := hs.old hlt ht'
    rw [hsame.error] at herror
    rw [hsame.queue]
    exact h id t ht herror
  · exact absurd (hs.new hge ht').2 herror

theorem Drained.replace (h : s.Drained) {t' : Thread} {w : World}
    (ht' : t'.error ≠ none → t'.queue = []) : (s.replace id t' w).Drained := by
  intro j u hu herror
  rw [Session.replace, Array.getElem?_setIfInBounds] at hu
  split at hu
  · split at hu
    · cases hu
      exact ht' herror
    · cases hu
  · exact h j u hu herror

theorem Drained.error_of_ready (h : s.Drained) {t : Thread} {st : Step} {q : Queue}
    (ready : s.Ready id t st q) : t.error = none := by
  by_contra herror
  have hqueue := h id t ready.thread herror
  rw [ready.queue] at hqueue
  cases hqueue

theorem Drained.served (h : s.Drained) (hs : s.Served id turns s') : s'.Drained := by
  cases hs with
  | idle hs => exact h.extends hs
  | @turn t t' st q w _ texts ready hs hgains hretired =>
    refine (h.replace fun herror ↦ ?_).extends hs
    cases hgains with
    | step _ hsame =>
      rw [hsame] at herror
      exact absurd (h.error_of_ready ready) herror
    | failure _ _ hqueue => exact hqueue

/-! ### Threads on the list -/

/-- In the middle of a pass: a thread that is not retired was kept, or is still to be visited. -/
def Listed (p : Progress) (s : Session) : Prop :=
  ∀ (id : Nat) (t : Thread), s.threads[id]? = some t → t.isRetired = false →
    id ∈ p.kept.toList ∨ id ∈ s.active.toList.drop p.visited

theorem Listed.extends (h : s.Listed p) (hvisited : p.visited ≤ s.active.size)
    (hs : s.Extends s') : s'.Listed p := by
  obtain ⟨new, hactive, hnew⟩ := hs.active
  intro id t' ht' hretired
  rw [hactive, List.drop_append_of_le_length hvisited, List.mem_append]
  rcases Nat.lt_or_ge id s.threads.size with hlt | hge
  · obtain ⟨t, ht, -, hmono⟩ := hs.old hlt ht'
    have hnot : t.isRetired = false := by
      rw [← Bool.not_eq_true]
      intro hr
      rw [hmono hr] at hretired
      cases hretired
    exact (h id t ht hnot).imp_right .inl
  · exact .inr (.inr (hnew id hge (Array.getElem?_eq_some_iff.mp ht').1))

theorem Listed.replace (h : s.Listed p) {t t' : Thread} {w : World}
    (ht : s.threads[id]? = some t) (hretired : t'.isRetired = t.isRetired) :
    (s.replace id t' w).Listed p := by
  intro j u hu hr
  rw [getElem?_threads_replace (Array.getElem?_eq_some_iff.mp ht).1] at hu
  by_cases hj : id = j
  · subst hj
    rw [if_pos rfl] at hu
    cases hu
    exact h id t ht (hretired ▸ hr)
  · rw [if_neg hj] at hu
    exact h j u hu hr

theorem Listed.served (h : s.Listed p) (hvisited : p.visited ≤ s.active.size)
    (hs : s.Served id turns s') : s'.Listed p := by
  cases hs with
  | idle hs => exact h.extends hvisited hs
  | turn ready hs _ hretired => exact (h.replace ready.thread hretired).extends hvisited hs

theorem Listed.advance (h : s.Listed p) (hid : s.active[p.visited]? = some id)
    (hvisited : p'.visited = p.visited + 1)
    (hkept : p'.kept = p.kept.push id ∨
      p'.kept = p.kept ∧ ∀ t, s.threads[id]? = some t → t.isRetired = true) : s.Listed p' := by
  intro j t ht hretired
  have hj := h j t ht hretired
  rw [drop_visited hid, List.mem_cons] at hj
  rw [hvisited]
  rcases hkept with hkept | ⟨hkept, hall⟩
  · rw [hkept, Array.toList_push, List.mem_append, List.mem_singleton]
    tauto
  · rw [hkept]
    rcases hj with hj | rfl | hj
    · exact .inl hj
    · rw [hall t ht] at hretired
      cases hretired
    · exact .inr hj

/-! ### Accounts -/

theorem Tally.extends (h : s₀.Tally turns s) (hs : s.Extends s') : s₀.Tally turns s' where
  known turn hturn := (h.known turn hturn).trans_le hs.size
  balance id := by
    rw [hs.stepsOf, hs.hasFailed]
    exact h.balance id
  steps_le id := hs.stepsOf id ▸ h.steps_le id
  failed_of_failed id hid := hs.hasFailed id ▸ h.failed_of_failed id hid

theorem stepsOf_replace {t t' : Thread} {w : World} (ht : s.threads[id]? = some t) (j : Nat) :
    (s.replace id t' w).stepsOf j = if id = j then t'.steps else s.stepsOf j := by
  rw [stepsOf, stepsOf, getElem?_threads_replace (Array.getElem?_eq_some_iff.mp ht).1]
  split <;> rfl

theorem hasFailed_replace {t t' : Thread} {w : World} (ht : s.threads[id]? = some t) (j : Nat) :
    (s.replace id t' w).hasFailed j = if id = j then t'.error.isSome else s.hasFailed j := by
  rw [hasFailed, hasFailed, getElem?_threads_replace (Array.getElem?_eq_some_iff.mp ht).1]
  split <;> rfl

/-- A turn is one more step of the thread, or the error that it has got. -/
theorem Tally.replace (h : s₀.Tally turns s) {t t' : Thread} {w : World}
    (ht : s.threads[id]? = some t) (herror : t.error = none) (hgains : Gains t t')
    (texts : List String) : s₀.Tally (turns ++ [⟨id, texts⟩]) (s.replace id t' w) := by
  have hlt : id < s.threads.size := (Array.getElem?_eq_some_iff.mp ht).1
  have hsize : (s.replace id t' w).threads.size = s.threads.size := Array.size_setIfInBounds
  have hsteps : s.stepsOf id = t.steps := by rw [stepsOf, ht, Option.map_some, Option.getD_some]
  have hfailed : s.hasFailed id = false := by
    rw [hasFailed, ht, Option.any_some, herror]
    rfl
  -- in both cases the account of the thread rises by one
  have hgain : s.stepsOf id ≤ t'.steps ∧
      t'.steps + t'.error.isSome.toNat = s.stepsOf id + (s.hasFailed id).toNat + 1 := by
    rw [hsteps, hfailed]
    cases hgains with
    | step hs he =>
      rw [hs, he, herror]
      exact ⟨Nat.le_succ _, rfl⟩
    | failure hs he _ =>
      rw [hs, he]
      exact ⟨Nat.le_refl _, rfl⟩
  refine ⟨fun turn hturn ↦ ?_, fun j ↦ ?_, fun j ↦ ?_, fun j hj ↦ ?_⟩
  · rw [hsize]
    rcases List.mem_append.mp hturn with hturn | hturn
    · exact h.known turn hturn
    · rw [List.mem_singleton.mp hturn]
      exact hlt
  · rw [stepsOf_replace ht, hasFailed_replace ht]
    by_cases hj : id = j
    · subst hj
      rw [if_pos rfl, if_pos rfl, hgain.2, h.balance, Turn.countBy_snoc_self, Nat.add_assoc]
    · rw [if_neg hj, if_neg hj, h.balance, Turn.countBy_snoc_of_ne hj]
  · rw [stepsOf_replace ht]
    split
    · next hj => exact hj ▸ (h.steps_le id).trans hgain.1
    · exact h.steps_le j
  · have hold := h.failed_of_failed j hj
    -- the thread that takes the turn had no error, so it is not one that failed before
    have hne : id ≠ j := by
      rintro rfl
      rw [hfailed] at hold
      cases hold
    rwa [hasFailed_replace ht, if_neg hne]

theorem Tally.served (h : s₀.Tally turns s) (hdrained : s.Drained) {turns' : List Turn}
    (hs : s.Served id turns' s') : s₀.Tally (turns ++ turns') s' := by
  cases hs with
  | idle hs =>
    rw [List.append_nil]
    exact h.extends hs
  | turn ready hs hgains _ =>
    exact (h.replace ready.thread (hdrained.error_of_ready ready) hgains _).extends hs

end Turns

/-! ## Sessions that operations lead to -/

theorem InOrder.next {sup : Supervision} {budget : Option Int} {p p' : Progress} {s s' : Session}
    (h : s.InOrder p) (hvisit : s.visit sup budget p = .next p' s') : s'.InOrder p' :=
  @PreservedByVisits.next sup _ (InOrder.preservedByVisits sup) budget [] p p' s s' h hvisit

theorem InOrder.finished {sup : Supervision} {budget : Option Int} {p : Progress} {n : Nat}
    {s s' : Session} (h : s.InOrder p) (hvisit : s.visit sup budget p = .finished n s') :
    s'.InOrder {} :=
  @PreservedByVisits.finished sup _ (InOrder.preservedByVisits sup) budget [] p n s s' h hvisit

/-- In the middle of a pass: what the list says of the threads, and the threads of themselves, is in
order. -/
structure Orderly (p : Progress) (s : Session) : Prop where
  order : s.InOrder p
  drained : s.Drained
  listed : s.Listed p

namespace Orderly

variable {sup : Supervision} {budget : Option Int} {p p' : Progress} {s s' s₀ : Session}

theorem begin (h : s.Orderly p) : s.Orderly {} where
  order := h.order.begin
  drained := h.drained
  listed id t ht hretired := by
    rcases h.listed id t ht hretired with hkept | hrest
    · exact .inr (List.mem_of_mem_take (h.order.kept.subset hkept))
    · exact .inr (List.mem_of_mem_drop hrest)

theorem of_extends (h : s.Orderly {}) (horder : s'.InOrder {}) (hs : s.Extends s') :
    s'.Orderly {} :=
  ⟨horder, h.drained.extends hs, h.listed.extends (Nat.zero_le _) hs⟩

theorem next (h : s.Orderly p) (hvisit : s.visit sup budget p = .next p' s') : s'.Orderly p' := by
  obtain ⟨id, hid, hvisited, hserved, hkept⟩ := served_of_next hvisit
  have hlisted := h.listed.served h.order.visited_le hserved
  exact ⟨h.order.next hvisit, h.drained.served hserved,
    hlisted.advance (hserved.getElem?_active hid) hvisited hkept⟩

theorem finished {n : Nat} (h : s.Orderly p) (hvisit : s.visit sup budget p = .finished n s') :
    s'.Orderly {} := by
  have horder := h.order.finished hvisit
  cases visited_of_visit hvisit with
  | allVisited hid =>
    refine ⟨horder, h.drained, fun id t ht hretired ↦ ?_⟩
    have hrest : s.active.toList.drop p.visited = [] :=
      List.drop_eq_nil_of_le (Array.getElem?_eq_none_iff.mp hid)
    rcases h.listed id t ht hretired with hkept | hmem
    · exact .inr hkept
    · rw [hrest] at hmem
      cases hmem
  | cut =>
    refine ⟨horder, h.drained, fun id t ht hretired ↦ .inr ?_⟩
    rw [toList_cut]
    exact List.mem_append.mpr (h.listed id t ht hretired)

theorem preservedByVisits (sup : Supervision) : PreservedByVisits sup fun _ p s ↦ s.Orderly p :=
  ⟨fun h hvisit ↦ h.next hvisit, fun h hvisit ↦ h.finished hvisit⟩

theorem of_broken {f : Fault} (h : s.Orderly p) (hvisit : s.visit sup budget p = .broken f s') :
    s'.Orderly {} := by
  cases visited_of_visit hvisit with
  | @raised id t st q e w _ _ hid _ ready _ htell =>
    have hextends := (Extends.fail s id t q w e).trans (.tell htell)
    have hserved : s.Served id [⟨id, []⟩] s' := .turn ready hextends (.failure rfl rfl rfl) rfl
    exact begin ⟨h.order.fail.tell htell, h.drained.served hserved,
      h.listed.served h.order.visited_le hserved⟩
  | @brokenDown id t st q b w hid _ ready hstep =>
    have hdrained : (s.replace id { t with queue := q } w).Drained :=
      h.drained.replace fun herror ↦ absurd (h.drained.error_of_ready ready) herror
    have horder : (s.replace id { t with queue := q } w).InOrder p :=
      h.order.congr rfl Array.size_setIfInBounds
    exact begin ⟨horder, hdrained, h.listed.replace ready.thread rfl⟩
  | unlogged => exact h.begin

theorem pass (h : s.Orderly {}) (fuel : Nat) : (s.pass sup fuel budget).2.Orderly {} := by
  rcases hpass : s.pass sup fuel budget with ⟨o, s'⟩
  rcases o.failed_or_ne_failed with ⟨f, rfl⟩ | ho
  · obtain ⟨budget', turns, p', s₁, hway, hvisit⟩ := exists_broken_of_passFrom .start hpass
    exact (hway.preserves (preservedByVisits sup) h).of_broken hvisit
  · obtain ⟨p', h', -⟩ := passFrom_preserves (preservedByVisits sup) [] h hpass ho
    exact h'.begin

theorem run (h : s.Orderly {}) (fuel : Nat) : (s.run sup fuel budget).2.Orderly {} := by
  rcases hrun : s.run sup fuel budget with ⟨o, s'⟩
  rcases o.failed_or_ne_failed with ⟨f, rfl⟩ | ho
  · obtain ⟨budget', turns, p', s₁, hway, hvisit⟩ := exists_broken_of_runFrom .start hrun
    exact (hway.preserves (preservedByVisits sup) h).of_broken hvisit
  · obtain ⟨p', h', -⟩ := runFrom_preserves (preservedByVisits sup) [] h hrun ho
    exact h'.begin

end Orderly

theorem stepThread_of_thread {s : Session} {id : Nat} {t : Thread} (ht : s.threads[id]? = some t) :
    (s.stepThread id).2 = s.replace id (t.step s.world).2.1 (t.step s.world).2.2 := by
  rw [stepThread, ht]
  rfl

theorem Arises.orderly {s : Session} (h : s.Arises) : s.Orderly {} := by
  induction h with
  | fresh w =>
    refine ⟨(Arises.fresh w).inOrder, fun id t ht ↦ ?_, fun id t ht ↦ ?_⟩ <;> cases ht
  | world hs w ih => exact ih.of_extends (hs.world w).inOrder (.ofWorld _ w)
  | spawn hs program frame ih =>
    exact ih.of_extends (hs.spawn program frame).inOrder (.spawn _ program frame)
  | cancel hs id ih => exact ih.of_extends (hs.cancel id).inOrder (.cancel _ id)
  | @step s hs id ih =>
    have horder := (hs.step id).inOrder
    cases ht : s.threads[id]? with
    | none =>
      rw [stepThread, ht]
      exact ih
    | some t =>
      rw [stepThread_of_thread ht] at horder ⊢
      obtain ⟨herror, hretired, hqueue⟩ := t.life_of_step s.world
      refine ⟨horder, ih.drained.replace fun he ↦ hqueue ?_, ih.listed.replace ht hretired⟩
      exact ih.drained id t ht (herror ▸ he)
  | pass _ sup fuel budget ih => exact ih.pass fuel
  | run _ sup fuel budget ih => exact ih.run fuel

/-! ## Runs -/

section Runs

variable {sup : Supervision} {budget : Option Int} {p : Progress} {s s' s₀ : Session}
  {fuel executed k n : Nat}

theorem map_fst_visitTrace (sup : Supervision) (budget : Option Int) (p : Progress) (s : Session) :
    (s.visitTrace sup budget p).map Prod.fst = s.visitTurns sup budget p := by
  cases hv : s.visit sup budget p with
  | next p' s' =>
    rw [visitTrace_of_next hv, List.map_map]
    exact List.map_id _
  | finished n s' =>
    rw [visitTrace_of_finished hv, visitTurns, hv]
    rfl
  | broken f s' =>
    rw [visitTrace_of_broken hv, visitTurns, hv]
    rfl

theorem map_fst_passTrace (sup : Supervision) (budget : Option Int) (fuel : Nat) (p : Progress)
    (s : Session) :
    (passTrace sup budget fuel p s).map Prod.fst = passTurns sup budget fuel p s := by
  induction fuel generalizing p s with
  | zero => rfl
  | succ fuel ih =>
    rw [passTrace, passTurns, List.map_append, map_fst_visitTrace]
    cases s.visit sup budget p with
    | next p' s' => exact congrArg _ (ih p' s')
    | finished | broken => rfl

/-- The trace of a run and the turns that it takes are one list. -/
theorem map_fst_runTraceFrom (sup : Supervision) (budget : Option Int) (fuel executed : Nat)
    (s : Session) :
    (runTraceFrom sup budget fuel executed s).map Prod.fst
      = runTurnsFrom sup budget fuel executed s := by
  induction fuel generalizing executed s with
  | zero => rfl
  | succ fuel ih =>
    rw [runTraceFrom, runTurnsFrom]
    split
    · rfl
    · rw [List.map_append, map_fst_passTrace]
      rcases s.pass sup fuel (budget.map (· - (executed : Int))) with ⟨m | f | _, s'⟩
      · exact congrArg _ (ih _ s')
      · rfl
      · rfl

/-- A run comes to its end when there is nobody active or the budget is used up. -/
theorem isOver_of_runFrom (h : runFrom sup budget fuel executed s = (.done k, s')) :
    s'.isOver budget k = true := by
  induction fuel generalizing executed s with
  | zero => cases h
  | succ fuel ih =>
    cases hover : s.isOver budget executed with
    | true =>
      rw [runFrom_succ_of_isOver sup fuel hover] at h
      cases h
      exact hover
    | false =>
      rcases hpass : s.pass sup fuel (left budget executed) with ⟨m | f | _, s₁⟩
      · rw [runFrom_succ_of_done hover hpass] at h
        exact ih h
      · rw [runFrom_succ_of_not_done hover hpass (by simp)] at h
        cases h
      · rw [runFrom_succ_of_not_done hover hpass (by simp)] at h
        cases h

theorem Tally.refl (s : Session) : s.Tally [] s :=
  ⟨fun _ h ↦ absurd h List.not_mem_nil, fun _ ↦ rfl, fun _ ↦ Nat.le_refl _, fun _ h ↦ h⟩

theorem tally_preservedByVisits (sup : Supervision) (s₀ : Session) :
    PreservedByVisits sup fun turns p s ↦ s.Orderly p ∧ s₀.Tally turns s where
  next := by
    rintro budget turns p p' s s' ⟨horderly, htally⟩ hvisit
    obtain ⟨id, -, -, hserved, -⟩ := served_of_next hvisit
    exact ⟨horderly.next hvisit, htally.served horderly.drained hserved⟩
  finished := by
    rintro budget turns p n s s' ⟨horderly, htally⟩ hvisit
    refine ⟨horderly.finished hvisit, ?_⟩
    cases visited_of_visit hvisit with
    | allVisited | cut =>
      exact ⟨htally.known, htally.balance, htally.steps_le, htally.failed_of_failed⟩

theorem exists_breakdown_of_neverRaises (hsup : sup.NeverRaises) {f : Fault}
    (h : s.run sup fuel budget = (.failed f, s')) : ∃ b, f = .breakdown b := by
  obtain ⟨budget', turns, p', s₁, -, hvisit⟩ := exists_broken_of_runFrom .start h
  cases visited_of_visit hvisit with
  | @raised id t st q e w _ _ hid _ ready hstep htell =>
    cases hh : sup.handler with
    | none =>
      rw [hh] at htell
      cases htell
    | some handler =>
      rw [hh, tell] at htell
      have hraises := congrArg Prod.fst htell
      rw [hsup handler hh] at hraises
      cases hraises
  | brokenDown | unlogged => exact ⟨_, rfl⟩

/-- **Budgeted runs end and account for every step.** Whatever is done about failures, short of
raising a fault, a run with a budget of `n` steps ends. Unless a step breaks down it gives a number
that is at most `n` and the sum of the steps that the threads took, those made on the way included,
and of the threads that failed. If the number is less than `n`, then no thread is active any more,
and all of them are retired. -/
theorem budgeted_runs_account_for_every_step (hs : s.Arises) (hsup : sup.NeverRaises) (n : Nat) :
    ∃ fuel₀ o s', (∀ fuel, fuel₀ ≤ fuel → s.run sup fuel (some (n : Int)) = (o, s')) ∧
      ((∃ b, o = .failed (.breakdown b)) ∨ ∃ k, o = .done k ∧ k ≤ n ∧
        k = s.stepsSince s' + (s.failedSince s').card ∧ (∀ id, s.stepsOf id ≤ s'.stepsOf id) ∧
        (k < n → s'.active = #[] ∧ ∀ t ∈ s'.threads, t.isRetired = true)) := by
  -- each pass takes a step or leaves nobody active, however many threads the handler makes
  obtain ⟨fuel₀, hfuel⟩ := exists_fuel_run sup n s
  rcases hrun : s.run sup fuel₀ (some (n : Int)) with ⟨o, s'⟩
  refine ⟨fuel₀, o, s', fun fuel hle ↦ (hfuel fuel hle).2.1.trans hrun, ?_⟩
  cases o with
  | outOfFuel => exact absurd (congrArg Prod.fst hrun) (hfuel fuel₀ (Nat.le_refl _)).1
  | failed f =>
    obtain ⟨b, rfl⟩ := exists_breakdown_of_neverRaises hsup hrun
    exact .inl ⟨b, rfl⟩
  | done k =>
    have hlength := runFrom_done hrun
    rw [Nat.zero_add] at hlength
    obtain ⟨p, ⟨horderly, htally⟩, hend⟩ := runFrom_preserves (tally_preservedByVisits sup s) []
      ⟨hs.orderly, .refl s⟩ hrun (by simp)
    rw [List.nil_append, ← map_fst_runTraceFrom] at htally
    refine .inr ⟨k, rfl, ?_, ?_, htally.steps_le, fun hlt ↦ ?_⟩
    · have htake := runTrace_some n fuel₀ sup s
      rw [runTrace] at htake
      rw [hlength, htake]
      exact List.length_take_le _ _
    · rw [hlength, ← htally.length_eq, List.length_map]
    · have hover := isOver_of_runFrom hrun
      rw [isOver_some_of_lt hlt, isOver, left, Option.map_none, Option.any_none, Bool.or_false,
        isDone, Array.isEmpty_iff] at hover
      refine ⟨hover, fun t ht ↦ ?_⟩
      obtain ⟨id, hid⟩ := Array.mem_iff_getElem?.mp ht
      cases hend (by simp)
      by_contra hretired
      rw [Bool.not_eq_true] at hretired
      rcases horderly.listed id t hid hretired with hmem | hmem
      · cases hmem
      · rw [hover] at hmem
        cases hmem

end Runs

/-- A session with a thread that will fail. -/
def failing : Session :=
  fresh.spawn [.reference "nowhere"] World.globalFrame

/-- For every thread that fails another one is made that will. -/
def replacing : Supervision where
  handler := some fun _ _ _ ↦ { reactions := [.spawn [.reference "nowhere"] World.globalFrame] }

theorem budgeted_runs_account_for_every_step_replacing :
    ∃ fuel₀ s', (∀ fuel, fuel₀ ≤ fuel → failing.run replacing fuel (some 5) = (.done 5, s')) ∧
      5 = failing.stepsSince s' + (failing.failedSince s').card := by
  have hs : failing.Arises := (Arises.fresh World.fresh).spawn _ _
  have hsup : replacing.NeverRaises := by
    intro h hh s id e
    cases hh
    rfl
  have hrun : (failing.run replacing 9 (some 5)).1 = .done 5 := by decide +kernel
  have hstops : (runFrom replacing (some 5) 9 0 failing).1 ≠ .outOfFuel := by
    intro hout
    cases hrun.symm.trans hout
  obtain ⟨fuel₀, o, s', hfuel, hend⟩ := budgeted_runs_account_for_every_step hs hsup 5
  have hlong := hfuel (max fuel₀ 9) (Nat.le_max_left _ _)
  have ho : o = .done 5 := by
    rw [← hrun]
    exact (congrArg Prod.fst (hlong.symm.trans (runFrom_mono (Nat.le_max_right _ _) hstops).1))
  subst ho
  rcases hend with ⟨b, hb⟩ | ⟨k, hk, -, hsum, -⟩
  · cases hb
  · cases hk
    exact ⟨fuel₀, s', hfuel, hsum⟩

end Session

end Interleave

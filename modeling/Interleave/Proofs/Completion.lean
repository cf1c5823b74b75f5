import Interleave.Proofs.Stops

/-!
# Runs that come to their end

A run with a budget that comes to its end is the run without one (`run_none_of_isDone`). The other
way round, a budget of as many steps as the run without one takes is enough for it, if no thread
fails (`run_some_of_le`). That is not for free. When the last step of the budget is taken in the
middle of a pass, then threads that have nothing to do stay active, and the run has not come to its
end.

The only such threads are those of empty programs, in the first pass. The first step of a program
never is its last. So a thread that takes a step in the first pass and does not fail is kept, there
is a further step to take in the second pass, and a budget that suffices for it is not used up in
the first. From then on everyone on the list has a step to take (`AllLive`), and a pass uses up the
budget only by coming to its end.

Nobody may interfere: those who are told of failures do nothing (`Supervision.IsPassive`).
-/

namespace Interleave

/-- Nobody does anything about failures. -/
def Supervision.IsPassive (sup : Supervision) : Prop :=
  ∀ h, sup.handler = some h → ∀ s id e, h s id e = {}

theorem Supervision.IsPassive.default : ({} : Supervision).IsPassive := by
  intro h hh
  cases hh

theorem Supervision.IsLenient.default : ({} : Supervision).IsLenient := fun _ ↦ rfl

/-- The first step of a program is never its last. -/
theorem Machine.queue_ne_nil_of_step_evaluate {e : Expr} {frame : FrameId} {v v' : Value}
    {q q' : Queue} {w w' : World} (h : step (.evaluate e frame) v q w = (.ok (v', q'), w')) :
    q' ≠ [] := by
  cases stepped_of_step h with
  | number | string | name => exact List.cons_ne_nil _ _
  | call => exact List.append_ne_nil_of_left_ne_nil callSteps_ne_nil _
  | @form es parts f k fm =>
    cases fm <;> exact List.cons_ne_nil _ _
  | nothing hst | literal hst | found hst | joined hst | primitive hst | entered hst | defined hst
  | closure hst => cases hst

namespace Session

/-! ## Visits -/

section Visits

variable {sup : Supervision} {budget : Option Int} {p p' : Progress} {s s' : Session} {id j : Nat}

theorem tell_of_isPassive (hsup : sup.IsPassive) {e : ProgramError} {o : Option Fault}
    (h : tell sup.handler id e s = (o, s')) : o = none ∧ ∃ n, s' = s.note n := by
  cases hh : sup.handler with
  | none =>
    rw [hh] at h
    cases h
    exact ⟨rfl, _, rfl⟩
  | some handler =>
    rw [hh, tell, hsup handler hh] at h
    cases h
    exact ⟨rfl, _, rfl⟩

theorem spawnsNothing_of_isPassive (hsup : sup.IsPassive) : sup.SpawnsNothing := by
  intro h hh s id e r hr
  rw [hsup h hh] at hr
  cases hr

theorem getElem?_threads_of_next (hsup : sup.IsPassive) (h : s.visit sup budget p = .next p' s')
    (hid : s.active[p.visited]? = some id) (hne : j ≠ id) : s'.threads[j]? = s.threads[j]? := by
  have hreplace : ∀ {t st q} t' w, s.Ready id t st q →
      (s.replace id t' w).threads[j]? = s.threads[j]? := by
    intro t st q t' w ready
    have hlt := (Array.getElem?_eq_some_iff.1 ready.thread).1
    rw [getElem?_threads_replace hlt, if_neg hne.symm]
  cases visited_of_visit h with
  | idle hid' =>
    cases hid.symm.trans hid'
    rw [getElem?_threads_retire, if_neg hne.symm]
  | kept hid' _ ready =>
    cases hid.symm.trans hid'
    exact hreplace _ _ ready
  | ended hid' _ ready =>
    cases hid.symm.trans hid'
    rw [getElem?_threads_retire, if_neg hne.symm]
    exact hreplace _ _ ready
  | failed hid' _ ready _ htell =>
    cases hid.symm.trans hid'
    obtain ⟨-, n, rfl⟩ := tell_of_isPassive hsup htell
    refine (getElem?_threads_fail _ id _ j).trans ?_
    rw [if_neg hne.symm]
    exact hreplace _ _ ready

theorem isIdle_of_next (hsup : sup.IsPassive) (h : s.visit sup budget p = .next p' s')
    (hid : s.active[p.visited]? = some id) (hne : j ≠ id) : s'.isIdle j = s.isIdle j :=
  isIdle_congr (getElem?_threads_of_next hsup h hid hne)

theorem isIdle_replace {t t' : Thread} {st : Step} {q : Queue} {w : World}
    (ready : s.Ready id t st q) (hcancelled : t'.isCancelled = t.isCancelled)
    (hq : t'.queue ≠ []) : (s.replace id t' w).isIdle id = false := by
  have hlt := (Array.getElem?_eq_some_iff.1 ready.thread).1
  rw [isIdle, getElem?_threads_replace hlt, if_pos rfl, Option.all_some, hcancelled,
    ready.notCancelled, Bool.false_or, List.isEmpty_eq_false_iff]
  exact hq

theorem visited_of_next (h : s.visit sup budget p = .next p' s') :
    p'.visited = p.visited + 1 ∧ ∃ id, s.active[p.visited]? = some id := by
  rcases next_cases h with ⟨id, hid, -, rfl, -⟩ | ⟨id, -, hid, -, rfl | rfl, -⟩ <;>
    exact ⟨rfl, id, hid⟩

/-- Those still to be visited after a visit were to be visited before, and are as they were. -/
theorem waiting_of_next (hsup : sup.IsPassive) (horder : s.InOrder p)
    (h : s.visit sup budget p = .next p' s') (hj : j ∈ s'.active.toList.drop p'.visited) :
    j ∈ s.active.toList.drop p.visited ∧ s'.threads[j]? = s.threads[j]? := by
  obtain ⟨hvisited, id, hid⟩ := visited_of_next h
  rw [active_of_next (spawnsNothing_of_isPassive hsup) h, hvisited] at hj
  rw [drop_visited hid]
  have hlt := (horder.visiting hid).1 j hj
  exact ⟨List.mem_cons_of_mem _ hj, getElem?_threads_of_next hsup h hid (Nat.ne_of_gt hlt)⟩

/-- In the middle of a pass: everyone who was kept has a step to take. -/
structure Lively (p : Progress) (s : Session) : Prop where
  order : s.InOrder p
  kept : ∀ id ∈ p.kept.toList, s.isIdle id = false

/-- Everyone on the list of active threads has a step to take. -/
def AllLive (s : Session) : Prop := ∀ id ∈ s.active.toList, s.isIdle id = false

theorem Lively.begin (h : s.InOrder {}) : Lively {} s :=
  ⟨h, fun _ hid ↦ absurd hid List.not_mem_nil⟩

theorem Lively.next (hsup : sup.IsPassive) (h : Lively p s)
    (hvisit : s.visit sup budget p = .next p' s') : Lively p' s' := by
  have horder := @PreservedByVisits.next sup _ (InOrder.preservedByVisits sup) _ [] _ _ _ _ h.order
    hvisit
  have hbefore : ∀ {id j}, s.active[p.visited]? = some id → j ∈ p.kept.toList →
      s'.isIdle j = false := by
    intro id j hid hj
    have hne : j ≠ id := fun heq ↦ (h.order.visiting hid).2 (heq ▸ hj)
    rw [isIdle_of_next hsup hvisit hid hne]
    exact h.kept j hj
  refine ⟨horder, fun j hj ↦ ?_⟩
  cases visited_of_visit hvisit with
  | idle hid => exact hbefore hid hj
  | ended hid => exact hbefore hid hj
  | failed hid => exact hbefore hid hj
  | kept hid _ ready _ hq =>
    rw [Progress.keep, Array.toList_push, List.mem_append, List.mem_singleton] at hj
    obtain hj | rfl := hj
    · exact hbefore hid hj
    · exact isIdle_replace ready rfl hq

/-- In the middle of the first pass: those still to be visited have a whole program before them,
and if somebody took a step, then somebody was kept or failed. -/
structure Starting (p : Progress) (s : Session) : Prop where
  lively : Lively p s
  waiting : ∀ id ∈ s.active.toList.drop p.visited, ∀ t, s.threads[id]? = some t →
    ∃ program frame, t.queue = Queue.ofProgram program frame
  begun : 0 < p.executed → p.kept ≠ #[] ∨ s.failed ≠ #[]

theorem Starting.next (hsup : sup.IsPassive) (h : Starting p s)
    (hvisit : s.visit sup budget p = .next p' s') : Starting p' s' := by
  refine ⟨h.lively.next hsup hvisit, fun j hj t ht ↦ ?_, ?_⟩
  · obtain ⟨hj', hsame⟩ := waiting_of_next hsup h.lively.order hvisit hj
    exact h.waiting j hj' t (hsame ▸ ht)
  · cases visited_of_visit hvisit with
    | idle => exact h.begun
    | kept => exact fun _ ↦ .inl Array.push_ne_empty
    | @ended id t st q v w hid _ ready hstep =>
      -- the first step of a program is not its last
      have hmem : id ∈ s.active.toList.drop p.visited := drop_visited hid ▸ List.mem_cons_self
      obtain ⟨program, frame, hqueue⟩ := h.waiting id hmem t ready.thread
      cases program with
      | nil => cases ready.queue.symm.trans hqueue
      | cons e es =>
        cases ready.queue.symm.trans hqueue
        exact absurd rfl (Machine.queue_ne_nil_of_step_evaluate hstep)
    | failed _ _ _ _ htell =>
      obtain ⟨-, n, rfl⟩ := tell_of_isPassive hsup htell
      exact fun _ ↦ .inr Array.push_ne_empty

theorem failed_preservedByVisits (hsup : sup.IsPassive) :
    PreservedByVisits sup fun _ _ s ↦ s.failed ≠ #[] where
  next := by
    intro budget turns p p' s s' h hvisit
    cases visited_of_visit hvisit with
    | idle | kept | ended => exact h
    | failed _ _ _ _ htell =>
      obtain ⟨-, n, rfl⟩ := tell_of_isPassive hsup htell
      exact Array.push_ne_empty
  finished := by
    intro budget turns p n s s' h hvisit
    cases visited_of_visit hvisit with
    | allVisited | cut => exact h

end Visits

/-! ## Passes -/

section Passes

variable {sup : Supervision} {p : Progress} {s s' s₀ : Session} {fuel n : Nat}

/-- A whole pass is a sequence of visits after which there is nobody left to visit. The active
threads then are those that were kept. -/
theorem Visits.exists_last (h : Visits sup s₀ p s)
    (hpass : passFrom sup none fuel p s = (.done n, s')) :
    ∃ p' s₁, Visits sup s₀ p' s₁ ∧ n = p'.executed ∧ s' = { s₁ with active := p'.kept } := by
  induction fuel generalizing p s with
  | zero => cases hpass
  | succ fuel ih =>
    cases hv : s.visit sup none p with
    | next p₁ s₁ =>
      rw [passFrom_succ_of_next hv] at hpass
      exact ih (h.next hv) hpass
    | finished m s₁ =>
      rw [passFrom_succ_of_finished hv] at hpass
      cases hpass
      cases visited_of_visit hv with
      | allVisited => exact ⟨p, s, h, rfl, rfl⟩
      | cut _ hbudget => cases hbudget
    | broken f s₁ =>
      rw [passFrom_succ_of_broken hv] at hpass
      cases hpass

theorem Visits.lively (hsup : sup.IsPassive) (h : Visits sup s₀ p s) (h₀ : Lively {} s₀) :
    Lively p s := by
  induction h with
  | start => exact h₀
  | next _ hvisit ih => exact ih.next hsup hvisit

theorem Visits.starting (hsup : sup.IsPassive) (h : Visits sup s₀ p s) (h₀ : Starting {} s₀) :
    Starting p s := by
  induction h with
  | start => exact h₀
  | next _ hvisit ih => exact ih.next hsup hvisit

/-- After a whole pass everyone on the list has a step to take. -/
theorem allLive_of_pass (hsup : sup.IsPassive) (h : s.InOrder {})
    (hpass : s.pass sup fuel none = (.done n, s')) : s'.AllLive := by
  obtain ⟨p', s₁, hvisits, -, rfl⟩ := Visits.start.exists_last hpass
  exact (hvisits.lively hsup (.begin h)).kept

/-- After the first pass somebody is active or failed, unless there was nothing to do. -/
theorem Starting.pass (hsup : sup.IsPassive) (h : Starting {} s)
    (hpass : s.pass sup fuel none = (.done n, s')) (hn : 0 < n) :
    s'.active ≠ #[] ∨ s'.failed ≠ #[] := by
  obtain ⟨p', s₁, hvisits, rfl, rfl⟩ := Visits.start.exists_last hpass
  exact (hvisits.starting hsup h).begun hn

/-- A pass in which everyone to be visited has a step to take takes as many steps as there are such
threads, and a budget of so many steps makes no difference to it. -/
theorem Lively.pass_some (hsup : sup.IsPassive) (h : Lively p s)
    (hwaiting : ∀ id ∈ s.active.toList.drop p.visited, s.isIdle id = false)
    (hpass : passFrom sup none fuel p s = (.done n, s')) :
    n + p.visited = p.executed + s.active.size ∧
      ∀ b : Nat, n ≤ b → passFrom sup (some (b : Int)) fuel p s = (.done n, s') := by
  induction fuel generalizing p s with
  | zero => cases hpass
  | succ fuel ih =>
    cases hv : s.visit sup none p with
    | next p₁ s₁ =>
      rw [passFrom_succ_of_next hv] at hpass
      have hactive := active_of_next (spawnsNothing_of_isPassive hsup) hv
      -- nobody on the list is idle, so every visit takes a step
      have hcounts : p₁.executed = p.executed + 1 ∧ p₁.visited = p.visited + 1 := by
        rcases next_cases hv with ⟨id, hid, hidle, -⟩ | ⟨id, -, -, -, rfl | rfl, -⟩
        · rw [hwaiting id (drop_visited hid ▸ List.mem_cons_self)] at hidle
          cases hidle
        · exact ⟨rfl, rfl⟩
        · exact ⟨rfl, rfl⟩
      have hrest : ∀ j ∈ s₁.active.toList.drop p₁.visited, s₁.isIdle j = false := by
        intro j hj
        obtain ⟨hj', hsame⟩ := waiting_of_next hsup h.order hv hj
        rw [isIdle_congr hsame]
        exact hwaiting j hj'
      obtain ⟨hn, hsome⟩ := ih (h.next hsup hv) hrest hpass
      have hle := (h.next hsup hv).order.visited_le
      rw [hactive] at hn hle
      refine ⟨by omega, fun b hb ↦ ?_⟩
      -- the budget is not used up before the last visit
      rw [passFrom_succ_of_next ((visit_some_of_lt (by omega)).trans hv)]
      exact hsome b hb
    | finished m s₁ =>
      rw [passFrom_succ_of_finished hv] at hpass
      cases hpass
      cases visited_of_visit hv with
      | allVisited hid =>
        have hvisited := h.order.visited_le
        have hsize := Array.getElem?_eq_none_iff.1 hid
        refine ⟨by omega, fun b _ ↦ ?_⟩
        have hfinished : s.visit sup (some (b : Int)) p
            = .finished p.executed { s with active := p.kept } := by
          rw [visit, hid]
        rw [passFrom_succ_of_finished hfinished]
      | cut _ hbudget => cases hbudget
    | broken f s₁ =>
      rw [passFrom_succ_of_broken hv] at hpass
      cases hpass

end Passes

/-! ## Runs -/

section Runs

variable {sup : Supervision} {s s' : Session} {fuel executed k m n : Nat}

theorem isOver_of_isDone {budget : Option Int} (h : s.isDone = true) :
    s.isOver budget executed = true := by
  rw [isOver, h, Bool.true_or]

/-- The cases of a run without a budget that comes to its end: there is nobody active, or there is
a first pass and a rest. -/
theorem runFrom_none_cases (h : runFrom sup none fuel executed s = (.done n, s')) :
    s.isDone = true ∧ n = executed ∧ s' = s ∨
      s.isDone = false ∧ ∃ fuel' j s₁, fuel = fuel' + 1 ∧ s.pass sup fuel' none = (.done j, s₁) ∧
        runFrom sup none fuel' (executed + j) s₁ = (.done n, s') := by
  cases fuel with
  | zero => cases h
  | succ fuel =>
    cases hover : s.isOver none executed with
    | true =>
      rw [runFrom_succ_of_isOver sup fuel hover] at h
      cases h
      exact .inl ⟨isOver_none s executed ▸ hover, rfl, rfl⟩
    | false =>
      refine .inr ⟨isOver_none s executed ▸ hover, fuel, ?_⟩
      rcases hpass : s.pass sup fuel (left none executed) with ⟨j | f | _, s₁⟩
      · rw [runFrom_succ_of_done hover hpass] at h
        exact ⟨j, s₁, rfl, hpass, h⟩
      · rw [runFrom_succ_of_not_done hover hpass (by simp)] at h
        cases h
      · rw [runFrom_succ_of_not_done hover hpass (by simp)] at h
        cases h

theorem InOrder.of_pass {budget : Option Int} (h : s.InOrder {}) {o : Outcome Nat}
    (hpass : s.pass sup fuel budget = (o, s')) : s'.InOrder {} := by
  have horder : (s.pass sup fuel budget).2.InOrder {} := h.pass fuel
  rwa [hpass] at horder

theorem isDone_of_runFrom_none (h : runFrom sup none fuel executed s = (.done n, s')) :
    s'.isDone = true := by
  induction fuel generalizing executed s with
  | zero => cases h
  | succ fuel ih =>
    rcases runFrom_none_cases h with ⟨hdone, -, rfl⟩ | ⟨-, fuel', j, s₁, hfuel, -, hrest⟩
    · exact hdone
    · cases hfuel
      exact ih hrest

theorem AllLive.lt_of_run (hsup : sup.IsPassive) (horder : s.InOrder {}) (hlive : s.AllLive)
    (hactive : s.isDone = false) (h : runFrom sup none fuel executed s = (.done n, s')) :
    executed < n := by
  rcases runFrom_none_cases h with ⟨hdone, -⟩ | ⟨-, fuel', j, s₁, -, hpass, hrest⟩
  · cases hactive.symm.trans hdone
  · obtain ⟨hj, -⟩ := (Lively.begin horder).pass_some hsup hlive hpass
    have hsize : 0 < s.active.size := by
      rwa [Array.size_pos_iff, ← Array.isEmpty_eq_false_iff]
    have hle := runFrom_done hrest
    simp only [Nat.add_zero, Nat.zero_add] at hj
    omega

/-- Where everyone has a step to take, a budget of as many steps as are taken is enough. -/
theorem AllLive.run_some (hsup : sup.IsPassive) (horder : s.InOrder {}) (hlive : s.AllLive)
    (h : runFrom sup none fuel executed s = (.done n, s')) (hle : n ≤ m) :
    runFrom sup (some (m : Int)) fuel executed s = (.done n, s') := by
  induction fuel generalizing executed s with
  | zero => cases h
  | succ fuel ih =>
    rcases runFrom_none_cases h with ⟨hdone, rfl, rfl⟩ | ⟨hactive, _, j, s₁, hfuel, hpass, hrest⟩
    · exact runFrom_succ_of_isOver sup fuel (isOver_of_isDone hdone)
    · cases hfuel
      have hlt := hlive.lt_of_run hsup horder hactive h
      have hj := runFrom_done hrest
      have hsome : s.pass sup fuel (left (some (m : Int)) executed) = (.done j, s₁) := by
        rw [left_some (by omega)]
        exact ((Lively.begin horder).pass_some hsup hlive hpass).2 (m - executed) (by omega)
      rw [runFrom_succ_of_done (isOver_some_eq_false_iff.2 ⟨by omega, hactive⟩) hsome]
      exact ih (horder.of_pass hpass) (allLive_of_pass hsup horder hpass) hrest

/-- **Enough is enough.** A budget of as many steps as the run takes without one makes no
difference, if no thread fails. -/
theorem run_some_of_le (hsup : sup.IsPassive) (hs : Starting {} s)
    (h : s.run sup fuel none = (.done n, s')) (hfailed : s'.failed = #[]) (hle : n ≤ m)
    (hm : 0 < m) : s.run sup fuel (some (m : Int)) = (.done n, s') := by
  rcases runFrom_none_cases h with ⟨hdone, rfl, rfl⟩ | ⟨hactive, fuel', j, s₁, rfl, hpass, hrest⟩
  · cases fuel with
    | zero => cases h
    | succ fuel => exact runFrom_succ_of_isOver sup fuel (isOver_of_isDone hdone)
  · have horder₁ := hs.lively.order.of_pass hpass
    have hlive₁ := allLive_of_pass hsup hs.lively.order hpass
    rw [Nat.zero_add] at hrest
    have hlt : j < m := by
      rcases Nat.eq_zero_or_pos j with rfl | hpos
      · exact hm
      · -- somebody took a step, did not fail and goes on in the second pass
        rcases hs.pass hsup hpass hpos with hactive₁ | hfailed₁
        · have hmore := hlive₁.lt_of_run hsup horder₁ (Array.isEmpty_eq_false_iff.2 hactive₁) hrest
          omega
        · obtain ⟨p', hp', -⟩ :=
            runFrom_preserves (failed_preservedByVisits hsup) [] hfailed₁ hrest (by simp)
          exact absurd hfailed hp'
    have hsome : s.pass sup fuel' (left (some (m : Int)) 0) = (.done j, s₁) := by
      rw [left_some (Nat.zero_le m), pass, passFrom_some_of_lt, ← pass, hpass]
      have hlength := length_passTrace_of_pass hpass
      simp only [Nat.zero_add, Nat.sub_zero]
      omega
    rw [run, runFrom_succ_of_done (isOver_some_eq_false_iff.2 ⟨hm, hactive⟩) hsome, Nat.zero_add]
    exact hlive₁.run_some hsup horder₁ hrest hle

theorem Passes.run_none (h : Passes sup s k s') (hdone : s'.isDone = true) (executed : Nat) :
    ∃ fuel, runFrom sup none fuel executed s = (.done (executed + k), s') := by
  induction h generalizing executed with
  | refl s => exact ⟨1, runFrom_succ_of_isOver sup 0 (isOver_of_isDone hdone)⟩
  | @cons s s₁ s₂ fuel j k hactive hpass _ ih =>
    obtain ⟨fuel', hrest⟩ := ih hdone (executed + j)
    have hover : s.isOver none executed = false := (isOver_none s executed).trans hactive
    have hpass' : s.pass sup (max fuel fuel') none = (.done j, s₁) := by
      rw [pass, (passFrom_mono (Nat.le_max_left _ _) (by rw [← pass, hpass]; simp)).1]
      exact hpass
    refine ⟨max fuel fuel' + 1, ?_⟩
    rw [runFrom_succ_of_done hover hpass',
      (runFrom_mono (Nat.le_max_right _ _) (by rw [hrest]; simp)).1, hrest, Nat.add_assoc]

/-- Runs that do not run out of fuel come out alike. -/
theorem run_unique {budget : Option Int} {fuel' : Nat} {o o' : Outcome Nat} {s₁ s₂ : Session}
    (h : s.run sup fuel budget = (o, s₁)) (h' : s.run sup fuel' budget = (o', s₂))
    (ho : o ≠ .outOfFuel) (ho' : o' ≠ .outOfFuel) : o = o' ∧ s₁ = s₂ := by
  have hmax := (runFrom_mono (Nat.le_max_left fuel fuel') (by rwa [← run, h])).1
  have hmax' := (runFrom_mono (Nat.le_max_right fuel fuel') (by rwa [← run, h'])).1
  have heq := hmax.symm.trans hmax'
  rw [← run, ← run, h, h'] at heq
  exact Prod.ext_iff.1 heq

/-- A run with a budget after which nobody is active is the run without one. -/
theorem run_none_of_isDone (h : s.run sup fuel (some (m : Int)) = (.done n, s'))
    (hdone : s'.isDone = true) :
    n ≤ m ∧ ∃ fuel', s.run sup fuel' none = (.done n, s') := by
  rcases runFrom_cases (Nat.zero_le m) h with ⟨k, rfl, hpasses, hend⟩ | ⟨-, p, s₁, hstops, rfl⟩
  · exact ⟨by omega, hpasses.run_none hdone 0⟩
  · cases (isDone_cut hstops.waiting).symm.trans hdone

end Runs

end Session

end Interleave

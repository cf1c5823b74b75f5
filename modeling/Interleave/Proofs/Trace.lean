import Interleave.Proofs.Session

/-!
# Traces of passes and runs

The trace of a pass or run lists the steps that threads took, failing ones included, each with the
session that it left behind. What the pass or run itself leaves behind is the session after the last
step, but for changes that do not show (`runFrom_quiet`).

Passes and runs take fuel, and their traces grow with it: more fuel adds to the end of a trace
(`runTraceFrom_prefix_of_le`) and changes nothing once a run has ended (`runFrom_mono`).

## Changes that do not show

Between two steps a session changes in ways that no program can notice: threads that have nothing to
do are retired without a step, and a note is made of it. The trace does not record this.
`Session.Quiet` says what such changes leave alone, and the session that a trace ends with is the
one that the run leaves, up to them.

## Fuel

A trace is defined for any amount of fuel, also where the run gives out. So a run that never ends
has a trace of every length, and statements about its steps are statements about all of these
traces. Each is the beginning of the next.
-/

namespace Interleave

/-- Steps that threads took, each with the session that it left. -/
abbrev Trace := List (Turn × Session)

namespace Trace

/-- The session after the last step, if there was one. -/
def last (s : Session) (trace : Trace) : Session :=
  trace.foldl (fun _ entry ↦ entry.2) s

/-- The numbers of the threads that took the steps. -/
def threads (trace : Trace) : List Nat :=
  trace.map fun entry ↦ entry.1.thread

theorem last_append (s : Session) (trace trace' : Trace) :
    last s (trace ++ trace') = last (last s trace) trace' :=
  List.foldl_append

theorem last_quiet {s s' : Session} (h : s.Quiet s') (trace : Trace) :
    (last s trace).Quiet (last s' trace) := by
  cases trace with
  | nil => exact h
  | cons entry trace => exact .refl _

end Trace

namespace Session

/-! ## Traces -/

/-- The trace of a visit. It has at most one step. -/
def visitTrace (sup : Supervision) (budget : Option Int) (p : Progress) (s : Session) : Trace :=
  match s.visit sup budget p with
  | .next _ s' => (s.visitTurns sup budget p).map (·, s')
  | .finished .. | .broken .. => []

/-- The trace of a pass from some point on. -/
def passTrace (sup : Supervision) (budget : Option Int) :
    (fuel : Nat) → Progress → Session → Trace
  | 0, _, _ => []
  | fuel + 1, p, s =>
    s.visitTrace sup budget p ++
      match s.visit sup budget p with
      | .next p' s' => passTrace sup budget fuel p' s'
      | .finished .. | .broken .. => []

def runTraceFrom (sup : Supervision) (budget : Option Int) :
    (fuel executed : Nat) → Session → Trace
  | 0, _, _ => []
  | fuel + 1, executed, s =>
    let left := budget.map (· - (executed : Int))
    if s.isDone || left.any (· ≤ 0) then []
    else
      passTrace sup left fuel {} s ++
        match s.pass sup fuel left with
        | (.done n, s') => runTraceFrom sup budget fuel (executed + n) s'
        | _ => []

/-- The trace of a run. -/
def runTrace (sup : Supervision) (fuel : Nat) (budget : Option Int) (s : Session) : Trace :=
  runTraceFrom sup budget fuel 0 s

section Basic

variable {sup : Supervision} {budget : Option Int} {p p' : Progress} {s s' : Session}
  {fuel fuel' executed : Nat}

/-! ### Visits -/

theorem visitTrace_of_next (h : s.visit sup budget p = .next p' s') :
    s.visitTrace sup budget p = (s.visitTurns sup budget p).map (·, s') := by
  rw [visitTrace, h]

theorem visitTrace_of_finished {n : Nat} (h : s.visit sup budget p = .finished n s') :
    s.visitTrace sup budget p = [] := by
  rw [visitTrace, h]

theorem visitTrace_of_broken {f : Fault} (h : s.visit sup budget p = .broken f s') :
    s.visitTrace sup budget p = [] := by
  rw [visitTrace, h]

theorem visitTrace_of_executed {id : Nat} (h : s.visit sup budget p = .next p' s')
    (hid : s.active[p.visited]? = some id) (hlt : p.executed < p'.executed) :
    s.visitTrace sup budget p = [(⟨id, s.textsSince s'⟩, s')] := by
  rw [visitTrace_of_next h, visitTurns, h, hid]
  simp only [hlt, if_true, Option.getD_some, List.map_cons, List.map_nil]

/-- A visit that does not end the pass took a step, or retired a thread without one. -/
theorem next_cases (h : s.visit sup budget p = .next p' s') :
    (∃ id, s.active[p.visited]? = some id ∧ s.isIdle id = true ∧ p' = p.skip ∧ s' = s.retire id ∧
        s.visitTrace sup budget p = []) ∨
      ∃ id texts, s.active[p.visited]? = some id ∧ s.isIdle id = false ∧
        (p' = p.keep id ∨ p' = p.drop) ∧ s.visitTrace sup budget p = [(⟨id, texts⟩, s')] := by
  have hlt : p.executed < p.executed + 1 := Nat.lt_succ_self _
  cases visited_of_visit h with
  | @idle id hid hbudget hidle =>
    rw [visitTrace_of_next h, visitTurns_of_skip h]
    exact .inl ⟨id, hid, hidle, rfl, rfl, rfl⟩
  | @kept id t st q q' v w hid hbudget ready hstep hq =>
    exact .inr ⟨id, _, hid, isIdle_of_ready ready, .inl rfl, visitTrace_of_executed h hid hlt⟩
  | @ended id t st q v w hid hbudget ready hstep =>
    exact .inr ⟨id, _, hid, isIdle_of_ready ready, .inr rfl, visitTrace_of_executed h hid hlt⟩
  | @failed id t st q e w _ hid hbudget ready hstep htell =>
    exact .inr ⟨id, _, hid, isIdle_of_ready ready, .inr rfl, visitTrace_of_executed h hid hlt⟩

theorem executed_of_next (h : s.visit sup budget p = .next p' s') :
    p'.executed = p.executed + (s.visitTrace sup budget p).length := by
  rcases next_cases h with ⟨id, -, -, rfl, -, htrace⟩ | ⟨id, texts, -, -, rfl | rfl, htrace⟩ <;>
    rw [htrace] <;> rfl

theorem executed_of_finished {n : Nat} (h : s.visit sup budget p = .finished n s') :
    n = p.executed := by
  cases visited_of_visit h with
  | allVisited => rfl
  | cut => rfl

theorem quiet_of_finished {n : Nat} (h : s.visit sup budget p = .finished n s') : s.Quiet s' := by
  cases visited_of_visit h with
  | allVisited => exact ⟨rfl, fun ht ↦ ⟨_, ht, rfl, rfl, rfl, rfl⟩, _, rfl⟩
  | cut => exact ⟨rfl, fun ht ↦ ⟨_, ht, rfl, rfl, rfl, rfl⟩, _, rfl⟩

/-- What a visit leaves is the session after its step, but for changes that do not show. -/
theorem quiet_of_next (h : s.visit sup budget p = .next p' s') :
    (Trace.last s (s.visitTrace sup budget p)).Quiet s' := by
  rcases next_cases h with ⟨id, -, -, -, rfl, htrace⟩ | ⟨id, texts, -, -, -, htrace⟩
  · rw [htrace]
    exact .retire s id
  · rw [htrace]
    exact .refl s'

/-! ### Passes -/

theorem passTrace_succ_of_next (h : s.visit sup budget p = .next p' s') :
    passTrace sup budget (fuel + 1) p s =
      s.visitTrace sup budget p ++ passTrace sup budget fuel p' s' := by
  rw [passTrace, h]

theorem passTrace_succ_of_finished {n : Nat} (h : s.visit sup budget p = .finished n s') :
    passTrace sup budget (fuel + 1) p s = [] := by
  rw [passTrace, visitTrace_of_finished h, h, List.nil_append]

theorem passTrace_succ_of_broken {f : Fault} (h : s.visit sup budget p = .broken f s') :
    passTrace sup budget (fuel + 1) p s = [] := by
  rw [passTrace, visitTrace_of_broken h, h, List.nil_append]

theorem passFrom_succ_of_next (h : s.visit sup budget p = .next p' s') :
    passFrom sup budget (fuel + 1) p s = passFrom sup budget fuel p' s' := by
  rw [passFrom, h]

theorem passFrom_succ_of_finished {n : Nat} (h : s.visit sup budget p = .finished n s') :
    passFrom sup budget (fuel + 1) p s = (.done n, s') := by
  rw [passFrom, h]

theorem passFrom_succ_of_broken {f : Fault} (h : s.visit sup budget p = .broken f s') :
    passFrom sup budget (fuel + 1) p s = (.failed f, s') := by
  rw [passFrom, h]

/-- The number of steps that a pass gives is the number of steps that it took. -/
theorem passFrom_done {n : Nat} (h : passFrom sup budget fuel p s = (.done n, s')) :
    n = p.executed + (passTrace sup budget fuel p s).length := by
  induction fuel generalizing p s with
  | zero => cases h
  | succ fuel ih =>
    cases hv : s.visit sup budget p with
    | next p₁ s₁ =>
      rw [passFrom_succ_of_next hv] at h
      rw [ih h, passTrace_succ_of_next hv, List.length_append, executed_of_next hv, Nat.add_assoc]
    | finished m s₁ =>
      rw [passFrom_succ_of_finished hv] at h
      cases h
      rw [passTrace_succ_of_finished hv, executed_of_finished hv]
      rfl
    | broken f s₁ =>
      rw [passFrom_succ_of_broken hv] at h
      cases h

/-- What a pass leaves, unless a fault ended it, is the session after its last step, but for changes
that do not show. -/
theorem passFrom_quiet {o : Outcome Nat} (h : passFrom sup budget fuel p s = (o, s'))
    (ho : ∀ f, o ≠ .failed f) : (Trace.last s (passTrace sup budget fuel p s)).Quiet s' := by
  induction fuel generalizing p s with
  | zero =>
    cases h
    exact .refl _
  | succ fuel ih =>
    cases hv : s.visit sup budget p with
    | next p₁ s₁ =>
      rw [passFrom_succ_of_next hv] at h
      rw [passTrace_succ_of_next hv, Trace.last_append]
      exact (Trace.last_quiet (quiet_of_next hv) _).trans (ih h)
    | finished m s₁ =>
      rw [passFrom_succ_of_finished hv] at h
      cases h
      rw [passTrace_succ_of_finished hv]
      exact quiet_of_finished hv
    | broken f s₁ =>
      rw [passFrom_succ_of_broken hv] at h
      cases h
      exact absurd rfl (ho f)

/-! ### Runs -/

/-- What is left of a budget after so many steps. -/
def left (budget : Option Int) (executed : Nat) : Option Int :=
  budget.map (· - (executed : Int))

/-- Whether a run has nothing more to do after so many steps. -/
def isOver (budget : Option Int) (executed : Nat) (s : Session) : Bool :=
  s.isDone || (left budget executed).any (· ≤ 0)

section Equations

variable (sup fuel)

theorem runFrom_succ_of_isOver (h : s.isOver budget executed = true) :
    runFrom sup budget (fuel + 1) executed s = (.done executed, s) := by
  rw [runFrom]
  exact if_pos h

theorem runTraceFrom_succ_of_isOver (h : s.isOver budget executed = true) :
    runTraceFrom sup budget (fuel + 1) executed s = [] := by
  rw [runTraceFrom]
  exact if_pos h

end Equations

theorem runFrom_succ_of_done {n : Nat} (h : s.isOver budget executed = false)
    (hpass : s.pass sup fuel (left budget executed) = (.done n, s')) :
    runFrom sup budget (fuel + 1) executed s = runFrom sup budget fuel (executed + n) s' := by
  rw [runFrom]
  refine (if_neg (Bool.not_eq_true _ ▸ h)).trans ?_
  rw [left] at hpass
  rw [hpass]

theorem runTraceFrom_succ_of_done {n : Nat} (h : s.isOver budget executed = false)
    (hpass : s.pass sup fuel (left budget executed) = (.done n, s')) :
    runTraceFrom sup budget (fuel + 1) executed s =
      passTrace sup (left budget executed) fuel {} s ++
        runTraceFrom sup budget fuel (executed + n) s' := by
  rw [runTraceFrom]
  refine (if_neg (Bool.not_eq_true _ ▸ h)).trans ?_
  rw [left] at hpass
  rw [hpass, left]

theorem runFrom_succ_of_not_done {o : Outcome Nat} (h : s.isOver budget executed = false)
    (hpass : s.pass sup fuel (left budget executed) = (o, s')) (ho : ∀ n, o ≠ .done n) :
    runFrom sup budget (fuel + 1) executed s = (o, s') := by
  rw [runFrom]
  refine (if_neg (Bool.not_eq_true _ ▸ h)).trans ?_
  rw [left] at hpass
  rw [hpass]
  cases o with
  | done n => exact absurd rfl (ho n)
  | failed f => rfl
  | outOfFuel => rfl

theorem runTraceFrom_succ_of_not_done {o : Outcome Nat} (h : s.isOver budget executed = false)
    (hpass : s.pass sup fuel (left budget executed) = (o, s')) (ho : ∀ n, o ≠ .done n) :
    runTraceFrom sup budget (fuel + 1) executed s
      = passTrace sup (left budget executed) fuel {} s := by
  rw [runTraceFrom]
  refine (if_neg (Bool.not_eq_true _ ▸ h)).trans ?_
  rw [left] at hpass
  rw [hpass, left]
  cases o with
  | done n => exact absurd rfl (ho n)
  | failed f => exact List.append_nil _
  | outOfFuel => exact List.append_nil _

/-- The number of steps that a run gives is the number of steps that it took. -/
theorem runFrom_done {n : Nat} (h : runFrom sup budget fuel executed s = (.done n, s')) :
    n = executed + (runTraceFrom sup budget fuel executed s).length := by
  induction fuel generalizing executed s with
  | zero => cases h
  | succ fuel ih =>
    cases hover : s.isOver budget executed with
    | true =>
      rw [runFrom_succ_of_isOver sup fuel hover] at h
      cases h
      rw [runTraceFrom_succ_of_isOver sup fuel hover]
      rfl
    | false =>
      rcases hpass : s.pass sup fuel (left budget executed) with ⟨m | f | _, s₁⟩
      · rw [runFrom_succ_of_done hover hpass] at h
        have hm := passFrom_done hpass
        rw [Nat.zero_add] at hm
        rw [ih h, runTraceFrom_succ_of_done hover hpass, List.length_append, hm, Nat.add_assoc]
      · rw [runFrom_succ_of_not_done hover hpass (by simp)] at h
        cases h
      · rw [runFrom_succ_of_not_done hover hpass (by simp)] at h
        cases h

/-- What a run leaves, unless a fault ended it, is the session after its last step, but for changes
that do not show. -/
theorem runFrom_quiet {o : Outcome Nat} (h : runFrom sup budget fuel executed s = (o, s'))
    (ho : ∀ f, o ≠ .failed f) :
    (Trace.last s (runTraceFrom sup budget fuel executed s)).Quiet s' := by
  induction fuel generalizing executed s with
  | zero =>
    cases h
    exact .refl _
  | succ fuel ih =>
    cases hover : s.isOver budget executed with
    | true =>
      rw [runFrom_succ_of_isOver sup fuel hover] at h
      cases h
      rw [runTraceFrom_succ_of_isOver sup fuel hover]
      exact .refl _
    | false =>
      rcases hpass : s.pass sup fuel (left budget executed) with ⟨m | f | _, s₁⟩
      · rw [runFrom_succ_of_done hover hpass] at h
        have hquiet := passFrom_quiet hpass (by simp)
        rw [runTraceFrom_succ_of_done hover hpass, Trace.last_append]
        exact (Trace.last_quiet hquiet _).trans (ih h)
      · rw [runFrom_succ_of_not_done hover hpass (by simp)] at h
        cases h
        exact absurd rfl (ho f)
      · rw [runFrom_succ_of_not_done hover hpass (by simp)] at h
        cases h
        rw [runTraceFrom_succ_of_not_done hover hpass (by simp)]
        exact passFrom_quiet hpass ho

/-- A run that comes to an end gives the number of steps that it took, and leaves the session after
the last of them, but for changes that do not show. -/
theorem exists_done_of_run (hends : (s.run sup fuel budget).1 ≠ .outOfFuel)
    (hfailed : ∀ f, (s.run sup fuel budget).1 ≠ .failed f) :
    ∃ s', s.run sup fuel budget = (.done (s.runTrace sup fuel budget).length, s') ∧
      (Trace.last s (s.runTrace sup fuel budget)).Quiet s' := by
  rcases hrun : s.run sup fuel budget with ⟨n | f | _, s'⟩
  · have hn := runFrom_done hrun
    rw [Nat.zero_add] at hn
    exact ⟨s', by rw [hn]; rfl, runFrom_quiet hrun (by simp)⟩
  · rw [hrun] at hfailed
    exact absurd rfl (hfailed f)
  · rw [hrun] at hends
    exact absurd rfl hends

end Basic

/-! ## More fuel -/

section Fuel

variable {sup : Supervision} {budget : Option Int} {p : Progress} {s : Session}
  {fuel fuel' executed : Nat}

theorem passFrom_mono (hle : fuel ≤ fuel') (h : (passFrom sup budget fuel p s).1 ≠ .outOfFuel) :
    passFrom sup budget fuel' p s = passFrom sup budget fuel p s ∧
      passTrace sup budget fuel' p s = passTrace sup budget fuel p s := by
  induction fuel generalizing fuel' p s with
  | zero => exact absurd rfl h
  | succ fuel ih =>
    obtain ⟨fuel', rfl⟩ := Nat.exists_eq_succ_of_ne_zero (Nat.ne_zero_of_lt hle)
    cases hv : s.visit sup budget p with
    | next p₁ s₁ =>
      rw [passFrom_succ_of_next hv] at h
      obtain ⟨hpass, htrace⟩ := ih (Nat.le_of_succ_le_succ hle) h
      rw [passFrom_succ_of_next hv, passFrom_succ_of_next hv, passTrace_succ_of_next hv,
        passTrace_succ_of_next hv, htrace]
      exact ⟨hpass, rfl⟩
    | finished n s₁ =>
      rw [passFrom_succ_of_finished hv, passFrom_succ_of_finished hv,
        passTrace_succ_of_finished hv, passTrace_succ_of_finished hv]
      exact ⟨rfl, rfl⟩
    | broken f s₁ =>
      rw [passFrom_succ_of_broken hv, passFrom_succ_of_broken hv, passTrace_succ_of_broken hv,
        passTrace_succ_of_broken hv]
      exact ⟨rfl, rfl⟩

theorem passTrace_prefix_of_le (hle : fuel ≤ fuel') :
    passTrace sup budget fuel p s <+: passTrace sup budget fuel' p s := by
  induction fuel generalizing fuel' p s with
  | zero => exact List.nil_prefix
  | succ fuel ih =>
    obtain ⟨fuel', rfl⟩ := Nat.exists_eq_succ_of_ne_zero (Nat.ne_zero_of_lt hle)
    cases hv : s.visit sup budget p with
    | next p₁ s₁ =>
      rw [passTrace_succ_of_next hv, passTrace_succ_of_next hv, List.prefix_append_right_inj]
      exact ih (Nat.le_of_succ_le_succ hle)
    | finished n s₁ =>
      rw [passTrace_succ_of_finished hv]
      exact List.nil_prefix
    | broken f s₁ =>
      rw [passTrace_succ_of_broken hv]
      exact List.nil_prefix

theorem runFrom_mono (hle : fuel ≤ fuel')
    (h : (runFrom sup budget fuel executed s).1 ≠ .outOfFuel) :
    runFrom sup budget fuel' executed s = runFrom sup budget fuel executed s ∧
      runTraceFrom sup budget fuel' executed s = runTraceFrom sup budget fuel executed s := by
  induction fuel generalizing fuel' executed s with
  | zero => exact absurd rfl h
  | succ fuel ih =>
    obtain ⟨fuel', rfl⟩ := Nat.exists_eq_succ_of_ne_zero (Nat.ne_zero_of_lt hle)
    have hle' := Nat.le_of_succ_le_succ hle
    cases hover : s.isOver budget executed with
    | true =>
      simp only [runFrom_succ_of_isOver sup _ hover, runTraceFrom_succ_of_isOver sup _ hover]
      exact ⟨trivial, trivial⟩
    | false =>
      -- more fuel for the run is more fuel for each of its passes
      rcases hpass : s.pass sup fuel (left budget executed) with ⟨m | f | _, s₁⟩
      · obtain ⟨hpass', htrace⟩ := passFrom_mono hle' (by rw [pass] at hpass; rw [hpass]; simp)
        have hpass₁ := hpass'.trans hpass
        rw [runFrom_succ_of_done hover hpass] at h
        obtain ⟨hrun, hruntrace⟩ := ih hle' h
        rw [runFrom_succ_of_done hover hpass, runFrom_succ_of_done hover hpass₁,
          runTraceFrom_succ_of_done hover hpass, runTraceFrom_succ_of_done hover hpass₁, htrace,
          hruntrace]
        exact ⟨hrun, rfl⟩
      · obtain ⟨hpass', htrace⟩ := passFrom_mono hle' (by rw [pass] at hpass; rw [hpass]; simp)
        have hpass₁ := hpass'.trans hpass
        rw [runFrom_succ_of_not_done hover hpass (by simp),
          runFrom_succ_of_not_done hover hpass₁ (by simp),
          runTraceFrom_succ_of_not_done hover hpass (by simp),
          runTraceFrom_succ_of_not_done hover hpass₁ (by simp)]
        exact ⟨rfl, htrace⟩
      · rw [runFrom_succ_of_not_done hover hpass (by simp)] at h
        exact absurd rfl h

theorem passTrace_prefix_of_not_isOver (hover : s.isOver budget executed = false) :
    passTrace sup (left budget executed) fuel {} s
      <+: runTraceFrom sup budget (fuel + 1) executed s := by
  rcases hpass : s.pass sup fuel (left budget executed) with ⟨o, s'⟩
  by_cases ho : ∃ n, o = .done n
  · obtain ⟨n, rfl⟩ := ho
    rw [runTraceFrom_succ_of_done hover hpass]
    exact List.prefix_append _ _
  · have hend := runTraceFrom_succ_of_not_done hover hpass (not_exists.mp ho)
    exact ⟨[], by rw [List.append_nil, hend]⟩

theorem runTraceFrom_prefix_of_le (hle : fuel ≤ fuel') :
    runTraceFrom sup budget fuel executed s <+: runTraceFrom sup budget fuel' executed s := by
  induction fuel generalizing fuel' executed s with
  | zero => exact List.nil_prefix
  | succ fuel ih =>
    obtain ⟨fuel', rfl⟩ := Nat.exists_eq_succ_of_ne_zero (Nat.ne_zero_of_lt hle)
    have hle' := Nat.le_of_succ_le_succ hle
    cases hover : s.isOver budget executed with
    | true =>
      rw [runTraceFrom_succ_of_isOver sup fuel hover]
      exact List.nil_prefix
    | false =>
      rcases hpass : s.pass sup fuel (left budget executed) with ⟨o, s₁⟩
      by_cases ho : ∃ n, o = .done n
      · obtain ⟨n, rfl⟩ := ho
        obtain ⟨hpass', htrace⟩ := passFrom_mono hle' (by rw [pass] at hpass; rw [hpass]; simp)
        rw [runTraceFrom_succ_of_done hover hpass,
          runTraceFrom_succ_of_done hover (hpass'.trans hpass), htrace,
          List.prefix_append_right_inj]
        exact ih hle'
      · -- with the pass the run is at its end, or was cut off and goes on where it was
        rw [runTraceFrom_succ_of_not_done hover hpass (not_exists.mp ho)]
        exact (passTrace_prefix_of_le hle').trans (passTrace_prefix_of_not_isOver hover)

end Fuel

end Session

end Interleave

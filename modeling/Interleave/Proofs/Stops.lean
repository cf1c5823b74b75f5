import Interleave.Proofs.RoundRobin

/-!
# Where runs stop

A run with a budget stops between two passes or inside one (`runFrom_cases`). In the first case it
went through whole passes (`Passes`), in the second there are visits after that, and somebody is
still to be visited (`StopsInside`). A run whose budget is larger comes to the same point and goes
on from there (`Passes.runFrom_eq`, `StopsInside.run_eq`).

## The point where a run stops

A budget is compared with the steps taken before each visit. It can be used up by the last visit of
a pass, and then the pass is over as it would be without a budget; the run stops before the next
one. It can be used up earlier, and then the pass is cut: those who were not visited stay active
behind those who were kept (`Session.cut`). At least one step was taken in a pass that is cut, and
at least one thread is waiting, so there were at least two threads to visit (`StopsInside.two_le`).

The two descriptions are in terms of visits without a budget, which is what makes runs with
different budgets comparable: the point where one of them stops is a point that the others pass.
-/

namespace Interleave

/-- The outcome of going on after so many steps. -/
def Outcome.after (k : Nat) : Outcome Nat → Outcome Nat
  | .done n => .done (k + n)
  | .failed f => .failed f
  | .outOfFuel => .outOfFuel

namespace Session

/-! ## Whole passes and parts of passes -/

/-- Whole passes lead from one session to another, in so many steps. -/
inductive Passes (sup : Supervision) : Session → Nat → Session → Prop where
  | refl (s : Session) : Passes sup s 0 s
  | cons {s s' s'' : Session} {fuel n k : Nat} (hactive : s.isDone = false)
    (hpass : s.pass sup fuel none = (.done n, s')) (h : Passes sup s' k s'') :
    Passes sup s (n + k) s''

/-- The first visits of a pass lead so far. -/
inductive Visits (sup : Supervision) (s₀ : Session) : Progress → Session → Prop where
  | start : Visits sup s₀ {} s₀
  | next {p p' : Progress} {s s' : Session} (h : Visits sup s₀ p s)
    (hvisit : s.visit sup none p = .next p' s') : Visits sup s₀ p' s'

/-- After so many steps a run is stopped in the middle of a pass, when it has come so far. Somebody
is still to be visited. -/
structure StopsInside (sup : Supervision) (s : Session) (m : Nat) (p : Progress) (s' : Session) :
    Prop where
  visits : ∃ k s₀, Passes sup s k s₀ ∧ s₀.isDone = false ∧ Visits sup s₀ p s' ∧ k + p.executed = m
  executed : 0 < p.executed
  waiting : p.visited < s'.active.size

/-- What is left when a pass is cut: those not visited stay active behind those that were kept. -/
def cut (p : Progress) (s : Session) : Session :=
  { s with active := p.kept ++ s.active.extract p.visited }

section Cuts

variable {sup : Supervision} {p : Progress} {s s' s₀ s₁ : Session} {fuel executed b k m n : Nat}

theorem isDone_cut (hwaiting : p.visited < s.active.size) : (cut p s).isDone = false := by
  rw [isDone, Array.isEmpty_eq_false_iff]
  intro hempty
  have hsize := congrArg Array.size hempty
  simp only [cut, Array.size_append, Array.size_extract, Array.size_empty] at hsize
  omega

theorem isOver_none (s : Session) (executed : Nat) : s.isOver none executed = s.isDone := by
  rw [isOver, left, Option.map_none, Option.any_none, Bool.or_false]

theorem isOver_some_eq_isDone (h : executed < m) :
    s.isOver (some (m : Int)) executed = s.isDone := by
  rw [isOver_some_of_lt h, isOver_none]

theorem isOver_some_eq_false_iff :
    s.isOver (some (m : Int)) executed = false ↔ executed < m ∧ s.isDone = false := by
  rcases Nat.lt_or_ge executed m with hlt | hge
  · rw [isOver_some_eq_isDone hlt]
    exact (and_iff_right hlt).symm
  · rw [isOver_some_of_le hge]
    simp only [Bool.true_eq_false, Nat.not_lt.mpr hge, false_and]

theorem length_passTrace_of_pass {budget : Option Int}
    (hpass : s.pass sup fuel budget = (.done n, s')) :
    (passTrace sup budget fuel {} s).length = n := by
  have hdone := passFrom_done hpass
  rw [Nat.zero_add] at hdone
  exact hdone.symm

/-- A run that stops inside a pass may go through a whole pass before. -/
theorem StopsInside.after_pass (hactive : s.isDone = false)
    (hpass : s.pass sup fuel none = (.done n, s')) (h : StopsInside sup s' m p s₁) :
    StopsInside sup s (n + m) p s₁ := by
  obtain ⟨k, s₀, hpasses, hs₀, hvisits, rfl⟩ := h.visits
  exact ⟨⟨n + k, s₀, .cons hactive hpass hpasses, hs₀, hvisits, Nat.add_assoc n k p.executed⟩,
    h.executed, h.waiting⟩

/-- A pass that comes to its end within its budget is whole, or the budget was used up in it. -/
theorem Visits.pass_cases (h : Visits sup s₀ p s) (hle : p.executed ≤ b)
    (hpass : passFrom sup (some (b : Int)) fuel p s = (.done n, s')) :
    passFrom sup none fuel p s = (.done n, s') ∨ n = b ∧ ∃ p' s₁, Visits sup s₀ p' s₁ ∧
      p'.executed = b ∧ p'.visited < s₁.active.size ∧ s' = cut p' s₁ := by
  induction fuel generalizing p s with
  | zero => cases hpass
  | succ fuel ih =>
    rcases Nat.lt_or_ge p.executed b with hlt | hge
    · have hvisit : s.visit sup (some (b : Int)) p = s.visit sup none p := visit_some_of_lt hlt
      cases hv : s.visit sup none p with
      | next p₁ s₁ =>
        have hsteps := executed_of_next hv
        have hone := length_visitTrace_le sup none p s
        rw [passFrom_succ_of_next (hvisit.trans hv)] at hpass
        rw [passFrom_succ_of_next hv]
        exact ih (h.next hv) (by omega) hpass
      | finished j s₁ =>
        rw [passFrom_succ_of_finished (hvisit.trans hv)] at hpass
        rw [passFrom_succ_of_finished hv]
        exact .inl hpass
      | broken f s₁ =>
        rw [passFrom_succ_of_broken (hvisit.trans hv)] at hpass
        cases hpass
    · have hb : p.executed = b := Nat.le_antisymm hle hge
      -- the budget is used up: the pass is over anyway, or somebody is still waiting
      have hany : (some (b : Int)).any (· ≤ (p.executed : Int)) = true := by
        rw [Option.any_some, decide_eq_true_eq]
        exact Int.ofNat_le.mpr hge
      cases hid : s.active[p.visited]? with
      | none =>
        have hvisit : ∀ budget, s.visit sup budget p
            = .finished p.executed { s with active := p.kept } := by
          intro budget
          rw [visit, hid]
        rw [passFrom_succ_of_finished (hvisit _)] at hpass ⊢
        exact .inl hpass
      | some id =>
        have hvisit : s.visit sup (some (b : Int)) p = .finished p.executed (cut p s) := by
          rw [visit, hid]
          exact if_pos hany
        rw [passFrom_succ_of_finished hvisit] at hpass
        cases hpass
        exact .inr ⟨hb, p, s, h, hb, (Array.getElem?_eq_some_iff.mp hid).1, rfl⟩

/-- **A run stops between passes or inside one.** In the first case it has used its budget up or
there is nobody left, in the second it has used its budget up. -/
theorem runFrom_cases (hle : executed ≤ m)
    (h : runFrom sup (some (m : Int)) fuel executed s = (.done n, s')) :
    (∃ k, n = executed + k ∧ Passes sup s k s' ∧ (n = m ∨ n < m ∧ s'.isDone = true)) ∨
      n = m ∧ ∃ p s₁, StopsInside sup s (m - executed) p s₁ ∧ s' = cut p s₁ := by
  induction fuel generalizing executed s with
  | zero => cases h
  | succ fuel ih =>
    cases hover : s.isOver (some (m : Int)) executed with
    | true =>
      rw [runFrom_succ_of_isOver sup fuel hover] at h
      cases h
      refine .inl ⟨0, rfl, .refl _, ?_⟩
      rcases Nat.lt_or_ge n m with hlt | hge
      · exact .inr ⟨hlt, isOver_some_eq_isDone hlt ▸ hover⟩
      · exact .inl (Nat.le_antisymm hle hge)
    | false =>
      obtain ⟨hlt, hactive⟩ := isOver_some_eq_false_iff.mp hover
      rcases hpass : s.pass sup fuel (left (some (m : Int)) executed) with ⟨j | f | _, s₁⟩
      · rw [runFrom_succ_of_done hover hpass] at h
        rw [left_some (Nat.le_of_lt hlt)] at hpass
        rcases Visits.start.pass_cases (Nat.zero_le _) hpass with
          hwhole | ⟨rfl, p, s₂, hvisits, hsteps, hwaiting, rfl⟩
        · have hj : executed + j ≤ m := by
            have hsteps := length_passTrace_of_pass hpass
            rw [passTrace_some (Nat.zero_le _), List.length_take] at hsteps
            simp only [Nat.sub_zero] at hsteps
            omega
          rcases ih hj h with ⟨k, rfl, hpasses, hend⟩ | ⟨rfl, p, s₂, hstops, rfl⟩
          · exact .inl ⟨j + k, by omega, .cons hactive hwhole hpasses, hend⟩
          · have hm : j + (n - (executed + j)) = n - executed := by omega
            exact .inr ⟨rfl, p, s₂, hm ▸ hstops.after_pass hactive hwhole, rfl⟩
        · -- the budget is used up, so the run is over
          have hover' : (cut p s₂).isOver (some (m : Int)) (executed + (m - executed)) = true :=
            isOver_some_of_le (by omega)
          cases fuel with
          | zero => cases h
          | succ fuel =>
            rw [runFrom_succ_of_isOver sup fuel hover'] at h
            cases h
            refine .inr ⟨by omega, p, s₂, ⟨?_, by omega, hwaiting⟩, rfl⟩
            exact ⟨0, s, .refl s, hactive, hvisits, by omega⟩
      · rw [runFrom_succ_of_not_done hover hpass (by simp)] at h
        cases h
      · rw [runFrom_succ_of_not_done hover hpass (by simp)] at h
        cases h

/-! ## Going on -/

/-- A run that has taken steps before goes on like one that starts with what is left of the
budget. -/
theorem runFrom_shift (sup : Supervision) (b c fuel executed : Nat) (s : Session) :
    runFrom sup (some ((c + b : Nat) : Int)) fuel (c + executed) s
      = ((runFrom sup (some (b : Int)) fuel executed s).1.after c,
        (runFrom sup (some (b : Int)) fuel executed s).2) := by
  have hleft : ∀ e, left (some ((c + b : Nat) : Int)) (c + e) = left (some (b : Int)) e := by
    intro e
    rw [left, left, Option.map_some, Option.map_some, Option.some.injEq]
    omega
  induction fuel generalizing executed s with
  | zero => rfl
  | succ fuel ih =>
    have hsame : s.isOver (some ((c + b : Nat) : Int)) (c + executed)
        = s.isOver (some (b : Int)) executed := by
      rw [isOver, isOver, hleft]
    cases hover : s.isOver (some (b : Int)) executed with
    | true =>
      rw [runFrom_succ_of_isOver sup fuel hover,
        runFrom_succ_of_isOver sup fuel (hsame.trans hover)]
      rfl
    | false =>
      rcases hpass : s.pass sup fuel (left (some (b : Int)) executed) with ⟨j | f | _, s₁⟩
      · rw [runFrom_succ_of_done hover hpass,
          runFrom_succ_of_done (hsame.trans hover) ((hleft executed).symm ▸ hpass), Nat.add_assoc]
        exact ih _ _
      · rw [runFrom_succ_of_not_done hover hpass (by simp),
          runFrom_succ_of_not_done (hsame.trans hover) ((hleft executed).symm ▸ hpass) (by simp)]
        rfl
      · rw [runFrom_succ_of_not_done hover hpass (by simp),
          runFrom_succ_of_not_done (hsame.trans hover) ((hleft executed).symm ▸ hpass) (by simp)]
        rfl

/-- A run whose budget is larger goes through whole passes and then goes on from there. -/
theorem Passes.runFrom_eq (h : Passes sup s k s₁) (hlt : executed + k < b) :
    ∃ fuel₀ passes, ∀ fuel, fuel₀ ≤ fuel →
      runFrom sup (some (b : Int)) (fuel + passes) executed s
        = runFrom sup (some (b : Int)) fuel (executed + k) s₁ ∧
      ∃ trace : Trace, trace.length = k ∧
        runTraceFrom sup (some (b : Int)) (fuel + passes) executed s
          = trace ++ runTraceFrom sup (some (b : Int)) fuel (executed + k) s₁ := by
  induction h generalizing executed with
  | refl s => exact ⟨0, 0, fun fuel _ ↦ ⟨rfl, [], rfl, rfl⟩⟩
  | @cons s s' s'' fuel₁ n k hactive hpass _ ih =>
    obtain ⟨fuel₀, passes, hih⟩ := @ih (executed + n) (by omega)
    refine ⟨max fuel₀ fuel₁, passes + 1, fun fuel hfuel ↦ ?_⟩
    obtain ⟨hrun, trace, hlength, htrace⟩ := hih fuel (Nat.le_trans (Nat.le_max_left _ _) hfuel)
    have hover : s.isOver (some (b : Int)) executed = false :=
      isOver_some_eq_false_iff.mpr ⟨by omega, hactive⟩
    -- the budget is larger than what the pass uses
    have hmono := @passFrom_mono sup none {} s fuel₁ (fuel + passes)
      (Nat.le_trans (Nat.le_trans (Nat.le_max_right _ _) hfuel) (Nat.le_add_right _ _))
      (by rw [pass] at hpass; rw [hpass]; simp)
    have hn : (passTrace sup none (fuel + passes) {} s).length = n :=
      length_passTrace_of_pass (hmono.1.trans hpass)
    have hbudget : s.pass sup (fuel + passes) (left (some (b : Int)) executed) = (.done n, s') := by
      rw [left_some (by omega), pass,
        passFrom_some_of_lt (by rw [hn]; simp only [Nat.zero_add]; omega)]
      exact hmono.1.trans hpass
    refine ⟨?_, passTrace sup (left (some (b : Int)) executed) (fuel + passes) {} s ++ trace,
      ?_, ?_⟩
    · rw [← Nat.add_assoc, runFrom_succ_of_done hover hbudget, hrun, Nat.add_assoc]
    · rw [List.length_append, length_passTrace_of_pass hbudget, hlength]
    · rw [← Nat.add_assoc, runTraceFrom_succ_of_done hover hbudget, htrace, List.append_assoc,
        Nat.add_assoc]

/-- A pass whose budget is larger goes through visits and then goes on from there. -/
theorem Visits.passFrom_eq (h : Visits sup s₀ p s) (hlt : p.executed < b) :
    ∃ visits, ∀ fuel, passFrom sup (some (b : Int)) (fuel + visits) {} s₀
        = passFrom sup (some (b : Int)) fuel p s ∧
      ∃ trace : Trace, trace.length = p.executed ∧
        passTrace sup (some (b : Int)) (fuel + visits) {} s₀
          = trace ++ passTrace sup (some (b : Int)) fuel p s := by
  induction h with
  | start => exact ⟨0, fun fuel ↦ ⟨rfl, [], rfl, rfl⟩⟩
  | @next p p' s s' _ hvisit ih =>
    have hsteps := executed_of_next hvisit
    have hsome : s.visit sup (some (b : Int)) p = .next p' s' :=
      (visit_some_of_lt (by omega)).trans hvisit
    obtain ⟨visits, hih⟩ := ih (by omega)
    refine ⟨visits + 1, fun fuel ↦ ?_⟩
    obtain ⟨hpass, trace, hlength, htrace⟩ := hih (fuel + 1)
    rw [Nat.add_right_comm, Nat.add_assoc] at hpass htrace
    refine ⟨hpass.trans (passFrom_succ_of_next hsome),
      trace ++ s.visitTrace sup (some (b : Int)) p, ?_, ?_⟩
    · rw [List.length_append, hlength, executed_of_next hsome]
    · rw [htrace, passTrace_succ_of_next hsome, List.append_assoc]

/-- A run that is not stopped inside a pass goes on with the pass from there. -/
theorem StopsInside.run_eq (h : StopsInside sup s m p s') (hn : 0 < n) :
    ∃ fuel₀ visits passes k s₀, k + p.executed = m ∧
      s₀.isOver (some ((m + n : Nat) : Int)) k = false ∧ ∀ fuel, fuel₀ ≤ fuel →
        s.run sup (fuel + visits + 1 + passes) (some ((m + n : Nat) : Int))
          = runFrom sup (some ((m + n : Nat) : Int)) (fuel + visits + 1) k s₀ ∧
        s₀.pass sup (fuel + visits) (left (some ((m + n : Nat) : Int)) k)
          = passFrom sup (some ((p.executed + n : Nat) : Int)) fuel p s' ∧
        ∃ trace : Trace, trace.length = m ∧
          trace ++ passTrace sup (some ((p.executed + n : Nat) : Int)) fuel p s'
            <+: s.runTrace sup (fuel + visits + 1 + passes) (some ((m + n : Nat) : Int)) := by
  obtain ⟨k, s₀, hpasses, hs₀, hvisits, rfl⟩ := h.visits
  obtain ⟨fuel₀, passes, hrun⟩ :=
    @Passes.runFrom_eq sup s s₀ 0 (k + p.executed + n) k hpasses (by omega)
  obtain ⟨visits, hpass⟩ := @Visits.passFrom_eq sup p s' s₀ (p.executed + n) hvisits (by omega)
  have hover : s₀.isOver (some ((k + p.executed + n : Nat) : Int)) k = false :=
    isOver_some_eq_false_iff.mpr ⟨by omega, hs₀⟩
  have hleft : left (some ((k + p.executed + n : Nat) : Int)) k
      = some ((p.executed + n : Nat) : Int) := by
    rw [left_some (by omega), Nat.add_assoc, Nat.add_sub_cancel_left]
  refine ⟨fuel₀, visits, passes, k, s₀, rfl, hover, fun fuel hfuel ↦ ?_⟩
  obtain ⟨hrun, trace, hlength, htrace⟩ := hrun (fuel + visits + 1) (by omega)
  obtain ⟨hpass, trace', hlength', htrace'⟩ := hpass fuel
  rw [Nat.zero_add] at hrun htrace
  refine ⟨hrun, by rw [hleft, pass, hpass], trace ++ trace', ?_, ?_⟩
  · rw [List.length_append, hlength, hlength']
  · have hfirst := @passTrace_prefix_of_not_isOver sup (some ((k + p.executed + n : Nat) : Int)) s₀
      (fuel + visits) k hover
    rw [hleft, htrace'] at hfirst
    rw [runTrace, htrace, List.append_assoc, List.prefix_append_right_inj]
    exact hfirst

end Cuts

section Threads

variable {sup : Supervision} {p : Progress} {s s' s₀ s₁ : Session} {fuel k m n : Nat}

/-! ## A single thread -/

theorem Visits.size_le (hsup : sup.SpawnsNothing) (h : Visits sup s₀ p s) :
    s.active = s₀.active ∧ p.kept.size ≤ p.visited ∧ p.executed ≤ p.visited ∧
      p.visited ≤ s₀.active.size := by
  induction h with
  | start => exact ⟨rfl, Nat.le_refl 0, Nat.le_refl 0, Nat.zero_le _⟩
  | @next p p' s s' _ hvisit ih =>
    obtain ⟨hactive, hkept, hexecuted, -⟩ := ih
    refine ⟨(active_of_next hsup hvisit).trans hactive, ?_⟩
    have hvisited : ∀ {id}, s.active[p.visited]? = some id → p.visited + 1 ≤ s₀.active.size :=
      fun hid ↦ hactive ▸ (Array.getElem?_eq_some_iff.mp hid).1
    rcases next_cases hvisit with ⟨id, hid, -, rfl, -, -⟩ | ⟨id, -, hid, -, rfl | rfl, -⟩
    · exact ⟨Nat.le_succ_of_le hkept, Nat.le_succ_of_le hexecuted, hvisited hid⟩
    · refine ⟨?_, Nat.succ_le_succ hexecuted, hvisited hid⟩
      rw [Progress.keep, Array.size_push]
      exact Nat.succ_le_succ hkept
    · exact ⟨Nat.le_succ_of_le hkept, Nat.succ_le_succ hexecuted, hvisited hid⟩

theorem Visits.size_active_le (hsup : sup.SpawnsNothing) (h : Visits sup s₀ p s)
    (hpass : passFrom sup none fuel p s = (.done n, s')) : s'.active.size ≤ s₀.active.size := by
  induction fuel generalizing p s with
  | zero => cases hpass
  | succ fuel ih =>
    cases hv : s.visit sup none p with
    | next p' s₁ =>
      rw [passFrom_succ_of_next hv] at hpass
      exact ih (h.next hv) hpass
    | finished j s₁ =>
      rw [passFrom_succ_of_finished hv] at hpass
      cases hpass
      obtain ⟨-, hkept, -, hvisited⟩ := h.size_le hsup
      cases visited_of_visit hv with
      | allVisited => exact Nat.le_trans hkept hvisited
      | cut _ hbudget => cases hbudget
    | broken f s₁ =>
      rw [passFrom_succ_of_broken hv] at hpass
      cases hpass

theorem Passes.size_active_le (hsup : sup.SpawnsNothing) (h : Passes sup s k s₁) :
    s₁.active.size ≤ s.active.size := by
  induction h with
  | refl => exact Nat.le_refl _
  | cons _ hpass _ ih => exact Nat.le_trans ih (Visits.start.size_active_le hsup hpass)

/-- With a single thread to visit, runs do not stop inside a pass. -/
theorem StopsInside.two_le (hsup : sup.SpawnsNothing) (h : StopsInside sup s m p s') :
    2 ≤ s.active.size := by
  obtain ⟨k, s₀, hpasses, -, hvisits, -⟩ := h.visits
  have hless := hpasses.size_active_le hsup
  obtain ⟨hactive, -, hexecuted, -⟩ := hvisits.size_le hsup
  have hwaiting := h.waiting
  have hpos := h.executed
  rw [hactive] at hwaiting
  omega

/-! ## Who comes first -/

theorem Visits.inOrder (h : Visits sup s₀ p s) (hs₀ : s₀.InOrder {}) : s.InOrder p := by
  induction h with
  | start => exact hs₀
  | next _ hvisit ih =>
    exact @PreservedByVisits.next sup _ (InOrder.preservedByVisits sup) _ [] _ _ _ _ ih hvisit

theorem Passes.inOrder (h : Passes sup s k s₁) (hs : s.InOrder {}) : s₁.InOrder {} := by
  induction h with
  | refl => exact hs
  | cons _ hpass _ ih =>
    obtain ⟨p', hp', hend⟩ :=
      passFrom_preserves (InOrder.preservedByVisits sup) [] hs hpass (by simp)
    cases hend (by simp)
    exact ih hp'

theorem StopsInside.lt (h : StopsInside sup s m p s') (hs : s.InOrder {}) {a u : Nat}
    (ha : a ∈ p.kept.toList) (hu : u ∈ s'.active.toList.drop p.visited) : a < u := by
  obtain ⟨k, s₀, hpasses, -, hvisits, -⟩ := h.visits
  have horder := hvisits.inOrder (hpasses.inOrder hs)
  have hincreasing := horder.increasing
  rw [← List.take_append_drop p.visited s'.active.toList, List.pairwise_append] at hincreasing
  exact hincreasing.2.2 a (horder.kept.subset ha) u hu

end Threads

end Session

end Interleave

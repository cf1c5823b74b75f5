import Interleave.Proofs.Trace

/-!
# Runs with a budget

**Budgets cut traces.** With a budget of `n` steps a run takes the first `n` steps of the run
without a budget, whatever the fuel (`runTrace_some`). The budget is counted anew in every pass, and
may be used up in the middle of one. In the passes before, it makes no difference.

**Budgeted runs end.** However many threads a handler makes, with enough fuel a run with a budget
does not give out (`exists_fuel_run`): a visit uses up some of the budget or leaves fewer threads to
visit, and a pass that takes no step leaves no thread active.

## How the two are proved

A budget is looked at before each visit and matters nowhere else. So as long as some of it is left,
a visit with a budget is the visit without one, and a pass follows the unlimited pass up to the
visit before which the budget is used up. A run is told to stop by the pass that uses the budget up,
or by the next one that finds nothing left; in both cases the trace ends where the budget does.

For the second result a measure is needed, since handlers may make threads in every pass. A visit
that takes a step lowers what is left of the budget, and one that takes none makes no thread. The
bound on the fuel is not given, only that there is one.
-/

namespace Interleave

namespace Session

/-! ## Budgets cut traces -/

section Budgets

variable {sup : Supervision} {p : Progress} {s : Session} {fuel executed b n : Nat}

theorem visit_some_of_lt (h : p.executed < b) :
    s.visit sup (some (b : Int)) p = s.visit sup none p := by
  have hany : (some (b : Int)).any (· ≤ (p.executed : Int)) = false := by
    rw [Option.any_some, decide_eq_false_iff_not]
    omega
  rw [visit, visit, hany, Option.any_none]

theorem visitTrace_some_of_lt (h : p.executed < b) :
    s.visitTrace sup (some (b : Int)) p = s.visitTrace sup none p := by
  rw [visitTrace, visitTrace, visitTurns, visitTurns, visit_some_of_lt h]

theorem exists_finished_of_le (sup : Supervision) (s : Session) (h : b ≤ p.executed) :
    ∃ s', s.visit sup (some (b : Int)) p = .finished p.executed s' := by
  have hany : (some (b : Int)).any (· ≤ (p.executed : Int)) = true := by
    rw [Option.any_some, decide_eq_true_eq]
    omega
  cases hid : s.active[p.visited]? with
  | none => exact ⟨_, by rw [visit, hid]⟩
  | some id => exact ⟨_, by rw [visit, hid]; exact if_pos hany⟩

theorem length_visitTrace_le (sup : Supervision) (budget : Option Int) (p : Progress)
    (s : Session) : (s.visitTrace sup budget p).length ≤ 1 := by
  cases hv : s.visit sup budget p with
  | next p' s' =>
    rcases next_cases hv with ⟨id, -, -, -, -, htrace⟩ | ⟨id, texts, -, -, -, htrace⟩ <;>
      rw [htrace]
    · exact Nat.zero_le 1
    · exact Nat.le_refl 1
  | finished m s' =>
    rw [visitTrace_of_finished hv]
    exact Nat.zero_le 1
  | broken f s' =>
    rw [visitTrace_of_broken hv]
    exact Nat.zero_le 1

/-- A pass with a budget takes the first steps of the pass without one. -/
theorem passTrace_some (h : p.executed ≤ b) :
    passTrace sup (some (b : Int)) fuel p s =
      (passTrace sup none fuel p s).take (b - p.executed) := by
  induction fuel generalizing p s with
  | zero => exact List.take_nil.symm
  | succ fuel ih =>
    rcases Nat.lt_or_ge p.executed b with hlt | hge
    · have hvisit : s.visit sup (some (b : Int)) p = s.visit sup none p := visit_some_of_lt hlt
      cases hv : s.visit sup none p with
      | next p' s' =>
        have hsteps := executed_of_next hv
        have hone := length_visitTrace_le sup none p s
        have htake : (s.visitTrace sup none p).take (b - p.executed) = s.visitTrace sup none p :=
          List.take_of_length_le (by omega)
        rw [passTrace_succ_of_next hv, passTrace_succ_of_next (hvisit.trans hv),
          visitTrace_some_of_lt hlt, ih (by omega), List.take_append, htake, hsteps, Nat.sub_add_eq]
      | finished m s' =>
        rw [passTrace_succ_of_finished hv, passTrace_succ_of_finished (hvisit.trans hv),
          List.take_nil]
      | broken f s' =>
        rw [passTrace_succ_of_broken hv, passTrace_succ_of_broken (hvisit.trans hv), List.take_nil]
    · obtain ⟨s', hv⟩ := exists_finished_of_le sup s hge
      rw [passTrace_succ_of_finished hv, Nat.sub_eq_zero_of_le hge, List.take_zero]

/-- A budget that is not used up makes no difference to a pass. -/
theorem passFrom_some_of_lt (h : p.executed + (passTrace sup none fuel p s).length < b) :
    passFrom sup (some (b : Int)) fuel p s = passFrom sup none fuel p s := by
  induction fuel generalizing p s with
  | zero => rfl
  | succ fuel ih =>
    have hvisit : s.visit sup (some (b : Int)) p = s.visit sup none p :=
      visit_some_of_lt (Nat.lt_of_le_of_lt (Nat.le_add_right _ _) h)
    cases hv : s.visit sup none p with
    | next p' s' =>
      have hsteps := executed_of_next hv
      rw [passTrace_succ_of_next hv, List.length_append] at h
      rw [passFrom_succ_of_next hv, passFrom_succ_of_next (hvisit.trans hv)]
      exact ih (by omega)
    | finished m s' =>
      rw [passFrom_succ_of_finished hv, passFrom_succ_of_finished (hvisit.trans hv)]
    | broken f s' => rw [passFrom_succ_of_broken hv, passFrom_succ_of_broken (hvisit.trans hv)]

/-- A pass that uses its budget up ends with that, and no fault comes of it. -/
theorem passFrom_some_of_le (hle : p.executed ≤ b)
    (h : b ≤ p.executed + (passTrace sup none fuel p s).length) :
    (passFrom sup (some (b : Int)) fuel p s).1 = .done b ∨
      (passFrom sup (some (b : Int)) fuel p s).1 = .outOfFuel := by
  induction fuel generalizing p s with
  | zero => exact .inr rfl
  | succ fuel ih =>
    rcases Nat.lt_or_ge p.executed b with hlt | hge
    · have hvisit : s.visit sup (some (b : Int)) p = s.visit sup none p := visit_some_of_lt hlt
      cases hv : s.visit sup none p with
      | next p' s' =>
        have hsteps := executed_of_next hv
        have hone := length_visitTrace_le sup none p s
        rw [passTrace_succ_of_next hv, List.length_append] at h
        rw [passFrom_succ_of_next (hvisit.trans hv)]
        exact ih (by omega) (by omega)
      | finished m s' =>
        rw [passTrace_succ_of_finished hv, List.length_nil] at h
        exact absurd h (Nat.not_le.mpr hlt)
      | broken f s' =>
        rw [passTrace_succ_of_broken hv, List.length_nil] at h
        exact absurd h (Nat.not_le.mpr hlt)
    · obtain ⟨s', hv⟩ := exists_finished_of_le sup s hge
      rw [passFrom_succ_of_finished hv, Nat.le_antisymm hge hle]
      exact .inl rfl

theorem left_some (h : executed ≤ n) :
    left (some (n : Int)) executed = some ((n - executed : Nat) : Int) := by
  rw [left, Option.map_some, Int.ofNat_sub h]

theorem isOver_some_of_lt (h : executed < n) :
    s.isOver (some (n : Int)) executed = s.isOver none executed := by
  have hany : (left (some (n : Int)) executed).any (· ≤ 0) = false := by
    rw [left, Option.map_some, Option.any_some, decide_eq_false_iff_not]
    omega
  rw [isOver, isOver, hany, left, Option.map_none, Option.any_none]

theorem isOver_some_of_le (h : n ≤ executed) : s.isOver (some (n : Int)) executed = true := by
  have hany : (left (some (n : Int)) executed).any (· ≤ 0) = true := by
    rw [left, Option.map_some, Option.any_some, decide_eq_true_eq]
    omega
  rw [isOver, hany, Bool.or_true]

theorem runTraceFrom_some_of_le (h : n ≤ executed) :
    runTraceFrom sup (some (n : Int)) fuel executed s = [] := by
  cases fuel with
  | zero => rfl
  | succ fuel => exact runTraceFrom_succ_of_isOver sup fuel (isOver_some_of_le h)

theorem runTraceFrom_some_of_lt (hover : s.isOver none executed = false)
    (hfew : (passTrace sup none fuel {} s).length < n - executed)
    (ih : ∀ {k : Nat} {s' : Session}, k ≤ n → runTraceFrom sup (some (n : Int)) fuel k s' =
      (runTraceFrom sup none fuel k s').take (n - k)) :
    runTraceFrom sup (some (n : Int)) (fuel + 1) executed s =
      (runTraceFrom sup none (fuel + 1) executed s).take (n - executed) := by
  have hlt : executed < n := by omega
  have hsome := (isOver_some_of_lt hlt).trans hover
  have htake : (passTrace sup none fuel {} s).take (n - executed) = passTrace sup none fuel {} s :=
    List.take_of_length_le (Nat.le_of_lt hfew)
  have htrace : passTrace sup (left (some (n : Int)) executed) fuel {} s
      = passTrace sup none fuel {} s := by
    rw [left_some (Nat.le_of_lt hlt), passTrace_some (Nat.zero_le _)]
    exact htake
  have hpass : s.pass sup fuel (left (some (n : Int)) executed) = s.pass sup fuel none := by
    rw [left_some (Nat.le_of_lt hlt)]
    exact passFrom_some_of_lt (by rw [Nat.zero_add]; exact hfew)
  rcases hnext : s.pass sup fuel none with ⟨m | f | _, s₁⟩
  · have hm : m = 0 + (passTrace sup none fuel {} s).length := passFrom_done hnext
    rw [Nat.zero_add] at hm
    rw [runTraceFrom_succ_of_done hover hnext,
      runTraceFrom_succ_of_done hsome (hpass.trans hnext), htrace, ih (by omega), left,
      Option.map_none, List.take_append, htake, hm, Nat.sub_add_eq]
  · rw [runTraceFrom_succ_of_not_done hover hnext (by simp),
      runTraceFrom_succ_of_not_done hsome (hpass.trans hnext) (by simp), htrace]
    exact htake.symm
  · rw [runTraceFrom_succ_of_not_done hover hnext (by simp),
      runTraceFrom_succ_of_not_done hsome (hpass.trans hnext) (by simp), htrace]
    exact htake.symm

theorem runTraceFrom_some_of_ge (hover : s.isOver none executed = false) (hlt : executed < n)
    (hmany : n - executed ≤ (passTrace sup none fuel {} s).length) :
    runTraceFrom sup (some (n : Int)) (fuel + 1) executed s =
      (runTraceFrom sup none (fuel + 1) executed s).take (n - executed) := by
  have hsome := (isOver_some_of_lt hlt).trans hover
  have htrace : passTrace sup (left (some (n : Int)) executed) fuel {} s
      = (passTrace sup none fuel {} s).take (n - executed) := by
    rw [left_some (Nat.le_of_lt hlt)]
    exact passTrace_some (Nat.zero_le _)
  -- without the budget the run goes on, with it the run is over
  have hlong : ∃ rest, runTraceFrom sup none (fuel + 1) executed s
      = passTrace sup none fuel {} s ++ rest := by
    rcases hnext : s.pass sup fuel none with ⟨m | f | _, s₁⟩
    · exact ⟨_, runTraceFrom_succ_of_done hover hnext⟩
    · exact ⟨[], by
        rw [runTraceFrom_succ_of_not_done hover hnext (by simp), List.append_nil]; rfl⟩
    · exact ⟨[], by
        rw [runTraceFrom_succ_of_not_done hover hnext (by simp), List.append_nil]; rfl⟩
  have hshort : runTraceFrom sup (some (n : Int)) (fuel + 1) executed s
      = passTrace sup (left (some (n : Int)) executed) fuel {} s := by
    rcases hnext : s.pass sup fuel (left (some (n : Int)) executed) with ⟨o, s₁⟩
    have ho : o = .done (n - executed) ∨ o = .outOfFuel := by
      rw [left_some (Nat.le_of_lt hlt), pass] at hnext
      have hend := @passFrom_some_of_le sup {} s fuel (n - executed) (Nat.zero_le _)
        (by rw [Nat.zero_add]; exact hmany)
      rw [hnext] at hend
      exact hend
    rcases ho with rfl | rfl
    · rw [runTraceFrom_succ_of_done hsome hnext, runTraceFrom_some_of_le (by omega),
        List.append_nil]
    · exact runTraceFrom_succ_of_not_done hsome hnext (by simp)
  obtain ⟨rest, hlong⟩ := hlong
  rw [hshort, htrace, hlong, List.take_append_of_le_length hmany]

/-- **Budgets cut traces.** A run with a budget takes the first steps of the run without one. -/
theorem runTraceFrom_some (h : executed ≤ n) :
    runTraceFrom sup (some (n : Int)) fuel executed s =
      (runTraceFrom sup none fuel executed s).take (n - executed) := by
  induction fuel generalizing executed s with
  | zero => exact List.take_nil.symm
  | succ fuel ih =>
    rcases Nat.lt_or_ge executed n with hlt | hge
    · cases hover : s.isOver none executed with
      | true =>
        rw [runTraceFrom_succ_of_isOver sup fuel hover,
          runTraceFrom_succ_of_isOver sup fuel ((isOver_some_of_lt hlt).trans hover), List.take_nil]
      | false =>
        rcases Nat.lt_or_ge (passTrace sup none fuel {} s).length (n - executed) with hfew | hmany
        · exact runTraceFrom_some_of_lt hover hfew ih
        · exact runTraceFrom_some_of_ge hover hlt hmany
    · rw [runTraceFrom_some_of_le hge, Nat.sub_eq_zero_of_le hge, List.take_zero]

theorem runTrace_some (n fuel : Nat) (sup : Supervision) (s : Session) :
    s.runTrace sup fuel (some (n : Int)) = (s.runTrace sup fuel none).take n :=
  runTraceFrom_some (Nat.zero_le n)

end Budgets

/-! ## Budgeted runs end -/

section Ends

variable {sup : Supervision} {p : Progress} {s s' : Session} {fuel executed b n : Nat}

/-- A pass with a budget ends: every visit uses up some of the budget or leaves fewer threads to
visit. -/
theorem exists_fuel_pass (sup : Supervision) (b : Nat) (p : Progress) (s : Session) :
    ∃ fuel, (passFrom sup (some (b : Int)) fuel p s).1 ≠ .outOfFuel := by
  cases hv : s.visit sup (some (b : Int)) p with
  | finished m s' => exact ⟨1, by rw [passFrom_succ_of_finished hv]; simp⟩
  | broken f s' => exact ⟨1, by rw [passFrom_succ_of_broken hv]; simp⟩
  | next p' s' =>
    have hlt : p.executed < b := by
      rcases Nat.lt_or_ge p.executed b with hlt | hge
      · exact hlt
      · obtain ⟨s₁, hcut⟩ := exists_finished_of_le sup s hge
        rw [hv] at hcut
        cases hcut
    have hdecreases : b - p'.executed < b - p.executed ∨ p'.executed = p.executed ∧
        s'.active.size - p'.visited < s.active.size - p.visited := by
      rcases next_cases hv with ⟨id, hid, -, rfl, rfl, -⟩ | ⟨id, texts, -, -, rfl | rfl, -⟩
      · have hvisited := (Array.getElem?_eq_some_iff.mp hid).1
        exact .inr ⟨rfl, Nat.sub_succ_lt_self _ _ hvisited⟩
      · exact .inl (Nat.sub_succ_lt_self _ _ hlt)
      · exact .inl (Nat.sub_succ_lt_self _ _ hlt)
    obtain ⟨fuel, hfuel⟩ := exists_fuel_pass sup b p' s'
    exact ⟨fuel + 1, by rwa [passFrom_succ_of_next hv]⟩
termination_by (b - p.executed, s.active.size - p.visited)
decreasing_by
  rcases hdecreases with h | ⟨h₁, h₂⟩
  · exact .left _ _ h
  · rw [h₁]
    exact .right _ h₂

/-- A pass keeps at most as many threads as it takes steps. If it leaves some of the budget, only
these are active. -/
theorem size_active_le (hkept : p.kept.size ≤ p.executed)
    (h : passFrom sup (some (b : Int)) fuel p s = (.done n, s')) (hn : n < b) :
    s'.active.size ≤ n := by
  induction fuel generalizing p s with
  | zero => cases h
  | succ fuel ih =>
    cases hv : s.visit sup (some (b : Int)) p with
    | next p' s₁ =>
      rw [passFrom_succ_of_next hv] at h
      refine ih ?_ h
      rcases next_cases hv with ⟨id, -, -, rfl, -, -⟩ | ⟨id, texts, -, -, rfl | rfl, -⟩
      · exact hkept
      · rw [Progress.keep, Array.size_push]
        exact Nat.succ_le_succ hkept
      · exact Nat.le_succ_of_le hkept
    | finished m s₁ =>
      rw [passFrom_succ_of_finished hv] at h
      cases h
      cases visited_of_visit hv with
      | allVisited => exact hkept
      | cut hid hbudget =>
        rw [Option.any_some, decide_eq_true_eq] at hbudget
        omega
    | broken f s₁ =>
      rw [passFrom_succ_of_broken hv] at h
      cases h

/-- **Budgeted runs end.** With enough fuel a run with a budget does not give out, whatever the
handler does about failures. -/
theorem exists_fuel_runFrom (sup : Supervision) (n executed : Nat) (s : Session) :
    ∃ fuel, (runFrom sup (some (n : Int)) fuel executed s).1 ≠ .outOfFuel := by
  cases hover : s.isOver (some (n : Int)) executed with
  | true => exact ⟨1, by rw [runFrom_succ_of_isOver sup 0 hover]; simp⟩
  | false =>
    have hlt : executed < n := by
      rcases Nat.lt_or_ge executed n with hlt | hge
      · exact hlt
      · rw [isOver_some_of_le hge] at hover
        cases hover
    obtain ⟨fuel, hfuel⟩ := exists_fuel_pass sup (n - executed) {} s
    have hpass : ∀ {fuel'}, fuel ≤ fuel' → s.pass sup fuel' (left (some (n : Int)) executed)
        = passFrom sup (some ((n - executed : Nat) : Int)) fuel {} s := by
      intro fuel' hle
      rw [left_some (Nat.le_of_lt hlt)]
      exact (passFrom_mono hle hfuel).1
    rcases hend : passFrom sup (some ((n - executed : Nat) : Int)) fuel {} s with ⟨m | f | _, s'⟩
    · -- a pass that took no step leaves nobody active, so the run is over
      have hrest :
          ∃ fuel, (runFrom sup (some (n : Int)) fuel (executed + m) s').1 ≠ .outOfFuel := by
        rcases Nat.eq_zero_or_pos m with rfl | hpos
        · have hactive := size_active_le (Nat.zero_le _) hend (by omega)
          have hdone : s'.isOver (some (n : Int)) (executed + 0) = true := by
            rw [isOver, isDone, Array.isEmpty_iff_size_eq_zero.mpr (Nat.le_zero.mp hactive),
              Bool.true_or]
          exact ⟨1, by rw [runFrom_succ_of_isOver sup 0 hdone]; simp⟩
        · exact exists_fuel_runFrom sup n (executed + m) s'
      obtain ⟨fuel₁, hfuel₁⟩ := hrest
      refine ⟨max fuel fuel₁ + 1, ?_⟩
      rw [runFrom_succ_of_done hover ((hpass (Nat.le_max_left _ _)).trans hend),
        (runFrom_mono (Nat.le_max_right _ _) hfuel₁).1]
      exact hfuel₁
    · refine ⟨fuel + 1, ?_⟩
      rw [runFrom_succ_of_not_done hover ((hpass (Nat.le_refl _)).trans hend) (by simp)]
      simp
    · rw [hend] at hfuel
      exact absurd rfl hfuel
termination_by n - executed

/-- A run with a budget takes the same steps with all fuel that is enough. -/
theorem exists_fuel_run (sup : Supervision) (n : Nat) (s : Session) :
    ∃ fuel₀, ∀ fuel, fuel₀ ≤ fuel → (s.run sup fuel (some (n : Int))).1 ≠ .outOfFuel ∧
      s.run sup fuel (some (n : Int)) = s.run sup fuel₀ (some (n : Int)) ∧
      s.runTrace sup fuel (some (n : Int)) = s.runTrace sup fuel₀ (some (n : Int)) := by
  obtain ⟨fuel₀, hfuel₀⟩ := exists_fuel_runFrom sup n 0 s
  refine ⟨fuel₀, fun fuel hle ↦ ?_⟩
  obtain ⟨hrun, htrace⟩ := runFrom_mono hle hfuel₀
  exact ⟨by rw [run, hrun]; exact hfuel₀, hrun, htrace⟩

end Ends

end Session

end Interleave

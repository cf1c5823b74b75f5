import Interleave.Proofs.Stops

/-!
# Stopping and resuming

A run with a budget can be resumed by another run. Where the first one stopped between two passes,
the two of them do what a single run does that is given both budgets. A run that did not use its
budget up has stopped so, and one with a single thread to visit always does.

In the middle of a pass it is different. The steps taken so far are those of the single run, but the
list of active threads does not say who was visited last, and the resumed run begins a new pass at
the front of it. Whoever was visited and kept comes first again, before those who are waiting. Only
if nobody was kept the others come next in both cases.

`resuming_is_transparent_if_nobody_was_kept` puts this together, and
`resuming_is_not_transparent_if_somebody_was_kept` is a race that a stop decides.

## Lagging behind

Where nobody was kept, the resumed run starts a pass with the threads that were still waiting, and
the single run goes on with the old pass. The two passes differ in the threads at the front, which
the second one does not have. `Progress.Lags` and `Visit.Lags` say so, and visits preserve it.
-/

namespace Interleave

namespace Session

/-! ## Between passes -/

section Between

variable {sup : Supervision} {p : Progress} {s s' s₀ s₁ : Session} {fuel k m n : Nat}

theorem run_add_zero (hrun : s.run sup fuel (some (m : Int)) = (.done m, s₁)) :
    ∃ fuel₀, ∀ fuel, fuel₀ ≤ fuel → (s₁.run sup fuel (some ((0 : Nat) : Int))).1 ≠ .outOfFuel ∧
      s.run sup fuel (some ((m + 0 : Nat) : Int))
        = ((s₁.run sup fuel (some ((0 : Nat) : Int))).1.after m,
          (s₁.run sup fuel (some ((0 : Nat) : Int))).2) := by
  refine ⟨fuel + 1, fun fuel' hfuel ↦ ?_⟩
  obtain ⟨fuel', rfl⟩ := Nat.exists_eq_succ_of_ne_zero (Nat.ne_zero_of_lt hfuel)
  have hsingle : s.run sup (fuel' + 1) (some (m : Int)) = (.done m, s₁) := by
    have hmono := @runFrom_mono sup (some (m : Int)) s fuel (fuel' + 1) 0 (by omega)
      (by rw [run] at hrun; rw [hrun]; simp)
    exact hmono.1.trans hrun
  have hresumed : s₁.run sup (fuel' + 1) (some ((0 : Nat) : Int)) = (.done 0, s₁) :=
    runFrom_succ_of_isOver sup fuel' (isOver_some_of_le (Nat.le_refl 0))
  rw [Nat.add_zero, hresumed, hsingle]
  exact ⟨by simp, rfl⟩

theorem Passes.run_add (h : Passes sup s k s₁)
    (hrun : s.run sup fuel (some (m : Int)) = (.done k, s₁))
    (hend : k = m ∨ k < m ∧ s₁.isDone = true) (n : Nat) :
    ∃ fuel₀, ∀ fuel, fuel₀ ≤ fuel → (s₁.run sup fuel (some (n : Int))).1 ≠ .outOfFuel ∧
      s.run sup fuel (some ((m + n : Nat) : Int))
        = ((s₁.run sup fuel (some (n : Int))).1.after k, (s₁.run sup fuel (some (n : Int))).2) := by
  rcases hend with rfl | ⟨hlt, hdone⟩
  · rcases Nat.eq_zero_or_pos n with rfl | hpos
    · exact run_add_zero hrun
    · obtain ⟨fuel₀, passes, hpasses⟩ := @Passes.runFrom_eq sup s s₁ 0 (k + n) k h (by omega)
      obtain ⟨fuel₁, hfuel₁⟩ := exists_fuel_run sup n s₁
      refine ⟨max fuel₀ fuel₁ + passes, fun fuel hfuel ↦ ?_⟩
      obtain ⟨fuel, rfl⟩ : ∃ f, fuel = f + passes := ⟨fuel - passes, by omega⟩
      obtain ⟨hends, hfuel₂, -⟩ := hfuel₁ (fuel + passes) (by omega)
      refine ⟨hends, ?_⟩
      rw [run, (hpasses fuel (by omega)).1, Nat.zero_add, hfuel₂,
        ← (hfuel₁ fuel (by omega)).2.1]
      exact runFrom_shift sup n k fuel 0 s₁
  · obtain ⟨fuel₀, passes, hpasses⟩ := @Passes.runFrom_eq sup s s₁ 0 (m + n) k h (by omega)
    refine ⟨fuel₀ + passes + 1, fun fuel hfuel ↦ ?_⟩
    obtain ⟨fuel, rfl⟩ : ∃ f, fuel = f + 1 + passes := ⟨fuel - passes - 1, by omega⟩
    have hover : s₁.isOver (some ((m + n : Nat) : Int)) (0 + k) = true := by
      rw [isOver, hdone, Bool.true_or]
    have hsingle : s.run sup (fuel + 1 + passes) (some ((m + n : Nat) : Int)) = (.done k, s₁) := by
      rw [run, (hpasses (fuel + 1) (by omega)).1, runFrom_succ_of_isOver sup fuel hover,
        Nat.zero_add]
    have hresumed : s₁.run sup (fuel + 1 + passes) (some (n : Int)) = (.done 0, s₁) := by
      rw [Nat.add_right_comm]
      exact runFrom_succ_of_isOver sup _ (by rw [isOver, hdone, Bool.true_or])
    rw [hsingle, hresumed]
    exact ⟨by simp, rfl⟩

end Between

/-! ## Inside a pass -/

section Inside

variable {sup : Supervision} {budget : Option Int} {p : Progress} {s s' s₀ s₁ : Session}
  {fuel k m n u : Nat}

/-- The next step of a pass is taken by the first thread that has one to take, among those not
visited yet. -/
theorem exists_turn {idle rest : List Nat}
    (hwaiting : s.active.toList.drop p.visited = idle ++ u :: rest)
    (hidle : ∀ i ∈ idle, s.isIdle i = true) (hu : s.isIdle u = false)
    (hbudget : budget.any (· ≤ (p.executed : Int)) = false) (hfuel : idle.length < fuel)
    (hok : ∀ f, (passFrom sup budget fuel p s).1 ≠ .failed f) :
    ∃ entry trace, passTrace sup budget fuel p s = entry :: trace ∧ entry.1.thread = u := by
  -- on the idle threads in front, each of which costs a visit and takes no step
  induction idle generalizing p s fuel with
  | nil =>
    obtain ⟨fuel, rfl⟩ := Nat.exists_eq_succ_of_ne_zero (Nat.ne_zero_of_lt hfuel)
    have hid : s.active[p.visited]? = some u := by
      have hhead := congrArg List.head? hwaiting
      rwa [List.head?_drop, Array.getElem?_toList] at hhead
    cases hv : s.visit sup budget p with
    | next p' s' =>
      rcases next_cases hv with ⟨i, hi, hskip, -⟩ | ⟨i, texts, hi, -, -, htrace⟩
      · cases hid.symm.trans hi
        rw [hu] at hskip
        cases hskip
      · cases hid.symm.trans hi
        rw [passTrace_succ_of_next hv, htrace]
        exact ⟨_, _, rfl, rfl⟩
    | finished j s' =>
      cases visited_of_visit hv with
      | allVisited hnone => rw [hid] at hnone; cases hnone
      | cut _ hcut => rw [hbudget] at hcut; cases hcut
    | broken f s' =>
      rw [passFrom_succ_of_broken hv] at hok
      exact absurd rfl (hok f)
  | cons i idle ih =>
    obtain ⟨fuel, rfl⟩ := Nat.exists_eq_succ_of_ne_zero (Nat.ne_zero_of_lt hfuel)
    have hid : s.active[p.visited]? = some i := by
      have hhead := congrArg List.head? hwaiting
      rwa [List.head?_drop, Array.getElem?_toList] at hhead
    have hv : s.visit sup budget p = .next p.skip (s.retire i) := by
      rw [visit, hid]
      simp only [hbudget, hidle i List.mem_cons_self, Bool.false_eq_true, if_false, if_true]
    rw [passFrom_succ_of_next hv] at hok
    rw [drop_visited hid, List.cons_append, List.cons.injEq] at hwaiting
    obtain ⟨entry, trace, htrace, hthread⟩ := @ih p.skip (s.retire i) fuel hwaiting.2
      (fun j hj ↦ (isIdle_retire s i j).trans (hidle j (List.mem_cons_of_mem _ hj)))
      ((isIdle_retire s i u).trans hu) hbudget (Nat.lt_of_succ_lt_succ hfuel) hok
    rw [passTrace_succ_of_next hv, htrace]
    rcases next_cases hv with ⟨-, -, -, -, -, hnone⟩ | ⟨j, -, hj, hlive, -⟩
    · rw [hnone]
      exact ⟨entry, trace, rfl, hthread⟩
    · cases hid.symm.trans hj
      rw [hidle i List.mem_cons_self] at hlive
      cases hlive

/-- Of threads that do not all lack steps, there is a first one that has some. -/
theorem exists_first_live {ids : List Nat} (h : ∃ i ∈ ids, s.isIdle i = false) :
    ∃ idle u rest, ids = idle ++ u :: rest ∧ (∀ i ∈ idle, s.isIdle i = true) ∧
      s.isIdle u = false := by
  obtain ⟨i, hi, hlive⟩ := h
  have hsome : (ids.find? (!s.isIdle ·)).isSome := List.find?_isSome.mpr ⟨i, hi, by rw [hlive]; rfl⟩
  obtain ⟨u, hu⟩ := Option.isSome_iff_exists.mp hsome
  obtain ⟨hulive, idle, rest, hids, hidle⟩ := List.find?_eq_some_iff_append.mp hu
  refine ⟨idle, u, rest, hids, fun j hj ↦ ?_, ?_⟩
  · simpa using hidle j hj
  · simpa using hulive

theorem pass_ne_failed {executed : Nat} (hover : s.isOver budget executed = false)
    (hok : ∀ f, (runFrom sup budget (fuel + 1) executed s).1 ≠ .failed f) :
    ∀ f, (s.pass sup fuel (left budget executed)).1 ≠ .failed f := by
  intro f hf
  rcases hpass : s.pass sup fuel (left budget executed) with ⟨o, s'⟩
  rw [hpass] at hf
  dsimp only at hf
  subst hf
  rw [runFrom_succ_of_not_done hover hpass (by simp)] at hok
  exact hok f rfl

/-- A run that is not stopped inside a pass goes on with those who are waiting. -/
theorem StopsInside.exists_turn (h : StopsInside sup s m p s')
    (hlive : ∃ u ∈ s'.active.toList.drop p.visited, s'.isIdle u = false) (hn : 0 < n) :
    ∃ fuel₀, ∀ fuel, fuel₀ ≤ fuel →
      (∀ f, (s.run sup fuel (some ((m + n : Nat) : Int))).1 ≠ .failed f) →
      ∃ u ∈ s'.active.toList.drop p.visited,
        (s.runTrace sup fuel (some ((m + n : Nat) : Int))).threads[m]? = some u := by
  obtain ⟨idle, u, rest, hids, hidle, hu⟩ := exists_first_live hlive
  obtain ⟨fuel₀, visits, passes, k, s₀, -, hover, hgoes⟩ := h.run_eq hn
  refine ⟨fuel₀ + (idle.length + 1) + visits + 1 + passes, fun fuel hfuel hok ↦ ?_⟩
  obtain ⟨fuel, rfl⟩ : ∃ f, fuel = f + visits + 1 + passes :=
    ⟨fuel - passes - 1 - visits, by omega⟩
  obtain ⟨hrun, hpass, trace, hlength, after, hafter⟩ := hgoes fuel (by omega)
  have hpassok : ∀ f,
      (passFrom sup (some ((p.executed + n : Nat) : Int)) fuel p s').1 ≠ .failed f := by
    rw [hrun] at hok
    exact hpass ▸ pass_ne_failed hover hok
  have hbudget : (some ((p.executed + n : Nat) : Int)).any (· ≤ (p.executed : Int)) = false := by
    rw [Option.any_some, decide_eq_false_iff_not]
    omega
  obtain ⟨entry, later, hentry, hthread⟩ :=
    Session.exists_turn hids hidle hu hbudget (by omega) hpassok
  refine ⟨u, hids ▸ List.mem_append_right _ List.mem_cons_self, ?_⟩
  rw [← hafter, hentry, ← hlength, Trace.threads]
  simp [hthread]

theorem isOver_cut (hwaiting : p.visited < s'.active.size) (hn : 0 < n) :
    (cut p s').isOver (some (n : Int)) 0 = false :=
  isOver_some_eq_false_iff.mpr ⟨hn, isDone_cut hwaiting⟩

/-- A run that was stopped inside a pass begins with those who were kept, when it is resumed. -/
theorem exists_turn_of_cut (hwaiting : p.visited < s'.active.size)
    (hlive : ∃ a ∈ p.kept.toList, s'.isIdle a = false) (hn : 0 < n) :
    ∃ fuel₀, ∀ fuel, fuel₀ ≤ fuel →
      (∀ f, ((cut p s').run sup fuel (some (n : Int))).1 ≠ .failed f) →
      ∃ a ∈ p.kept.toList,
        ((cut p s').runTrace sup fuel (some (n : Int))).threads[0]? = some a := by
  obtain ⟨idle, a, rest, hids, hidle, ha⟩ := exists_first_live hlive
  refine ⟨idle.length + 2, fun fuel hfuel hok ↦ ?_⟩
  obtain ⟨fuel, rfl⟩ : ∃ f, fuel = f + 1 := ⟨fuel - 1, by omega⟩
  have hactive : (cut p s').active.toList
      = idle ++ a :: (rest ++ s'.active.toList.drop p.visited) := by
    rw [cut, toList_cut, hids, List.append_assoc, List.cons_append]
  have hover := isOver_cut hwaiting hn
  have hleft : left (some (n : Int)) 0 = some ((n : Nat) : Int) := left_some (Nat.zero_le n)
  have hbudget : (some (n : Int)).any (· ≤ ((({} : Progress).executed : Nat) : Int)) = false := by
    rw [Option.any_some, decide_eq_false_iff_not]
    exact Int.not_le.mpr (Int.natCast_pos.mpr hn)
  have hpassok := pass_ne_failed hover hok
  rw [hleft] at hpassok
  obtain ⟨entry, later, hentry, hthread⟩ :=
    @Session.exists_turn sup (some (n : Int)) {} (cut p s') fuel a idle _ hactive hidle ha hbudget
      (by omega) hpassok
  obtain ⟨after, hafter⟩ := @passTrace_prefix_of_not_isOver sup (some (n : Int)) (cut p s') fuel 0
    hover
  refine ⟨a, hids ▸ List.mem_append_right _ List.mem_cons_self, ?_⟩
  rw [hleft, hentry] at hafter
  rw [runTrace, ← hafter, Trace.threads]
  simp [hthread]

end Inside

/-! ## Inside a pass, with nobody kept -/

end Session

/-- The answers of those who are told of failures do not depend on the list of active threads. -/
def Supervision.IgnoresActive (sup : Supervision) : Prop :=
  ∀ h, sup.handler = some h → ∀ (s : Session) (active : Array Nat) (id : Nat) (e : ProgramError),
    h { s with active } id e = h s id e

/-- The second progress is the first one without the first `v` threads, who took `c` steps and were
not kept. -/
structure Progress.Lags (v c : Nat) (p q : Progress) : Prop where
  visited : p.visited = v + q.visited
  kept : p.kept = q.kept
  executed : p.executed = c + q.executed

namespace Progress.Lags

variable {v c : Nat} {p q : Progress}

theorem skip (h : p.Lags v c q) : p.skip.Lags v c q.skip :=
  ⟨congrArg (· + 1) h.visited, h.kept, h.executed⟩

theorem keep (h : p.Lags v c q) (id : Nat) : (p.keep id).Lags v c (q.keep id) :=
  ⟨congrArg (· + 1) h.visited, congrArg (·.push id) h.kept, congrArg (· + 1) h.executed⟩

theorem drop (h : p.Lags v c q) : p.drop.Lags v c q.drop :=
  ⟨congrArg (· + 1) h.visited, h.kept, congrArg (· + 1) h.executed⟩

end Progress.Lags

def Session.withoutFirst (v : Nat) (s : Session) : Session :=
  { s with active := s.active.extract v }

/-- The second visit comes out as the first one, without the first `v` threads, who took `c`
steps. -/
inductive Visit.Lags (v c : Nat) : Visit → Visit → Prop where
  | next {p q : Progress} {s : Session} (h : p.Lags v c q) :
    Visit.Lags v c (.next p s) (.next q (s.withoutFirst v))
  | finished {n : Nat} {s : Session} : Visit.Lags v c (.finished (c + n) s) (.finished n s)
  | broken {f : Fault} {s s' : Session} : Visit.Lags v c (.broken f s) (.broken f s')

namespace Session

section Lagging

variable {sup : Supervision} {p q : Progress} {s s' s₁ : Session} {fuel b c k m n v : Nat}

theorem tell_withoutFirst (hsup : sup.SpawnsNothing) (hactive : sup.IgnoresActive) (v : Nat)
    {id : Nat} {e : ProgramError} {o : Option Fault} (h : tell sup.handler id e s = (o, s')) :
    tell sup.handler id e (s.withoutFirst v) = (o, s'.withoutFirst v) := by
  have hreact : ∀ (rs : List Reaction) (s : Session), (∀ r ∈ rs, ∃ k, r = .cancel k) →
      rs.foldl react (s.withoutFirst v) = (rs.foldl react s).withoutFirst v := by
    intro rs
    induction rs with
    | nil => exact fun _ _ ↦ rfl
    | cons r rs ih =>
      intro s hrs
      obtain ⟨k, rfl⟩ := hrs r List.mem_cons_self
      exact ih (s.cancel k) fun r hr ↦ hrs r (List.mem_cons_of_mem _ hr)
  cases hh : sup.handler with
  | none =>
    rw [hh] at h
    cases h
    rfl
  | some handler =>
    have hreactions := hsup handler hh s id e
    have hsame : handler (s.withoutFirst v) id e = handler s id e := hactive handler hh s _ id e
    rw [hh, tell] at h
    cases h
    rw [tell, hsame]
    exact Prod.ext rfl (hreact _ (s.note _) hreactions)

theorem world_withoutFirst (s : Session) (v : Nat) : (s.withoutFirst v).world = s.world := rfl

theorem getElem?_withoutFirst (s : Session) (v i : Nat) :
    (s.withoutFirst v).active[i]? = s.active[v + i]? := by
  rw [withoutFirst, Array.getElem?_extract]
  split
  · rfl
  · exact (Array.getElem?_eq_none (by omega)).symm

theorem Ready.withoutFirst {id : Nat} {t : Thread} {st : Step} {queue : Queue}
    (h : s.Ready id t st queue) (v : Nat) : (s.withoutFirst v).Ready id t st queue :=
  ⟨h.thread, h.notCancelled, h.queue⟩

/-- Without the first threads of a pass the others are visited as they are with them. -/
theorem visit_lags (hsup : sup.SpawnsNothing) (hactive : sup.IgnoresActive) (h : p.Lags v c q)
    (b : Nat) (s : Session) :
    Visit.Lags v c (s.visit sup (some ((c + b : Nat) : Int)) p)
      ((s.withoutFirst v).visit sup (some (b : Int)) q) := by
  have hnext : (s.withoutFirst v).active[q.visited]? = s.active[p.visited]? := by
    rw [getElem?_withoutFirst, h.visited]
  -- the steps of those in front are part of the larger budget, so both have as much left
  have hleft : (some (b : Int)).any (· ≤ (q.executed : Int))
      = (some ((c + b : Nat) : Int)).any (· ≤ (p.executed : Int)) := by
    rw [Option.any_some, Option.any_some, h.executed, decide_eq_decide]
    omega
  have hvisited := visited_visit sup (some ((c + b : Nat) : Int)) p s
  generalize s.visit sup (some ((c + b : Nat) : Int)) p = r at hvisited
  cases hvisited with
  | allVisited hid =>
    rw [visit, hnext, hid, h.executed, h.kept]
    exact .finished
  | cut hid hbudget =>
    -- the rest of the list is the same, counted from another place
    have hrest : (s.withoutFirst v).active.extract q.visited = s.active.extract p.visited := by
      refine Array.ext_getElem? fun i ↦ ?_
      change ((s.withoutFirst v).withoutFirst q.visited).active[i]? = (s.withoutFirst _).active[i]?
      rw [getElem?_withoutFirst, getElem?_withoutFirst, getElem?_withoutFirst, h.visited,
        Nat.add_assoc]
    rw [visit, hnext, hid, hrest, ← h.kept]
    simp only [hleft, hbudget, if_true]
    rw [h.executed]
    exact .finished
  | @idle id hid hbudget hidle =>
    have hidle' : (s.withoutFirst v).isIdle id = true := hidle
    rw [visit, hnext, hid]
    simp only [hleft, hbudget, hidle', if_true, Bool.false_eq_true, if_false]
    exact .next (s := s.retire id) h.skip
  | @kept id t st queue queue' u w hid hbudget ready hstep hq hlog =>
    rw [visit_of_ready (hnext.trans hid) (hleft.trans hbudget) (ready.withoutFirst v) hlog,
      world_withoutFirst, hstep]
    cases queue' with
    | nil => exact absurd rfl hq
    | cons st' queue' => exact .next (s := s.replace id _ w) (h.keep id)
  | @ended id t st queue u w hid hbudget ready hstep hlog =>
    rw [visit_of_ready (hnext.trans hid) (hleft.trans hbudget) (ready.withoutFirst v) hlog,
      world_withoutFirst, hstep]
    exact .next (s := (s.replace id _ w).retire id) h.drop
  | @failed id t st queue e w s' hid hbudget ready hstep htell hlog =>
    have htell' :
        tell sup.handler id e (((s.withoutFirst v).replace id { t with queue } w).fail id e)
          = (none, s'.withoutFirst v) := tell_withoutFirst hsup hactive v htell
    rw [visit_of_ready (hnext.trans hid) (hleft.trans hbudget) (ready.withoutFirst v) hlog,
      world_withoutFirst, hstep]
    simp only [htell']
    exact .next h.drop
  | @raised id t st queue e w f s' hid hbudget ready hstep htell hlog =>
    have htell' :
        tell sup.handler id e (((s.withoutFirst v).replace id { t with queue } w).fail id e)
          = (some f, s'.withoutFirst v) := tell_withoutFirst hsup hactive v htell
    rw [visit_of_ready (hnext.trans hid) (hleft.trans hbudget) (ready.withoutFirst v) hlog,
      world_withoutFirst, hstep]
    simp only [htell']
    exact .broken
  | @brokenDown id t st queue d w hid hbudget ready hstep hlog =>
    rw [visit_of_ready (hnext.trans hid) (hleft.trans hbudget) (ready.withoutFirst v) hlog,
      world_withoutFirst, hstep]
    exact .broken
  | @unlogged id t st queue d hid hbudget ready hlog =>
    rw [visit_of_refusal (hnext.trans hid) (hleft.trans hbudget) (ready.withoutFirst v) hlog]
    exact .broken

/-- Without the first threads of a pass it comes out as it does with them. -/
theorem passFrom_lags (hsup : sup.SpawnsNothing) (hactive : sup.IgnoresActive) (h : p.Lags v c q)
    (b fuel : Nat) (s : Session) :
    (∀ {n s'}, passFrom sup (some (b : Int)) fuel q (s.withoutFirst v) = (.done n, s') →
      passFrom sup (some ((c + b : Nat) : Int)) fuel p s = (.done (c + n), s')) ∧
    ∀ {f}, (passFrom sup (some (b : Int)) fuel q (s.withoutFirst v)).1 = .failed f →
      (passFrom sup (some ((c + b : Nat) : Int)) fuel p s).1 = .failed f := by
  induction fuel generalizing p q s with
  | zero =>
    refine ⟨fun hdone ↦ ?_, fun hfailed ↦ ?_⟩
    · cases hdone
    · cases hfailed
  | succ fuel ih =>
    have hlags := visit_lags hsup hactive h b s
    generalize hv : s.visit sup (some ((c + b : Nat) : Int)) p = r at hlags
    generalize hw : (s.withoutFirst v).visit sup (some (b : Int)) q = r' at hlags
    cases hlags with
    | next h' =>
      rw [passFrom_succ_of_next hv, passFrom_succ_of_next hw]
      exact ih h' _
    | finished =>
      rw [passFrom_succ_of_finished hv, passFrom_succ_of_finished hw]
      refine ⟨fun hdone ↦ ?_, fun hfailed ↦ ?_⟩
      · cases hdone
        rfl
      · cases hfailed
    | broken =>
      rw [passFrom_succ_of_broken hv, passFrom_succ_of_broken hw]
      refine ⟨fun hdone ↦ ?_, fun hfailed ↦ hfailed⟩
      cases hdone

/-- Stopping inside a pass and resuming is what a single run does, if nobody was kept. -/
theorem StopsInside.run_add (hsup : sup.SpawnsNothing) (hactive : sup.IgnoresActive)
    (h : StopsInside sup s m p s') (hkept : p.kept = #[])
    (hrun : s.run sup fuel (some (m : Int)) = (.done m, cut p s')) (n : Nat) :
    ∃ fuel₀, ∀ fuel, fuel₀ ≤ fuel →
      (∀ f, (s.run sup fuel (some ((m + n : Nat) : Int))).1 ≠ .failed f) →
      ((cut p s').run sup fuel (some (n : Int))).1 ≠ .outOfFuel ∧
      s.run sup fuel (some ((m + n : Nat) : Int))
        = (((cut p s').run sup fuel (some (n : Int))).1.after m,
          ((cut p s').run sup fuel (some (n : Int))).2) := by
  rcases Nat.eq_zero_or_pos n with rfl | hn
  · obtain ⟨fuel₀, hfuel₀⟩ := run_add_zero hrun
    exact ⟨fuel₀, fun fuel hfuel _ ↦ hfuel₀ fuel hfuel⟩
  obtain ⟨fuel₀, visits, passes, k, s₀, hm, hover, hgoes⟩ := h.run_eq hn
  obtain ⟨fuel₁, hfuel₁⟩ := exists_fuel_run sup n (cut p s')
  have hlags : p.Lags p.visited p.executed {} := ⟨rfl, hkept, rfl⟩
  have hcut : cut p s' = s'.withoutFirst p.visited := by
    rw [cut, hkept, Array.empty_append, withoutFirst]
  have hover' := isOver_cut h.waiting hn
  have hleft : left (some (n : Int)) 0 = some ((n : Nat) : Int) := left_some (Nat.zero_le n)
  refine ⟨fuel₀ + fuel₁ + visits + 1 + passes, fun fuel hfuel hok ↦ ?_⟩
  obtain ⟨fuel, rfl⟩ : ∃ f, fuel = f + visits + 1 + passes :=
    ⟨fuel - passes - 1 - visits, by omega⟩
  obtain ⟨hsingle, hpass, -⟩ := hgoes fuel (by omega)
  obtain ⟨hdone, hfailed⟩ := passFrom_lags hsup hactive hlags n fuel s'
  obtain ⟨hends, hmore, -⟩ := hfuel₁ (fuel + visits + 1 + passes) (by omega)
  obtain ⟨hends', hless, -⟩ := hfuel₁ (fuel + 1) (by omega)
  refine ⟨hends, ?_⟩
  rw [hmore.trans hless.symm, hsingle, run]
  rw [run] at hends'
  rcases hp : (cut p s').pass sup fuel (left (some (n : Int)) 0) with ⟨j | f | _, s₂⟩
  · -- both passes end in the same session, and the same passes follow
    have hj : s₀.pass sup (fuel + visits) (left (some ((m + n : Nat) : Int)) k)
        = (.done (p.executed + j), s₂) := by
      rw [hleft, hcut] at hp
      exact hpass.trans (hdone hp)
    have hcount : k + (p.executed + j) = m + j := by omega
    rw [runFrom_succ_of_done hover' hp, Nat.zero_add] at hends' ⊢
    rw [runFrom_succ_of_done hover hj, hcount, runFrom_shift,
      (runFrom_mono (Nat.le_add_right fuel visits) hends').1]
  · rw [hleft, hcut] at hp
    have hf := hfailed (congrArg Prod.fst hp)
    rw [hsingle] at hok
    exact absurd (hpass ▸ hf) (pass_ne_failed hover hok f)
  · rw [runFrom_succ_of_not_done hover' hp (by simp)] at hends'
    exact absurd rfl hends'

end Lagging

/-! ## Resuming -/

/-- **Resuming is transparent if nobody was kept.** Let a run with a budget of `m` steps end after
`k` of them.

1. If it went through whole passes, then another run with a budget of `n` leaves the very session
   that a single run with a budget of `m + n` leaves, and the numbers of steps add up.
2. It went through whole passes if it did not use its budget up, and always if there is at most one
   thread to visit and nobody makes threads.
3. Otherwise it has stopped inside a pass, after the first `m` steps of the single run. If none of
   the threads visited in this pass was kept, then resuming does what the single run does, as long
   as that does not fail and failures are answered without regard to the list of active threads.
4. If a thread that was kept in this pass has steps left, and one that is waiting as well, then the
   next step is another one: the resumed run gives it to a thread that was kept, and the single run
   to one that is waiting. -/
theorem resuming_is_transparent_if_nobody_was_kept {sup : Supervision} {s s₁ : Session}
    {fuel m k : Nat} (hs : s.Arises) (hrun : s.run sup fuel (some (m : Int)) = (.done k, s₁)) :
    (Passes sup s k s₁ → ∀ n : Nat, ∃ fuel₀, ∀ fuel, fuel₀ ≤ fuel →
      (s₁.run sup fuel (some (n : Int))).1 ≠ .outOfFuel ∧
      s.run sup fuel (some ((m + n : Nat) : Int))
        = ((s₁.run sup fuel (some (n : Int))).1.after k, (s₁.run sup fuel (some (n : Int))).2)) ∧
    (k < m ∨ sup.SpawnsNothing ∧ s.active.size ≤ 1 → Passes sup s k s₁) ∧
    (Passes sup s k s₁ ∨ k = m ∧ ∃ p s', StopsInside sup s m p s' ∧ s₁ = cut p s' ∧
      (∀ (n : Nat) fuel, (s.runTrace sup fuel (some ((m + n : Nat) : Int))).take m
        = s.runTrace sup fuel (some (m : Int))) ∧
      (p.kept = #[] → sup.SpawnsNothing → sup.IgnoresActive →
        ∀ n : Nat, ∃ fuel₀, ∀ fuel, fuel₀ ≤ fuel →
          (∀ f, (s.run sup fuel (some ((m + n : Nat) : Int))).1 ≠ .failed f) →
          (s₁.run sup fuel (some (n : Int))).1 ≠ .outOfFuel ∧
          s.run sup fuel (some ((m + n : Nat) : Int))
            = ((s₁.run sup fuel (some (n : Int))).1.after m,
              (s₁.run sup fuel (some (n : Int))).2)) ∧
      ((∃ a ∈ p.kept.toList, s'.isIdle a = false) →
        (∃ u ∈ s'.active.toList.drop p.visited, s'.isIdle u = false) →
        ∀ n : Nat, 0 < n → ∃ fuel₀, ∀ fuel, fuel₀ ≤ fuel →
          (∀ f, (s₁.run sup fuel (some (n : Int))).1 ≠ .failed f) →
          (∀ f, (s.run sup fuel (some ((m + n : Nat) : Int))).1 ≠ .failed f) →
          ∃ a u, a ∈ p.kept.toList ∧ u ∈ s'.active.toList.drop p.visited ∧ a < u ∧
            (s₁.runTrace sup fuel (some (n : Int))).threads[0]? = some a ∧
            (s.runTrace sup fuel (some ((m + n : Nat) : Int))).threads[m]? = some u)) := by
  have hcases := runFrom_cases (Nat.zero_le m) hrun
  simp only [Nat.zero_add, Nat.sub_zero] at hcases
  have hend : k = m ∨ k < m ∧ s₁.isDone = true := by
    rcases hcases with ⟨_, rfl, -, hend⟩ | ⟨rfl, -⟩
    · exact hend
    · exact .inl rfl
  refine ⟨fun hpasses n ↦ hpasses.run_add hrun hend n, fun hwhole ↦ ?_, ?_⟩
  · rcases hcases with ⟨_, rfl, hpasses, -⟩ | ⟨rfl, p, s', hstops, -⟩
    · exact hpasses
    · rcases hwhole with hlt | ⟨hsup, hsize⟩
      · exact absurd hlt (Nat.lt_irrefl _)
      · have htwo := hstops.two_le hsup
        omega
  · rcases hcases with ⟨_, rfl, hpasses, -⟩ | ⟨rfl, p, s', hstops, rfl⟩
    · exact .inl hpasses
    refine .inr ⟨rfl, p, s', hstops, rfl, fun n fuel ↦ ?_, fun hkept hsup hactive n ↦ ?_,
      fun hkept hwaiting n hn ↦ ?_⟩
    · rw [runTrace_some, runTrace_some, List.take_take, Nat.min_eq_left (Nat.le_add_right _ _)]
    · exact hstops.run_add hsup hactive hkept hrun n
    · -- two runs that start differently: one with those who were kept, one with those who wait
      obtain ⟨fuel₁, hresumed⟩ := @exists_turn_of_cut sup p s' n hstops.waiting hkept hn
      obtain ⟨fuel₂, hsingle⟩ := hstops.exists_turn hwaiting hn
      refine ⟨max fuel₁ fuel₂, fun fuel hfuel hok hok' ↦ ?_⟩
      obtain ⟨a, ha, hfirst⟩ := hresumed fuel (Nat.le_trans (Nat.le_max_left _ _) hfuel) hok
      obtain ⟨u, hu, hnext⟩ := hsingle fuel (Nat.le_trans (Nat.le_max_right _ _) hfuel) hok'
      exact ⟨a, u, ha, hu, hstops.lt hs.inOrder ha hu, hfirst, hnext⟩

/-- Two threads, one of which defines a name that the other looks up one step earlier. -/
def racing : Session :=
  (fresh.spawn
    [.compound [.reference "define", .reference "x", .compound [.reference "+"]]] 0).spawn
    [.number 1, .number 2, .reference "x", .number 3] 0

theorem resuming_is_transparent_if_nobody_was_kept_racing :
    racing.run {} 9 (some 2) = (.done 2, (racing.run {} 9 (some 2)).2) ∧
      ∃ fuel₀, ∀ fuel, fuel₀ ≤ fuel → racing.run {} fuel (some 101)
        = (((racing.run {} 9 (some 2)).2.run {} fuel (some 99)).1.after 2,
          ((racing.run {} 9 (some 2)).2.run {} fuel (some 99)).2) := by
  have hs : racing.Arises := ((Arises.fresh World.fresh).spawn _ 0).spawn _ 0
  have hrun : racing.run {} 9 (some ((2 : Nat) : Int))
      = (.done 2, (racing.run {} 9 (some 2)).2) := by
    decide +kernel
  have hpass : racing.pass {} 9 none = (.done 2, (racing.run {} 9 (some 2)).2) := by
    decide +kernel
  have hpasses : Passes {} racing 2 (racing.run {} 9 (some 2)).2 :=
    .cons (by decide +kernel) hpass (.refl _)
  obtain ⟨fuel₀, hfuel₀⟩ := (resuming_is_transparent_if_nobody_was_kept hs hrun).1 hpasses 99
  exact ⟨hrun, fuel₀, fun fuel hfuel ↦ (hfuel₀ fuel hfuel).2⟩

/-- **Resuming is not transparent if somebody was kept.** After a stop at the first step the second
thread finds the name defined, and the steps are 15 in all. In a single run it fails, and there are
13. -/
theorem resuming_is_not_transparent_if_somebody_was_kept :
    (racing.run {} 30 (some 1)).1 = .done 1 ∧
      ((racing.run {} 30 (some 1)).2.run {} 30 (some 100)).1 = .done 14 ∧
      ((racing.run {} 30 (some 1)).2.run {} 30 (some 100)).2.threads[1]?.bind Thread.error = none ∧
      (racing.run {} 30 (some 101)).1 = .done 13 ∧
      (racing.run {} 30 (some 101)).2.threads[1]?.bind Thread.error = some (.unbound "x") := by
  decide +kernel

end Session

end Interleave

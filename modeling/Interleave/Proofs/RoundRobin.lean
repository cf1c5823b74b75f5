import Interleave.Proofs.Budget
import Interleave.Proofs.Order

/-!
# Turns in rounds

Number the steps that each thread takes during a run by 1, 2, 3 and so on. A run takes its steps in
the order of these numbers, and steps of the same number in the order of the threads
(`runs_take_turns_in_rounds`). So no thread takes a further step before every thread that is still
live has caught up.

## The invariant

In its pass number `k + 1` a run gives steps the number `k + 1`. The threads not yet visited in this
pass have taken `k` steps each, the threads kept so far `k + 1`, and whoever took more than `k`
comes before all that are waiting (`InRounds`). A pass without a budget visits all of its threads,
and the next pass begins with those that were kept.

## Who takes part

A thread may be cancelled, fail or end, and counts as long as it is live. Handlers may cancel
threads and must make none: a new thread joins the pass that is under way, with fewer steps behind
it than the others. A thread that is idle never becomes live again, so in the middle of a pass it
makes no difference whether it is idle since the last pass or since a moment ago.
-/

namespace Interleave

/-! ## Numbered steps -/

/-- The steps that the listed threads take after others, each with its number: how many steps the
thread has taken then. -/
def numberedAfter (before : List Nat) : List Nat → List (Nat × Nat)
  | [] => []
  | id :: ids => (before.count id + 1, id) :: numberedAfter (before ++ [id]) ids

/-- The steps that the listed threads take, each with its number. -/
def numbered (ids : List Nat) : List (Nat × Nat) :=
  numberedAfter [] ids

example : numbered [0, 2, 0, 2, 2] = [(1, 0), (1, 2), (2, 0), (2, 2), (3, 2)] := by decide

theorem numberedAfter_snoc (before ids : List Nat) (id : Nat) :
    numberedAfter before (ids ++ [id]) =
      numberedAfter before ids ++ [((before ++ ids).count id + 1, id)] := by
  induction ids generalizing before with
  | nil => rw [List.append_nil]; rfl
  | cons j ids ih =>
    rw [List.cons_append, numberedAfter, ih, numberedAfter, List.append_assoc, List.cons_append]
    rfl

theorem numbered_snoc (ids : List Nat) (id : Nat) :
    numbered (ids ++ [id]) = numbered ids ++ [(ids.count id + 1, id)] :=
  numberedAfter_snoc [] ids id

namespace Session

section Visits

variable {sup : Supervision} {budget : Option Int} {p p' : Progress} {s s' s₀ : Session}
  {trace : Trace} {fuel executed id j : Nat}

/-! ## Visits without a budget -/

/-- Where visits without a budget lead to, one after the other: the trace, how far the pass has
come, and the session then. -/
inductive Rounds (sup : Supervision) (s₀ : Session) : Trace → Progress → Session → Prop where
  | start : Rounds sup s₀ [] {} s₀
  | next {trace : Trace} {p p' : Progress} {s s' : Session} (h : Rounds sup s₀ trace p s)
    (hvisit : s.visit sup none p = .next p' s') :
    Rounds sup s₀ (trace ++ s.visitTrace sup none p) p' s'
  | finished {trace : Trace} {p : Progress} {n : Nat} {s s' : Session}
    (h : Rounds sup s₀ trace p s) (hvisit : s.visit sup none p = .finished n s') :
    Rounds sup s₀ trace {} s'

theorem Rounds.passFrom (h : Rounds sup s₀ trace p s) (fuel : Nat) :
    ∃ p' s', Rounds sup s₀ (trace ++ passTrace sup none fuel p s) p' s' ∧
      ∀ {n s₁}, Session.passFrom sup none fuel p s = (.done n, s₁) → p' = {} ∧ s' = s₁ := by
  induction fuel generalizing trace p s with
  | zero =>
    refine ⟨p, s, ?_, fun hpass ↦ ?_⟩
    · rw [passTrace, List.append_nil]
      exact h
    · cases hpass
  | succ fuel ih =>
    cases hv : s.visit sup none p with
    | next p₁ s₁ =>
      obtain ⟨p', s', hrounds, hend⟩ := ih (h.next hv)
      rw [passTrace_succ_of_next hv, passFrom_succ_of_next hv, ← List.append_assoc]
      exact ⟨p', s', hrounds, hend⟩
    | finished n s₁ =>
      rw [passTrace_succ_of_finished hv, passFrom_succ_of_finished hv, List.append_nil]
      refine ⟨{}, s₁, h.finished hv, fun hpass ↦ ?_⟩
      cases hpass
      exact ⟨rfl, rfl⟩
    | broken f s₁ =>
      rw [passTrace_succ_of_broken hv, passFrom_succ_of_broken hv, List.append_nil]
      refine ⟨p, s, h, fun hpass ↦ ?_⟩
      cases hpass

theorem Rounds.runFrom (h : Rounds sup s₀ trace {} s) (fuel executed : Nat) :
    ∃ p' s', Rounds sup s₀ (trace ++ runTraceFrom sup none fuel executed s) p' s' := by
  induction fuel generalizing trace executed s with
  | zero => exact ⟨{}, s, by rw [runTraceFrom, List.append_nil]; exact h⟩
  | succ fuel ih =>
    cases hover : s.isOver none executed with
    | true =>
      rw [runTraceFrom_succ_of_isOver sup fuel hover, List.append_nil]
      exact ⟨{}, s, h⟩
    | false =>
      obtain ⟨p', s', hrounds, hend⟩ := h.passFrom fuel
      rcases hpass : s.pass sup fuel (left none executed) with ⟨n | f | _, s₁⟩
      · obtain ⟨rfl, rfl⟩ := hend hpass
        rw [runTraceFrom_succ_of_done hover hpass, ← List.append_assoc]
        exact ih hrounds _
      · rw [runTraceFrom_succ_of_not_done hover hpass (by simp)]
        exact ⟨p', s', hrounds⟩
      · rw [runTraceFrom_succ_of_not_done hover hpass (by simp)]
        exact ⟨p', s', hrounds⟩

/-- Every step of a trace was taken in a visit, after the steps before it. -/
theorem Rounds.exists_visit (h : Rounds sup s₀ trace p s) {before after : Trace} {turn : Turn}
    (htrace : trace = before ++ (turn, s') :: after) :
    ∃ p₁ p₂ s₁, Rounds sup s₀ before p₁ s₁ ∧ s₁.visit sup none p₁ = .next p₂ s' ∧
      s₁.visitTrace sup none p₁ = [(turn, s')] := by
  induction h generalizing after with
  | start => simp at htrace
  | @next trace p p' s s₂ h hvisit ih =>
    rcases next_cases hvisit with ⟨id, -, -, -, -, hnone⟩ | ⟨id, texts, -, -, -, hone⟩
    · rw [hnone, List.append_nil] at htrace
      exact ih htrace
    · rw [hone] at htrace
      rcases List.eq_nil_or_concat after with rfl | ⟨rest, entry, rfl⟩
      · obtain ⟨rfl, hentry⟩ := List.append_inj' htrace rfl
        cases hentry
        exact ⟨p, p', s, h, hvisit, hone⟩
      · rw [List.concat_eq_append, ← List.cons_append, ← List.append_assoc] at htrace
        exact ih (List.append_inj' htrace rfl).1
  | finished _ _ ih => exact ih htrace

/-! ## Live threads -/

theorem isIdle_congr (h : s'.threads[j]? = s.threads[j]?) : s'.isIdle j = s.isIdle j := by
  rw [isIdle, isIdle, h]

theorem isIdle_retire (s : Session) (id j : Nat) : (s.retire id).isIdle j = s.isIdle j := by
  rw [isIdle, getElem?_threads_retire]
  by_cases hj : id = j
  · rw [if_pos hj, Option.all_map]
    rfl
  · rw [if_neg hj]
    rfl

theorem isIdle_of_isIdle_cancel (h : (s.cancel id).isIdle j = false) : s.isIdle j = false := by
  have hthread : (s.cancel id).threads[j]? =
      if id = j then s.threads[j]?.map ({ · with isCancelled := true }) else s.threads[j]? :=
    Array.getElem?_modify
  rw [isIdle, hthread] at h
  by_cases hj : id = j
  · rw [if_pos hj] at h
    cases ht : s.threads[j]? with
    | none => rw [ht] at h; cases h
    | some t => rw [ht] at h; cases h
  · rw [if_neg hj] at h
    exact h

/-- Those who are told of a failure make no idle thread live again. -/
theorem isIdle_of_tell (hsup : sup.SpawnsNothing) {e : ProgramError} {o : Option Fault}
    (h : tell sup.handler id e s = (o, s')) (hj : s'.isIdle j = false) : s.isIdle j = false := by
  have hreact : ∀ (rs : List Reaction) {s : Session}, (∀ r ∈ rs, ∃ k, r = .cancel k) →
      (rs.foldl react s).isIdle j = false → s.isIdle j = false := by
    intro rs
    induction rs with
    | nil => exact fun _ hj ↦ hj
    | cons r rs ih =>
      intro s hrs hj
      obtain ⟨k, rfl⟩ := hrs r List.mem_cons_self
      exact isIdle_of_isIdle_cancel (ih (fun r hr ↦ hrs r (List.mem_cons_of_mem _ hr)) hj)
  cases hh : sup.handler with
  | none =>
    rw [hh] at h
    cases h
    exact hj
  | some handler =>
    have hreactions := hsup handler hh s id e
    rw [hh, tell] at h
    cases h
    exact @hreact _ (s.note _) hreactions hj

theorem active_of_tell (hsup : sup.SpawnsNothing) {e : ProgramError} {o : Option Fault}
    (h : tell sup.handler id e s = (o, s')) : s'.active = s.active := by
  have hreact : ∀ (rs : List Reaction) {s : Session}, (∀ r ∈ rs, ∃ k, r = .cancel k) →
      (rs.foldl react s).active = s.active := by
    intro rs
    induction rs with
    | nil => exact fun _ ↦ rfl
    | cons r rs ih =>
      intro s hrs
      obtain ⟨k, rfl⟩ := hrs r List.mem_cons_self
      exact ih fun r hr ↦ hrs r (List.mem_cons_of_mem _ hr)
  cases hh : sup.handler with
  | none =>
    rw [hh] at h
    cases h
    rfl
  | some handler =>
    have hreactions := hsup handler hh s id e
    rw [hh, tell] at h
    cases h
    exact @hreact _ (s.note _) hreactions

/-- The list of active threads stays as it is until the pass is over. -/
theorem active_of_next (hsup : sup.SpawnsNothing) (h : s.visit sup budget p = .next p' s') :
    s'.active = s.active := by
  cases visited_of_visit h with
  | idle => rfl
  | kept => rfl
  | ended => rfl
  | failed _ _ _ _ htell => exact (active_of_tell hsup htell).trans rfl

/-- A thread that is live after a visit was live before, and if it was visited, it was kept. -/
theorem live_of_next (hsup : sup.SpawnsNothing) (h : s.visit sup budget p = .next p' s')
    (hid : s.active[p.visited]? = some id) (hj : s'.isIdle j = false) :
    s.isIdle j = false ∧ (j = id → p' = p.keep id) := by
  cases visited_of_visit h with
  | idle hid' _ hidle =>
    cases hid.symm.trans hid'
    rw [isIdle_retire] at hj
    refine ⟨hj, ?_⟩
    rintro rfl
    rw [hj] at hidle
    cases hidle
  | @kept _ t st q q' v w hid' _ ready =>
    cases hid.symm.trans hid'
    refine ⟨?_, fun _ ↦ rfl⟩
    by_cases hij : id = j
    · subst hij
      exact isIdle_of_ready ready
    · have hlt := (Array.getElem?_eq_some_iff.mp ready.thread).1
      rwa [isIdle_congr ((getElem?_threads_replace hlt _ _ j).trans (if_neg hij))] at hj
  | @ended _ t st q v w hid' _ ready =>
    cases hid.symm.trans hid'
    have hlt := (Array.getElem?_eq_some_iff.mp ready.thread).1
    have hthread := getElem?_threads_replace hlt
      { t with current := v, queue := [], steps := t.steps + 1 } w j
    rw [isIdle_retire] at hj
    by_cases hij : id = j
    · -- its queue is empty now, so it cannot be live
      rw [if_pos hij] at hthread
      rw [isIdle, hthread, Option.all_some, List.isEmpty_nil, Bool.or_true] at hj
      cases hj
    · rw [isIdle_congr (hthread.trans (if_neg hij))] at hj
      exact ⟨hj, fun hji ↦ absurd hji.symm hij⟩
  | @failed _ t st q e w _ hid' _ ready hstep htell =>
    cases hid.symm.trans hid'
    have hlt := (Array.getElem?_eq_some_iff.mp ready.thread).1
    have hfailed := isIdle_of_tell hsup htell hj
    have hthread := getElem?_threads_fail (s.replace id { t with queue := q } w) id e j
    rw [getElem?_threads_replace hlt] at hthread
    by_cases hij : id = j
    · rw [if_pos hij, if_pos hij] at hthread
      rw [isIdle, hthread, Option.map_some, Option.all_some, List.isEmpty_nil, Bool.or_true]
        at hfailed
      cases hfailed
    · rw [if_neg hij, if_neg hij] at hthread
      rw [isIdle_congr hthread] at hfailed
      exact ⟨hfailed, fun hji ↦ absurd hji.symm hij⟩

/-- Since the last step nothing has changed that matters to runs, and the same threads are idle. -/
theorem Rounds.last (h : Rounds sup s₀ trace p s) :
    (Trace.last s₀ trace).Quiet s ∧ ∀ j, s.isIdle j = (Trace.last s₀ trace).isIdle j := by
  induction h with
  | start => exact ⟨.refl _, fun _ ↦ rfl⟩
  | @next trace p p' s s' _ hvisit ih =>
    rcases next_cases hvisit with ⟨id, -, -, -, rfl, htrace⟩ | ⟨id, texts, -, -, -, htrace⟩
    · rw [htrace, List.append_nil]
      exact ⟨ih.1.trans (.retire s id), fun j ↦ (isIdle_retire s id j).trans (ih.2 j)⟩
    · rw [htrace, Trace.last_append]
      exact ⟨.refl _, fun _ ↦ rfl⟩
  | @finished trace p n s s' _ hvisit ih =>
    refine ⟨ih.1.trans (quiet_of_finished hvisit), fun j ↦ Eq.trans ?_ (ih.2 j)⟩
    cases visited_of_visit hvisit with
    | allVisited => rfl
    | cut => rfl

end Visits

/-! ## Rounds -/

/-- In the middle of a pass, after `k` passes of the run: who has taken how many steps. Of the
threads in `crowd`, those that are live take part in the pass. -/
structure InRounds (crowd : List Nat) (k : Nat) (ids : List Nat) (p : Progress) (s : Session) :
    Prop where
  /-- Active threads are in order. -/
  order : s.InOrder p
  /-- The steps taken so far are in order. -/
  sorted : (numbered ids).Pairwise (Prod.Lex (· < ·) (· < ·))
  /-- Steps of this pass were taken by threads before those that are waiting. -/
  bounded : ∀ {m id : Nat}, (m, id) ∈ numbered ids →
    m ≤ k ∨ m = k + 1 ∧ ∀ j ∈ s.active.toList.drop p.visited, id < j
  /-- Waiting threads have taken a step in every pass before. -/
  waiting_count : ∀ {j : Nat}, j ∈ s.active.toList.drop p.visited → ids.count j = k
  /-- Threads that were kept have taken one more. -/
  kept_count : ∀ {j : Nat}, j ∈ p.kept.toList → ids.count j = k + 1
  /-- Live threads are kept or waiting. -/
  live : ∀ {j : Nat}, j ∈ crowd → s.isIdle j = false →
    j ∈ p.kept.toList ∨ j ∈ s.active.toList.drop p.visited

section Invariant

variable {sup : Supervision} {p p' : Progress} {s s' s₀ : Session} {trace : Trace}
  {crowd ids : List Nat} {k id : Nat}

/-- A thread that is waiting comes before the others that are, and was not kept. -/
theorem InOrder.visiting (h : s.InOrder p) (hid : s.active[p.visited]? = some id) :
    (∀ j ∈ s.active.toList.drop (p.visited + 1), id < j) ∧ id ∉ p.kept.toList := by
  have hsplit : s.active.toList
      = s.active.toList.take p.visited ++ id :: s.active.toList.drop (p.visited + 1) := by
    rw [← drop_visited hid, List.take_append_drop]
  have hincreasing := h.increasing
  rw [hsplit, List.pairwise_append, List.pairwise_cons] at hincreasing
  obtain ⟨-, ⟨hafter, -⟩, hbefore⟩ := hincreasing
  refine ⟨hafter, fun hmem ↦ ?_⟩
  exact Nat.lt_irrefl id (hbefore id (h.kept.subset hmem) id List.mem_cons_self)

theorem InRounds.skip (h : InRounds crowd k ids p s) (hid : s.active[p.visited]? = some id)
    (horder : s'.InOrder p.skip) (hactive : s'.active = s.active)
    (hlive : ∀ {j}, s'.isIdle j = false → s.isIdle j = false ∧ j ≠ id) :
    InRounds crowd k ids p.skip s' := by
  have hrest : ∀ {j}, j ∈ s'.active.toList.drop (p.visited + 1) →
      j ∈ s.active.toList.drop p.visited := by
    intro j hj
    rw [hactive] at hj
    rw [drop_visited hid]
    exact List.mem_cons_of_mem _ hj
  refine ⟨horder, h.sorted, fun hm ↦ ?_, fun hj ↦ h.waiting_count (hrest hj), h.kept_count,
    fun hj hidle ↦ ?_⟩
  · exact (h.bounded hm).imp_right fun ⟨hk, hlt⟩ ↦ ⟨hk, fun j hj ↦ hlt j (hrest hj)⟩
  · obtain ⟨hlives, hne⟩ := hlive hidle
    refine (h.live hj hlives).imp_right fun hwaiting ↦ ?_
    rw [drop_visited hid] at hwaiting
    rw [hactive]
    exact List.mem_of_ne_of_mem hne hwaiting

/-- Of the threads kept after a visit, all but the one visited were kept before. -/
theorem mem_kept_of_visited (hp : p' = p.keep id ∨ p' = p.drop) {j : Nat}
    (hj : j ∈ p'.kept.toList) : j ∈ p.kept.toList ∨ j = id := by
  rcases hp with rfl | rfl
  · rw [Progress.keep, Array.toList_push] at hj
    exact (List.mem_append.mp hj).imp_right List.mem_singleton.mp
  · exact .inl hj

theorem mem_kept_of_mem (hp : p' = p.keep id ∨ p' = p.drop) {j : Nat}
    (hj : j ∈ p.kept.toList) : j ∈ p'.kept.toList := by
  rcases hp with rfl | rfl
  · rw [Progress.keep, Array.toList_push]
    exact List.mem_append_left _ hj
  · exact hj

/-- A thread takes its step, the next one in the order of numbered steps. -/
theorem InRounds.turn (h : InRounds crowd k ids p s) (hid : s.active[p.visited]? = some id)
    (hp : p' = p.keep id ∨ p' = p.drop) (horder : s'.InOrder p') (hactive : s'.active = s.active)
    (hlive : ∀ {j}, s'.isIdle j = false → s.isIdle j = false ∧ (j = id → p' = p.keep id)) :
    InRounds crowd k (ids ++ [id]) p' s' := by
  obtain ⟨hafter, hkept⟩ := h.order.visiting hid
  have hwaiting : s'.active.toList.drop p'.visited = s.active.toList.drop (p.visited + 1) := by
    rw [hactive]
    rcases hp with rfl | rfl <;> rfl
  have hrest : ∀ {j}, j ∈ s.active.toList.drop (p.visited + 1) →
      j ∈ s.active.toList.drop p.visited := by
    intro j hj
    rw [drop_visited hid]
    exact List.mem_cons_of_mem _ hj
  have hfirst : id ∈ s.active.toList.drop p.visited := by
    rw [drop_visited hid]
    exact List.mem_cons_self
  have hself : (ids ++ [id]).count id = k + 1 := by
    rw [List.count_append, h.waiting_count hfirst, List.count_singleton_self]
  have hother : ∀ {j}, j ≠ id → (ids ++ [id]).count j = ids.count j := by
    intro j hj
    rw [List.count_append, List.count_singleton, beq_false_of_ne hj.symm]
    rfl
  refine ⟨horder, ?_, ?_, ?_, ?_, ?_⟩
  · -- the new step has number `k + 1`, and comes after all of that number by its thread
    rw [numbered_snoc, h.waiting_count hfirst, List.pairwise_append]
    refine ⟨h.sorted, List.pairwise_singleton _ _, fun ⟨m, i⟩ hm x hx ↦ ?_⟩
    rw [List.mem_singleton.mp hx]
    rcases h.bounded hm with hle | ⟨rfl, hlt⟩
    · exact .left _ _ (Nat.lt_succ_of_le hle)
    · exact .right _ (hlt id hfirst)
  · intro m i hm
    rw [numbered_snoc, h.waiting_count hfirst, List.mem_append, List.mem_singleton] at hm
    rw [hwaiting]
    rcases hm with hm | hm
    · exact (h.bounded hm).imp_right fun ⟨hk, hlt⟩ ↦ ⟨hk, fun j hj ↦ hlt j (hrest hj)⟩
    · cases hm
      exact .inr ⟨rfl, hafter⟩
  · intro j hj
    rw [hwaiting] at hj
    rw [hother (Nat.ne_of_gt (hafter j hj))]
    exact h.waiting_count (hrest hj)
  · intro j hj
    rcases mem_kept_of_visited hp hj with hj | rfl
    · have hne : j ≠ id := by
        rintro rfl
        exact hkept hj
      rw [hother hne]
      exact h.kept_count hj
    · exact hself
  · intro j hj hidle
    obtain ⟨hlives, hvisited⟩ := hlive hidle
    rw [hwaiting]
    rcases h.live hj hlives with hmem | hmem
    · exact .inl (mem_kept_of_mem hp hmem)
    · rw [drop_visited hid, List.mem_cons] at hmem
      rcases hmem with rfl | hmem
      · -- the visited thread is live only if it was kept
        rw [hvisited rfl, Progress.keep, Array.toList_push]
        exact .inl (List.mem_append_right _ List.mem_cons_self)
      · exact .inr hmem

/-- A pass is over, and the next one begins with the threads that were kept. -/
theorem InRounds.finish (h : InRounds crowd k ids p s) (hid : s.active[p.visited]? = none)
    (horder : Session.InOrder {} { s with active := p.kept }) :
    InRounds crowd (k + 1) ids {} { s with active := p.kept } := by
  have hnobody : s.active.toList.drop p.visited = [] :=
    List.drop_eq_nil_of_le (Array.getElem?_eq_none_iff.mp hid)
  refine ⟨horder, h.sorted, fun hm ↦ .inl ?_, fun hj ↦ h.kept_count hj,
    fun hj ↦ absurd hj List.not_mem_nil, fun hj hidle ↦ .inr ?_⟩
  · rcases h.bounded hm with hle | ⟨rfl, -⟩
    · exact Nat.le_succ_of_le hle
    · exact Nat.le_refl _
  · rcases h.live hj hidle with hmem | hmem
    · exact hmem
    · rw [hnobody] at hmem
      cases hmem

/-- The thread that takes a step has taken one in every pass before. -/
theorem InRounds.count_turn {turn : Turn} (h : InRounds crowd k ids p s)
    (hvisit : s.visit sup none p = .next p' s')
    (hturn : s.visitTrace sup none p = [(turn, s')]) : ids.count turn.thread = k := by
  rcases next_cases hvisit with ⟨id, -, -, -, -, hnone⟩ | ⟨id, texts, hid, -, -, hone⟩
  · rw [hnone] at hturn
    cases hturn
  · rw [hone] at hturn
    cases hturn
    refine h.waiting_count ?_
    rw [drop_visited hid]
    exact List.mem_cons_self

/-- **Visits without a budget go by rounds.** -/
theorem Rounds.inRounds (hsup : sup.SpawnsNothing) (h₀ : s₀.InOrder {})
    (h : Rounds sup s₀ trace p s) :
    ∃ k, InRounds s₀.active.toList k trace.threads p s := by
  have hvisits := InOrder.preservedByVisits sup
  induction h with
  | start =>
    exact ⟨0, h₀, .nil, fun hm ↦ absurd hm List.not_mem_nil, fun _ ↦ rfl,
      fun hj ↦ absurd hj List.not_mem_nil, fun hj _ ↦ .inr hj⟩
  | @next trace p p' s s' _ hvisit ih =>
    obtain ⟨k, hk⟩ := ih
    have horder := @hvisits.next none [] p p' s s' hk.order hvisit
    have hactive := active_of_next hsup hvisit
    refine ⟨k, ?_⟩
    rcases next_cases hvisit with ⟨id, hid, hidle, rfl, -, htrace⟩ |
        ⟨id, texts, hid, -, hp, htrace⟩
    · rw [htrace, List.append_nil]
      refine hk.skip hid horder hactive fun {j} hj ↦ ?_
      obtain ⟨hlives, hkeep⟩ := live_of_next hsup hvisit hid hj
      refine ⟨hlives, ?_⟩
      rintro rfl
      rw [hlives] at hidle
      cases hidle
    · rw [htrace, Trace.threads, List.map_append]
      exact hk.turn hid hp horder hactive fun hj ↦ live_of_next hsup hvisit hid hj
  | @finished trace p n s s' _ hvisit ih =>
    obtain ⟨k, hk⟩ := ih
    have horder := @hvisits.finished none [] p n s s' hk.order hvisit
    cases visited_of_visit hvisit with
    | allVisited hid => exact ⟨k + 1, hk.finish hid horder⟩
    | cut _ hbudget => cases hbudget

/-- **Threads take turns in rounds.** Take a session that operations lead to, and a handler that
makes no threads. Number the steps that each thread takes during a run, failing ones included.

A run without a budget takes its steps in the order of these numbers, and steps of the same number
in the order of the threads. So when a thread takes a step, every thread that was active at the
beginning and is still live has taken as many steps before as that thread. With more fuel the run
takes more steps after the same ones.

A run with a budget of `n` steps ends, and takes the first `n` of the steps that the run without a
budget takes, or all of them if there are fewer. Unless a fault comes out of it, it gives their
number and leaves behind what the other run has after them: the same values, queues and errors of
threads, the same frames and the same printed texts. -/
theorem runs_take_turns_in_rounds (hsup : sup.SpawnsNothing) (hs : s.Arises) :
    (∀ fuel, (numbered (s.runTrace sup fuel none).threads).Pairwise
        (Prod.Lex (· < ·) (· < ·))) ∧
      (∀ fuel before turn s' after,
        s.runTrace sup fuel none = before ++ (turn, s') :: after →
        ∀ j ∈ s.active, (Trace.last s before).isIdle j = false →
          (Trace.threads before).count turn.thread ≤ (Trace.threads before).count j) ∧
      (∀ fuel fuel', fuel ≤ fuel' → s.runTrace sup fuel none <+: s.runTrace sup fuel' none) ∧
      ∀ n : Nat, ∃ fuel₀ first, ∀ fuel, fuel₀ ≤ fuel →
        (s.runTrace sup fuel none).take n = first ∧ s.runTrace sup fuel (some n) = first ∧
          ((∀ f, (s.run sup fuel (some n)).1 ≠ .failed f) →
            ∃ s', s.run sup fuel (some n) = (.done first.length, s') ∧
              (Trace.last s first).Quiet s') := by
  have hrounds : ∀ fuel, ∃ p' s', Rounds sup s (s.runTrace sup fuel none) p' s' :=
    fun fuel ↦ Rounds.start.runFrom fuel 0
  refine ⟨fun fuel ↦ ?_, ?_, fun fuel fuel' hle ↦ runTraceFrom_prefix_of_le hle, fun n ↦ ?_⟩
  · obtain ⟨p', s', hend⟩ := hrounds fuel
    obtain ⟨k, hk⟩ := hend.inRounds hsup hs.inOrder
    exact hk.sorted
  · intro fuel before turn s' after htrace j hj hidle
    obtain ⟨p', s'', hend⟩ := hrounds fuel
    obtain ⟨p₁, p₂, s₁, hbefore, hvisit, hturn⟩ := hend.exists_visit htrace
    obtain ⟨k, hk⟩ := hbefore.inRounds hsup hs.inOrder
    -- the other thread is live when the step is taken, so it was kept in this pass or waits
    have hlive : s₁.isIdle j = false := (hbefore.last.2 j).trans hidle
    rw [hk.count_turn hvisit hturn]
    rcases hk.live (Array.mem_toList_iff.mpr hj) hlive with hkept | hwaiting
    · rw [hk.kept_count hkept]
      exact Nat.le_succ k
    · exact Nat.le_of_eq (hk.waiting_count hwaiting).symm
  · obtain ⟨fuel₀, hfuel₀⟩ := exists_fuel_run sup n s
    refine ⟨fuel₀, s.runTrace sup fuel₀ (some n), fun fuel hle ↦ ?_⟩
    obtain ⟨hends, hrun, htrace⟩ := hfuel₀ fuel hle
    refine ⟨(runTrace_some n fuel sup s).symm.trans htrace, htrace, fun hfailed ↦ ?_⟩
    rw [hrun] at hends hfailed ⊢
    exact exists_done_of_run hends hfailed

/-- Three threads, of which the second fails in the second pass. -/
def unevenThreads : Session :=
  ((({ world := World.fresh } : Session).spawn [.number 1, .number 2] 0).spawn [.reference "x"]
    0).spawn [.number 3, .number 4] 0

/-- A handler that cancels the first thread whenever one fails. -/
def cancelsFirst : Supervision where
  handler := some fun _ _ _ ↦ { reactions := [.cancel 0] }

theorem runs_take_turns_in_rounds_unevenThreads :
    (unevenThreads.runTrace cancelsFirst 9 none).threads = [0, 1, 2, 0, 1, 2, 2, 2] ∧
      (numbered [0, 1, 2, 0, 1, 2, 2, 2]).Pairwise (Prod.Lex (· < ·) (· < ·)) ∧
      ∃ fuel₀ first, ∀ fuel, fuel₀ ≤ fuel →
        (unevenThreads.runTrace cancelsFirst fuel none).take 5 = first ∧
          unevenThreads.runTrace cancelsFirst fuel (some 5) = first := by
  have hsup : cancelsFirst.SpawnsNothing := by
    intro h hh s id e r hr
    cases hh
    exact ⟨0, List.mem_singleton.mp hr⟩
  have hs : unevenThreads.Arises :=
    (((Arises.fresh World.fresh).spawn _ 0).spawn _ 0).spawn _ 0
  obtain ⟨hsorted, -, -, hbudget⟩ := runs_take_turns_in_rounds hsup hs
  have hthreads : (unevenThreads.runTrace cancelsFirst 9 none).threads
      = [0, 1, 2, 0, 1, 2, 2, 2] := by decide +kernel
  obtain ⟨fuel₀, first, hfirst⟩ := hbudget 5
  refine ⟨hthreads, ?_, fuel₀, first, fun fuel hle ↦ ?_⟩
  · rw [← hthreads]
    exact hsorted 9
  · obtain ⟨hnone, hsome, -⟩ := hfirst fuel hle
    exact ⟨hnone, hsome⟩

end Invariant

end Session

end Interleave

import Interleave.Proofs.Accounting

/-!
# Threads at rest

A thread that was cancelled, or has nothing to do, is at rest: a visit retires it and lets it take
no step. Whoever is at rest stays at rest. Nobody takes a cancellation back, and only a step puts
steps in front of a queue.

What can become of a thread as time goes by is said once (`Thread.Ages`). At rest it changes in its
flags at most, its flags are set and never taken back, and it is not retired before it is at rest.
The same is said of all threads of a session, the new ones included (`Session.Ages`), with one lemma
for each operation. It holds of visits that faults break off as well, and therefore of all passes
and runs, however they come out. So in every session that operations lead to the retired threads are
at rest, those included that a fault left on the list of active threads.

`Session.passTakers` and `Session.runTakers` list the threads whose steps are taken, those steps
included that fail or break down.
-/

namespace Interleave

namespace Thread

/-- The thread takes no step when it is visited: it was cancelled, or it has nothing to do. -/
def AtRest (t : Thread) : Prop :=
  t.isCancelled = true ∨ t.queue = []

/-- As time goes by, the thread can become the other one. -/
structure Ages (t t' : Thread) : Prop where
  sameRun : t.AtRest → t.SameRun t'
  cancelled : t.isCancelled = true → t'.isCancelled = true
  retired : t.isRetired = true → t'.isRetired = true
  atRest_of_retired : t'.isRetired = true → t.isRetired = true ∨ t'.AtRest

variable {t t' t'' : Thread}

theorem AtRest.ages (hrest : t.AtRest) (h : t.Ages t') : t'.AtRest := by
  rcases hrest with hcancelled | hqueue
  · exact .inl (h.cancelled hcancelled)
  · exact .inr ((h.sameRun (.inr hqueue)).queue.trans hqueue)

/-- A step by hand neither takes a cancellation back nor finds steps where there are none. -/
theorem AtRest.step (hrest : t.AtRest) (w : World) : (t.step w).2.1.AtRest := by
  rcases hrest with hcancelled | hqueue
  · refine .inl ?_
    rw [Thread.step.eq_def]
    split
    · exact hcancelled
    · split <;> exact hcancelled
  · exact .inr ((t.life_of_step w).2.2 hqueue)

namespace Ages

theorem refl (t : Thread) : t.Ages t :=
  ⟨fun _ ↦ ⟨rfl, rfl, rfl, rfl⟩, fun h ↦ h, fun h ↦ h, .inl⟩

theorem trans (h : t.Ages t') (h' : t'.Ages t'') : t.Ages t'' where
  sameRun hrest := by
    have hsame := h.sameRun hrest
    have hsame' := h'.sameRun (hrest.ages h)
    exact ⟨hsame'.current.trans hsame.current, hsame'.queue.trans hsame.queue,
      hsame'.error.trans hsame.error, hsame'.steps.trans hsame.steps⟩
  cancelled hc := h'.cancelled (h.cancelled hc)
  retired hr := h'.retired (h.retired hr)
  atRest_of_retired hr := by
    rcases h'.atRest_of_retired hr with hr' | hrest
    · exact (h.atRest_of_retired hr').imp_right (AtRest.ages · h')
    · exact .inr hrest

theorem retire (hrest : t.AtRest) : t.Ages { t with isRetired := true } :=
  ⟨fun _ ↦ ⟨rfl, rfl, rfl, rfl⟩, fun h ↦ h, fun _ ↦ rfl, fun _ ↦ .inr hrest⟩

theorem cancel (t : Thread) : t.Ages { t with isCancelled := true } :=
  ⟨fun _ ↦ ⟨rfl, rfl, rfl, rfl⟩, fun _ ↦ rfl, fun h ↦ h, .inl⟩

end Ages

end Thread

namespace Session

variable {sup : Supervision} {budget : Option Int} {p p' : Progress} {s s' s'' : Session} {id : Nat}

theorem Ready.not_atRest {t : Thread} {st : Step} {q : Queue} (ready : s.Ready id t st q) :
    ¬t.AtRest := by
  rintro (hcancelled | hqueue)
  · cases ready.notCancelled.symm.trans hcancelled
  · cases ready.queue.symm.trans hqueue

/-- A thread that takes a step may become anything, if it has nothing to do when it is retired. -/
theorem Ready.ages {t t' : Thread} {st : Step} {q : Queue} (ready : s.Ready id t st q)
    (h : t'.isRetired = t.isRetired ∨ t'.isRetired = true ∧ t'.queue = []) : t.Ages t' where
  sameRun hrest := absurd hrest ready.not_atRest
  cancelled hc := absurd (.inl hc) ready.not_atRest
  retired hr := by
    rcases h with h | h
    · exact h.trans hr
    · exact h.1
  atRest_of_retired hr := by
    rcases h with h | h
    · exact .inl (h.symm.trans hr)
    · exact .inr (.inr h.2)

theorem atRest_of_isIdle {t : Thread} (h : s.isIdle id = true) (ht : s.threads[id]? = some t) :
    t.AtRest := by
  rw [isIdle, ht, Option.all_some, Bool.or_eq_true, List.isEmpty_iff] at h
  exact h

/-! ## What becomes of threads -/

/-- As time goes by, the session can become the other one, as far as its threads go. -/
structure Ages (s s' : Session) : Prop where
  old : ∀ {id : Nat} {t : Thread}, s.threads[id]? = some t →
    ∃ t', s'.threads[id]? = some t' ∧ t.Ages t'
  new : ∀ {id : Nat} {t' : Thread}, s.threads[id]? = none → s'.threads[id]? = some t' →
    t'.isRetired = true → t'.AtRest
  active : ∀ id ∈ s'.active.toList, id ∈ s.active.toList ∨ s.threads[id]? = none

namespace Ages

theorem of_threads_eq (hthreads : s'.threads = s.threads)
    (hactive : ∀ id ∈ s'.active.toList, id ∈ s.active.toList) : s.Ages s' := by
  refine ⟨fun ht ↦ ⟨_, hthreads ▸ ht, .refl _⟩, fun hnone hsome ↦ ?_,
    fun id hid ↦ .inl (hactive id hid)⟩
  rw [hthreads, hnone] at hsome
  cases hsome

theorem refl (s : Session) : s.Ages s :=
  .of_threads_eq rfl fun _ hid ↦ hid

theorem trans (h : s.Ages s') (h' : s'.Ages s'') : s.Ages s'' where
  old ht := by
    obtain ⟨t', ht', hages⟩ := h.old ht
    obtain ⟨t'', ht'', hages'⟩ := h'.old ht'
    exact ⟨t'', ht'', hages.trans hages'⟩
  new {id t''} hnone ht'' hretired := by
    cases ht' : s'.threads[id]? with
    | none => exact h'.new ht' ht'' hretired
    | some t' =>
      -- the thread is new to the first session and old to the second
      obtain ⟨u, hu, hages⟩ := h'.old ht'
      cases hu.symm.trans ht''
      rcases hages.atRest_of_retired hretired with hretired' | hrest
      · exact (h.new hnone ht' hretired').ages hages
      · exact hrest
  active id hid := by
    rcases h'.active id hid with hid' | hnone'
    · exact h.active id hid'
    · refine .inr ?_
      cases ht : s.threads[id]? with
      | none => rfl
      | some t =>
        obtain ⟨t', ht', -⟩ := h.old ht
        cases hnone'.symm.trans ht'

theorem of_thread {t t' : Thread} (ht : s.threads[id]? = some t)
    (ht' : ∀ j, s'.threads[j]? = if id = j then some t' else s.threads[j]?) (hages : t.Ages t')
    (hactive : s'.active = s.active) : s.Ages s' where
  old {j u} hu := by
    rw [ht']
    by_cases hj : id = j
    · subst hj
      cases ht.symm.trans hu
      exact ⟨t', if_pos rfl, hages⟩
    · exact ⟨u, (if_neg hj).trans hu, .refl u⟩
  new {j u} hnone hu := by
    have hj : id ≠ j := by
      rintro rfl
      cases ht.symm.trans hnone
    rw [ht', if_neg hj, hnone] at hu
    cases hu
  active j hj := .inl (hactive ▸ hj)

theorem modify (g : Thread → Thread) (hg : ∀ t, s.threads[id]? = some t → t.Ages (g t))
    (hthreads : s'.threads = s.threads.modify id g) (hactive : s'.active = s.active) :
    s.Ages s' := by
  cases ht : s.threads[id]? with
  | none =>
    refine .of_threads_eq ?_ fun j hj ↦ hactive ▸ hj
    refine hthreads.trans (Array.ext_getElem? fun j ↦ ?_)
    rw [Array.getElem?_modify]
    split
    · next hj =>
      subst hj
      rw [ht, Option.map_none]
    · rfl
  | some t =>
    refine .of_thread ht (fun j ↦ ?_) (hg t ht) hactive
    rw [hthreads, Array.getElem?_modify]
    split
    · next hj =>
      subst hj
      rw [ht, Option.map_some]
    · rfl

theorem cancel (s : Session) (id : Nat) : s.Ages (s.cancel id) :=
  .modify ({ · with isCancelled := true }) (fun t _ ↦ .cancel t) rfl rfl

/-- Whoever has no step to take is at rest, and may be retired. -/
theorem retire (h : s.isIdle id = true) : s.Ages (s.retire id) :=
  .modify ({ · with isRetired := true }) (fun _ ht ↦ .retire (atRest_of_isIdle h ht)) rfl rfl

theorem spawn (s : Session) (program : List Expr) (frame : FrameId) :
    s.Ages (s.spawn program frame) where
  old {id t} ht := by
    have hlt : id < s.threads.size := (Array.getElem?_eq_some_iff.mp ht).1
    refine ⟨t, ?_, .refl t⟩
    rw [Session.spawn, Array.getElem?_push, if_neg (Nat.ne_of_lt hlt)]
    exact ht
  new {id t'} hnone ht' hretired := by
    rw [Session.spawn, Array.getElem?_push] at ht'
    split at ht'
    · cases ht'
      cases hretired
    · cases hnone.symm.trans ht'
  active id hid := by
    rw [Session.spawn, Array.toList_push, List.mem_append, List.mem_singleton] at hid
    rcases hid with hid | rfl
    · exact .inl hid
    · exact .inr (Array.getElem?_eq_none (Nat.le_refl _))

theorem reactAll (s : Session) (rs : List Reaction) : s.Ages (rs.foldl react s) := by
  induction rs generalizing s with
  | nil => exact .refl s
  | cons r rs ih =>
    have hreact : s.Ages (s.react r) := by
      cases r with
      | cancel id => exact .cancel s id
      | spawn program frame => exact .spawn s program frame
    exact hreact.trans (ih _)

theorem tell {handler : Option Handler} {e : ProgramError} {o : Option Fault}
    (h : Session.tell handler id e s = (o, s')) : s.Ages s' := by
  cases handler with
  | none =>
    cases h
    exact .of_threads_eq rfl fun _ hj ↦ hj
  | some handler =>
    cases h
    have hnoted : s.Ages (s.note (.reported id e)) := .of_threads_eq rfl fun _ hj ↦ hj
    exact hnoted.trans (.reactAll _ _)

section Turns

variable {t : Thread} {st : Step} {q : Queue}

theorem replace (ready : s.Ready id t st q) (v : Value) (q' : Queue) (n : Nat) (w : World) :
    s.Ages (s.replace id { t with current := v, queue := q', steps := n } w) :=
  .of_thread ready.thread
    (getElem?_threads_replace (Array.getElem?_eq_some_iff.mp ready.thread).1 _ w)
    (ready.ages (.inl rfl)) rfl

theorem fail (ready : s.Ready id t st q) (w : World) (e : ProgramError) :
    s.Ages ((s.replace id { t with queue := q } w).fail id e) := by
  have hlt : id < s.threads.size := (Array.getElem?_eq_some_iff.mp ready.thread).1
  have hages : t.Ages { t with queue := [], error := some e, isRetired := true } :=
    ready.ages (.inr ⟨rfl, rfl⟩)
  refine .of_thread ready.thread (fun j ↦ ?_) hages rfl
  rw [getElem?_threads_fail, getElem?_threads_replace hlt]
  split <;> rfl

theorem ended (ready : s.Ready id t st q) (v : Value) (n : Nat) (w : World) :
    s.Ages ((s.replace id { t with current := v, queue := [], steps := n } w).retire id) := by
  have hlt : id < s.threads.size := (Array.getElem?_eq_some_iff.mp ready.thread).1
  have hidle : (s.replace id { t with current := v, queue := [], steps := n } w).isIdle id
      = true := by
    rw [isIdle, getElem?_threads_replace hlt, if_pos rfl, Option.all_some]
    exact Bool.or_true _
  exact (replace ready v [] n w).trans (.retire hidle)

end Turns

/-! ### Visits -/

theorem next (h : s.visit sup budget p = .next p' s') : s.Ages s' := by
  cases visited_of_visit h with
  | idle _ _ hidle => exact .retire hidle
  | kept _ _ ready => exact .replace ready _ _ _ _
  | ended _ _ ready => exact .ended ready _ _ _
  | failed _ _ ready _ htell => exact (Ages.fail ready _ _).trans (.tell htell)

theorem finished {n : Nat} (horder : s.InOrder p) (h : s.visit sup budget p = .finished n s') :
    s.Ages s' := by
  have hkept : ∀ id ∈ p.kept.toList, id ∈ s.active.toList :=
    fun id hid ↦ List.mem_of_mem_take (horder.kept.subset hid)
  cases visited_of_visit h with
  | allVisited => exact .of_threads_eq rfl hkept
  | cut =>
    refine .of_threads_eq rfl fun id hid ↦ ?_
    rw [toList_cut, List.mem_append] at hid
    exact hid.elim (hkept id) List.mem_of_mem_drop

theorem broken {f : Fault} (h : s.visit sup budget p = .broken f s') : s.Ages s' := by
  cases visited_of_visit h with
  | raised _ _ ready _ htell => exact (Ages.fail ready _ _).trans (.tell htell)
  | brokenDown _ _ ready => exact .replace ready _ _ _ _
  | unlogged => exact .refl s

/-! ### Passes and runs -/

theorem passFrom (horder : s.InOrder p) (fuel : Nat) :
    s.Ages (passFrom sup budget fuel p s).2 ∧ (passFrom sup budget fuel p s).2.InOrder {} := by
  induction fuel generalizing p s with
  | zero => exact ⟨.refl s, horder.begin⟩
  | succ fuel ih =>
    cases hv : s.visit sup budget p with
    | next p₁ s₁ =>
      rw [passFrom_succ_of_next hv]
      obtain ⟨hages, horder'⟩ := ih (horder.next hv)
      exact ⟨(Ages.next hv).trans hages, horder'⟩
    | finished n s₁ =>
      rw [passFrom_succ_of_finished hv]
      exact ⟨.finished horder hv, horder.finished hv⟩
    | broken f s₁ =>
      rw [passFrom_succ_of_broken hv]
      exact ⟨.broken hv, horder.of_broken hv⟩

theorem pass (horder : s.InOrder {}) (fuel : Nat) : s.Ages (s.pass sup fuel budget).2 :=
  (Ages.passFrom horder fuel).1

theorem runFrom (horder : s.InOrder {}) (fuel executed : Nat) :
    s.Ages (runFrom sup budget fuel executed s).2 := by
  induction fuel generalizing executed s with
  | zero => exact .refl s
  | succ fuel ih =>
    cases hover : s.isOver budget executed with
    | true =>
      rw [runFrom_succ_of_isOver sup fuel hover]
      exact .refl s
    | false =>
      have hages : s.Ages (s.pass sup fuel (left budget executed)).2 := .pass horder fuel
      have horder' : (s.pass sup fuel (left budget executed)).2.InOrder {} := horder.pass fuel
      rcases hpass : s.pass sup fuel (left budget executed) with ⟨n | f | _, s₁⟩
      · rw [hpass] at hages horder'
        rw [runFrom_succ_of_done hover hpass]
        exact hages.trans (ih horder' (executed + n))
      · rw [hpass] at hages
        rwa [runFrom_succ_of_not_done hover hpass (by simp)]
      · rw [hpass] at hages
        rwa [runFrom_succ_of_not_done hover hpass (by simp)]

end Ages

/-! ## Retired threads -/

/-- Whoever is retired is at rest. -/
def RetiredAtRest (s : Session) : Prop :=
  ∀ (id : Nat) (t : Thread), s.threads[id]? = some t → t.isRetired = true → t.AtRest

theorem RetiredAtRest.ages (h : s.RetiredAtRest) (hs : s.Ages s') : s'.RetiredAtRest := by
  intro id t' ht' hretired
  cases ht : s.threads[id]? with
  | none => exact hs.new ht ht' hretired
  | some t =>
    obtain ⟨u, hu, hages⟩ := hs.old ht
    cases hu.symm.trans ht'
    rcases hages.atRest_of_retired hretired with hretired' | hrest
    · exact (h id t ht hretired').ages hages
    · exact hrest

theorem RetiredAtRest.stepThread (h : s.RetiredAtRest) (id : Nat) :
    (s.stepThread id).2.RetiredAtRest := by
  cases ht : s.threads[id]? with
  | none =>
    rw [Session.stepThread, ht]
    exact h
  | some t =>
    rw [stepThread_of_thread ht]
    intro j u hu hretired
    rw [getElem?_threads_replace (Array.getElem?_eq_some_iff.mp ht).1] at hu
    split at hu
    · cases hu
      rw [(t.life_of_step s.world).2.1] at hretired
      exact (h id t ht hretired).step s.world
    · exact h j u hu hretired

/-- **Retired threads are at rest** in every session that operations lead to. -/
theorem Arises.retiredAtRest (h : s.Arises) : s.RetiredAtRest := by
  induction h with
  | fresh w =>
    intro id t ht
    cases ht
  | world _ w ih => exact ih.ages (.of_threads_eq rfl fun _ hid ↦ hid)
  | spawn _ program frame ih => exact ih.ages (.spawn _ program frame)
  | cancel _ id ih => exact ih.ages (.cancel _ id)
  | step _ id ih => exact ih.stepThread id
  | pass hs sup fuel budget ih => exact ih.ages (.pass hs.inOrder fuel)
  | run hs sup fuel budget ih => exact ih.ages (.runFrom hs.inOrder fuel 0)

theorem retiredAtRest_preservedByVisits (sup : Supervision) :
    PreservedByVisits sup fun _ p s ↦ s.InOrder p ∧ s.RetiredAtRest where
  next := by
    rintro budget turns p p' s s' ⟨horder, hretired⟩ hvisit
    exact ⟨horder.next hvisit, hretired.ages (.next hvisit)⟩
  finished := by
    rintro budget turns p n s s' ⟨horder, hretired⟩ hvisit
    exact ⟨horder.finished hvisit, hretired.ages (.finished horder hvisit)⟩

/-! ## Those who take steps -/

/-- The thread whose step is taken in a visit, if there is one. A fault is counted as the fault of a
step, whether the step was taken or the log broke off before it. -/
def visitTakers (sup : Supervision) (budget : Option Int) (p : Progress) (s : Session) :
    List Nat :=
  match s.visit sup budget p with
  | .next p' _ => if p.executed < p'.executed then s.active[p.visited]?.toList else []
  | .finished .. => []
  | .broken .. => s.active[p.visited]?.toList

/-- The threads whose steps are taken from some point of a pass on. -/
def passTakers (sup : Supervision) (budget : Option Int) :
    (fuel : Nat) → Progress → Session → List Nat
  | 0, _, _ => []
  | fuel + 1, p, s =>
    s.visitTakers sup budget p ++
      match s.visit sup budget p with
      | .next p' s' => passTakers sup budget fuel p' s'
      | .finished .. | .broken .. => []

/-- The threads whose steps are taken by a run after `executed` steps. -/
def runTakersFrom (sup : Supervision) (budget : Option Int) :
    (fuel executed : Nat) → Session → List Nat
  | 0, _, _ => []
  | fuel + 1, executed, s =>
    if s.isOver budget executed then []
    else
      passTakers sup (left budget executed) fuel {} s ++
        match s.pass sup fuel (left budget executed) with
        | (.done n, s') => runTakersFrom sup budget fuel (executed + n) s'
        | _ => []

/-- The threads whose steps are taken by a run. -/
def runTakers (sup : Supervision) (fuel : Nat) (budget : Option Int) (s : Session) : List Nat :=
  runTakersFrom sup budget fuel 0 s

/-- Whoever takes a step when visited has one to take and was not cancelled. -/
theorem exists_ready_of_mem_visitTakers (h : id ∈ s.visitTakers sup budget p) :
    ∃ t st q, s.Ready id t st q := by
  have hvisited : ∀ {j : Nat}, s.active[p.visited]? = some j →
      id ∈ s.active[p.visited]?.toList → id = j := by
    intro j hj hid
    rw [hj] at hid
    exact List.mem_singleton.mp hid
  rw [visitTakers] at h
  cases hv : s.visit sup budget p with
  | next p' s' =>
    simp only [hv] at h
    split at h
    · next hexecuted =>
      cases visited_of_visit hv with
      | idle => exact absurd hexecuted (Nat.lt_irrefl _)
      | kept hid _ ready | ended hid _ ready | failed hid _ ready =>
        cases hvisited hid h
        exact ⟨_, _, _, ready⟩
    · cases h
  | finished n s' =>
    simp only [hv] at h
    cases h
  | broken f s' =>
    simp only [hv] at h
    cases visited_of_visit hv with
    | raised hid _ ready | brokenDown hid _ ready | unlogged hid _ ready =>
      cases hvisited hid h
      exact ⟨_, _, _, ready⟩

section Takers

variable {t : Thread}

theorem not_mem_visitTakers (ht : s.threads[id]? = some t) (hrest : t.AtRest) :
    id ∉ s.visitTakers sup budget p := by
  intro hid
  obtain ⟨u, st, q, ready⟩ := exists_ready_of_mem_visitTakers hid
  cases ready.thread.symm.trans ht
  exact ready.not_atRest hrest

theorem not_mem_passTakers (ht : s.threads[id]? = some t) (hrest : t.AtRest) (fuel : Nat) :
    id ∉ passTakers sup budget fuel p s := by
  induction fuel generalizing p s t with
  | zero => exact List.not_mem_nil
  | succ fuel ih =>
    rw [passTakers, List.mem_append, not_or]
    refine ⟨not_mem_visitTakers ht hrest, ?_⟩
    cases hv : s.visit sup budget p with
    | next p' s' =>
      obtain ⟨t', ht', hages⟩ := (Ages.next hv).old ht
      exact ih ht' (hrest.ages hages)
    | finished | broken => exact List.not_mem_nil

theorem not_mem_runTakersFrom (horder : s.InOrder {}) (ht : s.threads[id]? = some t)
    (hrest : t.AtRest) (fuel executed : Nat) : id ∉ runTakersFrom sup budget fuel executed s := by
  induction fuel generalizing executed s t with
  | zero => exact List.not_mem_nil
  | succ fuel ih =>
    rw [runTakersFrom]
    split
    · exact List.not_mem_nil
    · rw [List.mem_append, not_or]
      refine ⟨not_mem_passTakers ht hrest fuel, ?_⟩
      have hages : s.Ages (s.pass sup fuel (left budget executed)).2 := .pass horder fuel
      have horder' : (s.pass sup fuel (left budget executed)).2.InOrder {} := horder.pass fuel
      rcases hpass : s.pass sup fuel (left budget executed) with ⟨n | f | _, s₁⟩
      · rw [hpass] at hages horder'
        obtain ⟨t', ht', hages'⟩ := hages.old ht
        exact ih horder' ht' (hrest.ages hages') (executed + n)
      · exact List.not_mem_nil
      · exact List.not_mem_nil

end Takers

/-! ## Later on -/

/-- What a session leads to when a pass has come so far in it: the threads whose steps are taken,
and the session then. The pass goes on, for some visits or to its end, and then come operations.
They may come out in any way, also by a fault, after which others follow. The handler may be another
one each time, and the world may change in any way. -/
inductive Later (p : Progress) (s : Session) : List Nat → Session → Prop where
  | rest (sup : Supervision) (fuel : Nat) (budget : Option Int) :
    Later p s (passTakers sup budget fuel p s) (passFrom sup budget fuel p s).2
  | world {taken : List Nat} {s' : Session} (h : Later p s taken s') (w : World) :
    Later p s taken { s' with world := w }
  | spawn {taken : List Nat} {s' : Session} (h : Later p s taken s') (program : List Expr)
    (frame : FrameId) : Later p s taken (s'.spawn program frame)
  | cancel {taken : List Nat} {s' : Session} (h : Later p s taken s') (id : Nat) :
    Later p s taken (s'.cancel id)
  | pass {taken : List Nat} {s' : Session} (h : Later p s taken s') (sup : Supervision)
    (fuel : Nat) (budget : Option Int) :
    Later p s (taken ++ passTakers sup budget fuel {} s') (s'.pass sup fuel budget).2
  | run {taken : List Nat} {s' : Session} (h : Later p s taken s') (sup : Supervision)
    (fuel : Nat) (budget : Option Int) :
    Later p s (taken ++ runTakers sup fuel budget s') (s'.run sup fuel budget).2

theorem Later.ages (horder : s.InOrder p) {taken : List Nat} (h : s.Later p taken s') :
    s.Ages s' ∧ s'.InOrder {} := by
  induction h with
  | rest sup fuel budget => exact Ages.passFrom horder fuel
  | world _ w ih =>
    obtain ⟨hages, horder'⟩ := ih
    exact ⟨hages.trans (.of_threads_eq rfl fun _ hid ↦ hid), horder'.congr rfl rfl⟩
  | spawn _ program frame ih =>
    obtain ⟨hages, horder'⟩ := ih
    exact ⟨hages.trans (.spawn _ program frame), horder'.spawn program frame⟩
  | cancel _ id ih =>
    obtain ⟨hages, horder'⟩ := ih
    exact ⟨hages.trans (.cancel _ id), horder'.congr rfl Array.size_modify⟩
  | pass _ sup fuel budget ih =>
    obtain ⟨hages, horder'⟩ := ih
    exact ⟨hages.trans (.pass horder' fuel), horder'.pass fuel⟩
  | run _ sup fuel budget ih =>
    obtain ⟨hages, horder'⟩ := ih
    exact ⟨hages.trans (.runFrom horder' fuel 0), horder'.run fuel⟩

theorem Later.not_mem (horder : s.InOrder p) {taken : List Nat} (h : s.Later p taken s')
    {t : Thread} (ht : s.threads[id]? = some t) (hrest : t.AtRest) : id ∉ taken := by
  induction h with
  | rest sup fuel budget => exact not_mem_passTakers ht hrest fuel
  | world _ _ ih | spawn _ _ _ ih | cancel _ _ ih => exact ih
  | pass hlater sup fuel budget ih =>
    obtain ⟨t', ht', hages⟩ := (hlater.ages horder).1.old ht
    rw [List.mem_append, not_or]
    exact ⟨ih, not_mem_passTakers ht' (hrest.ages hages) fuel⟩
  | run hlater sup fuel budget ih =>
    obtain ⟨hsession, horder'⟩ := hlater.ages horder
    obtain ⟨t', ht', hages⟩ := hsession.old ht
    rw [List.mem_append, not_or]
    exact ⟨ih, not_mem_runTakersFrom horder' ht' (hrest.ages hages) fuel 0⟩

/-- **Retired and cancelled threads are frozen.** In every session that operations lead to, and at
every moment of a pass in it, a thread that was retired or cancelled is left alone from then on,
whatever follows and whoever is told of failures: no step of it is taken, its value, queue, error
and count of steps stay the same, its flags are not taken back, and if it is not on the list of
active threads it does not get there. -/
theorem stopped_threads_are_frozen {s₀ : Session} {turns : List Turn} {taken : List Nat}
    {t : Thread} (hs₀ : s₀.Arises) (hway : Underway sup s₀ turns p s)
    (ht : s.threads[id]? = some t) (hstopped : t.isRetired = true ∨ t.isCancelled = true)
    (h : s.Later p taken s') :
    id ∉ taken ∧ (id ∉ s.active.toList → id ∉ s'.active.toList) ∧
      ∃ t', s'.threads[id]? = some t' ∧ t.SameRun t' ∧
        (t.isRetired = true → t'.isRetired = true) ∧
        (t.isCancelled = true → t'.isCancelled = true) := by
  obtain ⟨horder, hretired⟩ := hway.preserves (retiredAtRest_preservedByVisits sup)
    ⟨hs₀.inOrder, hs₀.retiredAtRest⟩
  -- from here on it does not matter which of the two flags the thread has
  have hrest : t.AtRest := hstopped.elim (hretired id t ht) .inl
  obtain ⟨hsession, -⟩ := h.ages horder
  obtain ⟨t', ht', hages⟩ := hsession.old ht
  refine ⟨h.not_mem horder ht hrest, fun hid hid' ↦ ?_, t', ht', hages.sameRun hrest,
    hages.retired, hages.cancelled⟩
  rcases hsession.active id hid' with hid'' | hnone
  · exact hid hid''
  · cases hnone.symm.trans ht

/-- A handler that cancels a thread and raises a fault. -/
def interrupting : Supervision where
  handler := some fun _ _ _ ↦ { reactions := [.cancel 2], raises := some (.breakdown .tooDeep) }

/-- A thread that ends, one that fails and one that has more to do, after the pass in which the
first is retired, the second fails and the handler interrupts. All of them are still listed. -/
def interrupted : Session :=
  let start := ((fresh.spawn [.number 1] World.globalFrame).spawn [.reference "nowhere"]
    World.globalFrame).spawn [.compound [.reference "+", .number 1]] World.globalFrame
  (start.run interrupting 9 none).2

theorem stopped_threads_are_frozen_interrupted :
    interrupted.active = #[0, 1, 2] ∧ interrupted.threads[2]?.map Thread.isRetired = some false ∧
      ∀ id ∈ [0, 1, 2], id ∉ runTakers interrupting 9 none interrupted ∧
        ∃ t t', interrupted.threads[id]? = some t ∧
          (interrupted.run interrupting 9 none).2.threads[id]? = some t' ∧ t.SameRun t' := by
  have hs : interrupted.Arises :=
    ((((Arises.fresh World.fresh).spawn _ _).spawn _ _).spawn _ _).run _ _ _
  refine ⟨by decide +kernel, by decide +kernel, fun id hid ↦ ?_⟩
  have hstopped : ∀ id ∈ [0, 1, 2],
      interrupted.threads[id]?.map (fun t ↦ t.isRetired || t.isCancelled) = some true := by
    decide +kernel
  obtain ⟨t, ht, hflags⟩ := Option.map_eq_some_iff.mp (hstopped id hid)
  rw [Bool.or_eq_true] at hflags
  have hway : Underway interrupting interrupted [] {} interrupted := .start
  obtain ⟨htaken, -, t', ht', hsame, -⟩ := stopped_threads_are_frozen hs hway ht hflags
    (.run (.rest interrupting 0 none) interrupting 9 none)
  exact ⟨htaken, t, t', ht, ht', hsame⟩

end Session

end Interleave

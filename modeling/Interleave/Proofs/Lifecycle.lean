import Interleave.Proofs.Isolation
import Interleave.Session.Program

/-!
# The life of a thread

A thread is made active, stays so while it has steps to take, and is retired once. The lists that a
session keeps agree with that at every moment between operations, whatever the operations were:
threads may be made and cancelled from outside and told to take steps by hand, programs may be
evaluated on the side, and a handler may cancel and make threads in the middle of a pass.

## The invariant

`Session.Kept` says what the lists and the threads have to do with each other. In the middle of a
pass the list of active threads is out of date. Those that are still active then are the threads
kept so far and the ones yet to be visited, so the invariant takes that list as a parameter
(`Session.Ongoing`). Every visit takes one thread out of the second part and puts it into the first,
or retires it.

The sessions in question are all those that operations lead to as long as no fault comes out of a
pass (`Session.Reachable`). A fault leaves the list of active threads as it was, with threads on it
that are already retired, and these are retired once more when the next pass comes to them.
-/

namespace Interleave

/-! ## Threads and lists -/

namespace Session

def error? (s : Session) (id : Nat) : Option ProgramError :=
  s.threads[id]?.bind Thread.error

/-- What a session knows about its threads is in order, where the threads in `active` are those that
are still active. -/
structure Kept (active : List Nat) (s : Session) : Prop where
  /-- The number of a thread is its place in the order in which threads were made. -/
  numbered : ∀ {i : Nat} {t : Thread}, s.threads[i]? = some t → t.id = i
  /-- Every thread ever made is active or retired, not both, and once only. -/
  accounted : (active ++ s.retired.toList).Perm (List.range s.threads.size)
  /-- The active threads are in the order in which they were made. -/
  increasing : active.Pairwise (· < ·)
  /-- The threads marked as retired are those on the list. -/
  retired_iff : ∀ {i : Nat} {t : Thread}, s.threads[i]? = some t →
    (t.isRetired = true ↔ i ∈ s.retired.toList)
  /-- The failed threads are the retired ones that have an error, in the same order. -/
  failed : s.failed.toList = s.retired.toList.filter fun i ↦ (s.error? i).isSome
  /-- The handler was told of every failed thread once, in the order of failure. -/
  told : s.world.reports.map Prod.fst = s.failed.toList
  /-- What the handler was told is the error that the thread has. -/
  told_error : ∀ r ∈ s.world.reports, s.error? r.1 = some r.2
  /-- A retired thread that was not cancelled has nothing left to do. -/
  drained : ∀ {i : Nat} {t : Thread}, s.threads[i]? = some t → t.isRetired = true →
    t.isCancelled = false → t.queue = []
  /-- A thread that is not retired has no error. -/
  sound : ∀ {i : Nat} {t : Thread}, s.threads[i]? = some t → t.isRetired = false → t.error = none

/-- From one session to the other no thread was made, retired or failed. -/
structure SameLife (s s' : Session) : Prop where
  size : s'.threads.size = s.threads.size
  retired : s'.retired = s.retired
  failed : s'.failed = s.failed
  reports : s'.world.reports = s.world.reports
  thread : ∀ {i : Nat} {t' : Thread}, s'.threads[i]? = some t' → ∃ t, s.threads[i]? = some t ∧
    t'.id = t.id ∧ t'.isRetired = t.isRetired ∧ t'.error = t.error ∧
    (t.isRetired = true → (t.isCancelled = false → t.queue = []) →
      t'.isCancelled = false → t'.queue = [])

/-- From one session to the other a thread was retired, with an error or without one, and the
handler was told of the error. -/
structure Leaves (s : Session) (id : Nat) (t' : Thread) (s' : Session) : Prop where
  size : s'.threads.size = s.threads.size
  thread : s'.threads[id]? = some t'
  others : ∀ j, j ≠ id → s'.threads[j]? = s.threads[j]?
  retired : s'.retired = s.retired.push id
  failed : s'.failed.toList = s.failed.toList ++ (t'.error.map fun _ ↦ id).toList
  reports : s'.world.reports = s.world.reports ++ (t'.error.map (id, ·)).toList
  number : t'.id = id
  isRetired : t'.isRetired = true
  drained : t'.isCancelled = false → t'.queue = []

namespace Kept

variable {active before after : List Nat} {s s' : Session} {id : Nat} {t : Thread}

theorem mem_lt (h : s.Kept active) (hid : id ∈ active) : id < s.threads.size :=
  List.mem_range.mp (h.accounted.mem_iff.mp (List.mem_append_left _ hid))

theorem not_mem_retired (h : s.Kept active) (hid : id ∈ active) : id ∉ s.retired.toList := by
  have hnodup := h.accounted.nodup_iff.mpr List.nodup_range
  intro hretired
  exact (List.nodup_append.mp hnodup).2.2 id hid id hretired rfl

theorem mem_retired_of_mem_reports (h : s.Kept active) {r : Nat × ProgramError}
    (hr : r ∈ s.world.reports) : r.1 ∈ s.retired.toList := by
  have hfailed : r.1 ∈ s.failed.toList := h.told ▸ List.mem_map_of_mem hr
  rw [h.failed] at hfailed
  exact (List.mem_filter.mp hfailed).1

/-- An active thread is there, is not marked as retired and has no error. -/
theorem exists_thread (h : s.Kept active) (hid : id ∈ active) :
    ∃ t, s.threads[id]? = some t ∧ t.isRetired = false ∧ t.error = none := by
  obtain ⟨t, ht⟩ : ∃ t, s.threads[id]? = some t :=
    ⟨_, Array.getElem?_eq_getElem (h.mem_lt hid)⟩
  have hretired : t.isRetired = false := by
    rw [← Bool.not_eq_true, h.retired_iff ht]
    exact h.not_mem_retired hid
  exact ⟨t, ht, hretired, h.sound ht hretired⟩

theorem same (h : s.Kept active) (hs : s.SameLife s') : s'.Kept active := by
  -- whether a thread has an error can be asked of either session
  have herror : ∀ i, s'.error? i = s.error? i := by
    intro i
    rw [error?, error?]
    cases ht' : s'.threads[i]? with
    | none =>
      have hle : s.threads.size ≤ i := by
        rw [← hs.size]
        exact Array.getElem?_eq_none_iff.mp ht'
      rw [Array.getElem?_eq_none_iff.mpr hle]
    | some t' =>
      obtain ⟨t, ht, -, -, he, -⟩ := hs.thread ht'
      rw [ht, Option.bind_some, Option.bind_some, he]
  refine ⟨fun ht' ↦ ?_, ?_, h.increasing, fun ht' ↦ ?_, ?_, ?_, ?_, fun ht' hr hc ↦ ?_,
    fun ht' hr ↦ ?_⟩
  · obtain ⟨t, ht, hid, -⟩ := hs.thread ht'
    exact hid.trans (h.numbered ht)
  · rw [hs.size, hs.retired]
    exact h.accounted
  · obtain ⟨t, ht, -, hretired, -⟩ := hs.thread ht'
    rw [hretired, hs.retired]
    exact h.retired_iff ht
  · simp only [hs.failed, hs.retired, herror]
    exact h.failed
  · rw [hs.reports, hs.failed]
    exact h.told
  · simp only [hs.reports, herror]
    exact h.told_error
  · obtain ⟨t, ht, -, hretired, -, hdrained⟩ := hs.thread ht'
    rw [hretired] at hr
    exact hdrained hr (h.drained ht hr) hc
  · obtain ⟨t, ht, -, hretired, he, -⟩ := hs.thread ht'
    rw [he]
    exact h.sound ht (hretired ▸ hr)

/-- Taking a thread from the active ones to the retired ones loses nothing. -/
theorem accounted_push (h : s.Kept (before ++ id :: after)) :
    (before ++ after ++ (s.retired.push id).toList).Perm (List.range s.threads.size) := by
  refine List.Perm.trans ?_ h.accounted
  rw [Array.toList_push, ← List.append_assoc, List.append_assoc before, List.append_assoc before,
    List.append_assoc before]
  refine List.Perm.append_left before ?_
  rw [List.cons_append]
  exact List.perm_append_singleton id (after ++ s.retired.toList)

theorem increasing_remove (h : s.Kept (before ++ id :: after)) :
    (before ++ after).Pairwise (· < ·) :=
  h.increasing.sublist (List.Sublist.append_left (List.sublist_cons_self id after) before)

theorem leave {t' : Thread} (h : s.Kept (before ++ id :: after)) (hs : s.Leaves id t' s') :
    s'.Kept (before ++ after) := by
  have hid : id ∉ s.retired.toList :=
    h.not_mem_retired (List.mem_append_right _ List.mem_cons_self)
  have herror : ∀ i, i ≠ id → s'.error? i = s.error? i := by
    intro i hi
    rw [error?, error?, hs.others i hi]
  have hself : s'.error? id = t'.error := by rw [error?, hs.thread, Option.bind_some]
  have hthread : ∀ {i : Nat} {u : Thread}, s'.threads[i]? = some u →
      i = id ∧ u = t' ∨ i ≠ id ∧ s.threads[i]? = some u := by
    intro i u hu
    by_cases hi : i = id
    · subst hi
      rw [hs.thread, Option.some.injEq] at hu
      exact .inl ⟨rfl, hu.symm⟩
    · exact .inr ⟨hi, hs.others i hi ▸ hu⟩
  refine ⟨fun hu ↦ ?_, ?_, h.increasing_remove, fun {i u} hu ↦ ?_, ?_, ?_, fun r hr ↦ ?_,
    fun hu hr hc ↦ ?_, fun hu hr ↦ ?_⟩
  · rcases hthread hu with ⟨rfl, rfl⟩ | ⟨-, hu⟩
    · exact hs.number
    · exact h.numbered hu
  · rw [hs.size, hs.retired]
    exact h.accounted_push
  · rw [hs.retired, Array.toList_push, List.mem_append, List.mem_singleton]
    rcases hthread hu with ⟨rfl, rfl⟩ | ⟨hi, hu⟩
    · exact iff_of_true hs.isRetired (.inr rfl)
    · rw [h.retired_iff hu]
      exact ⟨.inl, fun hor ↦ hor.resolve_right hi⟩
  · -- those retired before are others than this one, and have kept their errors
    have hfilter : s.retired.toList.filter (fun i ↦ (s'.error? i).isSome) = s.failed.toList := by
      rw [h.failed]
      refine List.filter_congr fun i hi ↦ ?_
      rw [herror i fun heq ↦ hid (heq ▸ hi)]
    rw [hs.failed, hs.retired, Array.toList_push, List.filter_append, hfilter,
      List.filter_cons, hself, List.filter_nil]
    cases t'.error <;> rfl
  · rw [hs.reports, hs.failed, List.map_append, h.told]
    cases t'.error <;> rfl
  · rw [hs.reports] at hr
    rcases List.mem_append.mp hr with hr | hr
    · rw [herror r.1 fun heq ↦ hid (heq ▸ h.mem_retired_of_mem_reports hr)]
      exact h.told_error r hr
    · obtain ⟨e, he, rfl⟩ := Option.map_eq_some_iff.mp (Option.mem_toList.mp hr)
      exact hself.trans he
  · rcases hthread hu with ⟨rfl, rfl⟩ | ⟨-, hu⟩
    · exact hs.drained hc
    · exact h.drained hu hr hc
  · rcases hthread hu with ⟨rfl, rfl⟩ | ⟨-, hu⟩
    · rw [hs.isRetired] at hr
      cases hr
    · exact h.sound hu hr

/-- A thread without error that has nothing left to do, or was cancelled, can be retired. -/
theorem retire (h : s.Kept (before ++ id :: after)) (ht : s.threads[id]? = some t)
    (hdone : t.isCancelled = false → t.queue = []) : (s.retire id).Kept (before ++ after) := by
  have hmem : id ∈ before ++ id :: after := List.mem_append_right _ List.mem_cons_self
  obtain ⟨u, hu, -, herror⟩ := h.exists_thread hmem
  cases ht.symm.trans hu
  have hnumber : t.id = id := h.numbered ht
  suffices hs : s.Leaves id { t with isRetired := true } (s.retire id) from h.leave hs
  refine ⟨Array.size_modify, ?_, fun j hj ↦ ?_, rfl, ?_, ?_, hnumber, rfl, hdone⟩
  · rw [getElem?_threads_retire, if_pos rfl, ht, Option.map_some]
  · rw [getElem?_threads_retire, if_neg (Ne.symm hj)]
  · rw [herror]
    exact (List.append_nil _).symm
  · rw [herror, reports_retire]
    exact (List.append_nil _).symm

theorem fail {e : ProgramError} (h : s.Kept (before ++ id :: after)) (ht : s.threads[id]? = some t)
    (hs : s.FailsAlone id e s') : s'.Kept (before ++ after) := by
  have hnumber : t.id = id := h.numbered ht
  suffices hl : s.Leaves id { t with queue := [], error := some e, isRetired := true } s' from
    h.leave hl
  refine ⟨hs.size, ?_, hs.others, hs.retired, ?_, hs.reports, hnumber, rfl, fun _ ↦ rfl⟩
  · rw [hs.thread, ht, Option.map_some]
  · rw [hs.failed, Array.toList_push]
    rfl

theorem spawn (h : s.Kept active) (program : List Expr) (frame : FrameId) :
    (s.spawn program frame).Kept (active ++ [s.threads.size]) := by
  have hretired : ∀ {i : Nat}, i ∈ s.retired.toList → i < s.threads.size := fun hi ↦
    List.mem_range.mp (h.accounted.mem_iff.mp (List.mem_append_right _ hi))
  -- a thread is the new one, or was there before
  have hthread : ∀ {i : Nat} {u : Thread}, (s.spawn program frame).threads[i]? = some u →
      i = s.threads.size ∧ u = { id := s.threads.size, queue := Queue.ofProgram program frame } ∨
        i ≠ s.threads.size ∧ s.threads[i]? = some u := by
    intro i u hu
    rw [Session.spawn, Array.getElem?_push] at hu
    by_cases hi : i = s.threads.size
    · rw [if_pos hi, Option.some.injEq] at hu
      exact .inl ⟨hi, hu.symm⟩
    · rw [if_neg hi] at hu
      exact .inr ⟨hi, hu⟩
  have herror : ∀ {i : Nat}, i < s.threads.size →
      (s.spawn program frame).error? i = s.error? i := by
    intro i hi
    rw [error?, error?, Session.spawn, Array.getElem?_push, if_neg (Nat.ne_of_lt hi)]
  have hreports : (s.spawn program frame).world.reports = s.world.reports :=
    (World.reports_note _ _).trans (List.append_nil _)
  refine ⟨fun hu ↦ ?_, ?_, ?_, fun hu ↦ ?_, ?_, ?_, fun r hr ↦ ?_, fun hu hr hc ↦ ?_,
    fun hu hr ↦ ?_⟩
  · rcases hthread hu with ⟨rfl, rfl⟩ | ⟨-, hu⟩
    · rfl
    · exact h.numbered hu
  · rw [Session.spawn, Array.size_push, List.range_succ, List.append_assoc]
    refine List.Perm.trans ?_ (List.Perm.append_right _ h.accounted)
    rw [List.append_assoc]
    exact List.Perm.append_left _ List.perm_append_comm
  · refine List.pairwise_append.mpr ⟨h.increasing, List.pairwise_singleton _ _, ?_⟩
    intro i hi j hj
    rw [List.mem_singleton.mp hj]
    exact h.mem_lt hi
  · rcases hthread hu with ⟨rfl, rfl⟩ | ⟨-, hu⟩
    · exact iff_of_false Bool.false_ne_true fun hmem ↦ Nat.lt_irrefl _ (hretired hmem)
    · exact h.retired_iff hu
  · refine h.failed.trans (List.filter_congr fun i hi ↦ ?_)
    rw [herror (hretired hi)]
  · rw [hreports]
    exact h.told
  · rw [hreports] at hr
    rw [herror (hretired (h.mem_retired_of_mem_reports hr))]
    exact h.told_error r hr
  · rcases hthread hu with ⟨rfl, rfl⟩ | ⟨-, hu⟩
    · cases hr
    · exact h.drained hu hr hc
  · rcases hthread hu with ⟨rfl, rfl⟩ | ⟨-, hu⟩
    · rfl
    · exact h.sound hu hr

end Kept

/-! ## Changes that retire nobody -/

namespace SameLife

variable {s : Session} {id : Nat} {t t' : Thread} {w : World}

theorem refl (s : Session) : s.SameLife s :=
  ⟨rfl, rfl, rfl, rfl, fun ht ↦ ⟨_, ht, rfl, rfl, rfl, fun _ hdone ↦ hdone⟩⟩

theorem withWorld (hw : w.reports = s.world.reports) : s.SameLife { s with world := w } :=
  ⟨rfl, rfl, rfl, hw, fun ht ↦ ⟨_, ht, rfl, rfl, rfl, fun _ hdone ↦ hdone⟩⟩

theorem withActive (s : Session) (active : Array Nat) : s.SameLife { s with active } :=
  ⟨rfl, rfl, rfl, rfl, fun ht ↦ ⟨_, ht, rfl, rfl, rfl, fun _ hdone ↦ hdone⟩⟩

theorem cancel (s : Session) (id : Nat) : s.SameLife (s.cancel id) := by
  refine ⟨Array.size_modify, rfl, rfl, rfl, fun {i u} hu ↦ ?_⟩
  rw [Session.cancel, Array.getElem?_modify] at hu
  by_cases hi : id = i
  · rw [if_pos hi] at hu
    obtain ⟨t, ht, rfl⟩ := Option.map_eq_some_iff.mp hu
    refine ⟨t, ht, rfl, rfl, rfl, fun _ _ hcancelled ↦ ?_⟩
    cases hcancelled
  · rw [if_neg hi] at hu
    exact ⟨u, hu, rfl, rfl, rfl, fun _ hdone ↦ hdone⟩

theorem replace (ht : s.threads[id]? = some t) (hid : t'.id = t.id)
    (hretired : t'.isRetired = t.isRetired) (herror : t'.error = t.error)
    (hdone : t.isRetired = true → (t.isCancelled = false → t.queue = []) →
      t'.isCancelled = false → t'.queue = [])
    (hw : w.reports = s.world.reports) : s.SameLife (s.replace id t' w) := by
  have hlt : id < s.threads.size := (Array.getElem?_eq_some_iff.mp ht).1
  refine ⟨Array.size_setIfInBounds, rfl, rfl, hw, fun {i u} hu ↦ ?_⟩
  rw [getElem?_threads_replace hlt] at hu
  by_cases hi : id = i
  · subst hi
    rw [if_pos rfl, Option.some.injEq] at hu
    subst hu
    exact ⟨t, ht, hid, hretired, herror, hdone⟩
  · rw [if_neg hi] at hu
    exact ⟨u, hu, rfl, rfl, rfl, fun _ hdone ↦ hdone⟩

/-- A step taken by hand changes the thread, and nothing about its life. -/
theorem stepThread (s : Session) (id : Nat) : s.SameLife (s.stepThread id).2 := by
  rw [Session.stepThread]
  cases ht : s.threads[id]? with
  | none => exact .refl s
  | some t =>
    dsimp only
    rw [Thread.step]
    cases hq : t.queue with
    | nil => exact .replace ht rfl rfl rfl (fun _ hdone ↦ hdone) rfl
    | cons st q =>
      -- a retired thread that still has steps was cancelled, and may be left with any
      have hdone : ∀ {q' : Queue}, t.isRetired = true → (t.isCancelled = false → t.queue = []) →
          t.isCancelled = false → q' = [] := by
        intro q' _ hdone hcancelled
        rw [hdone hcancelled] at hq
        cases hq
      rcases hstep : Machine.step st t.current q s.world with ⟨f | ⟨v, q'⟩, w⟩
      · simp only [hstep]
        exact .replace ht rfl rfl rfl hdone (Machine.step_reports hstep)
      · simp only [hstep]
        exact .replace ht rfl rfl rfl hdone (Machine.step_reports hstep)

end SameLife

/-! ## Visits -/

/-- In the middle of a pass: active are the threads kept so far and those not yet visited. -/
structure Ongoing (p : Progress) (s : Session) : Prop where
  visited_le : p.visited ≤ s.active.size
  kept : s.Kept (p.kept.toList ++ s.active.toList.drop p.visited)

theorem ongoing_begin {s : Session} : s.Ongoing {} ↔ s.Kept s.active.toList :=
  ⟨fun h ↦ h.kept, fun h ↦ ⟨Nat.zero_le _, h⟩⟩

namespace Ongoing

variable {p : Progress} {s s' : Session} {id : Nat}

theorem react (h : s.Ongoing p) (r : Reaction) : (s.react r).Ongoing p := by
  cases r with
  | cancel id => exact ⟨h.visited_le, h.kept.same (.cancel s id)⟩
  | spawn program frame =>
    have hle : p.visited ≤ s.active.toList.length := h.visited_le
    refine ⟨?_, ?_⟩
    · change p.visited ≤ (s.active.push _).size
      rw [Array.size_push]
      exact Nat.le_succ_of_le h.visited_le
    · change (s.spawn program frame).Kept (_ ++ (s.active.push _).toList.drop _)
      rw [Array.toList_push, List.drop_append_of_le_length hle, ← List.append_assoc]
      exact h.kept.spawn program frame

theorem reactAll (h : s.Ongoing p) (rs : List Reaction) :
    (rs.foldl Session.react s).Ongoing p := by
  induction rs generalizing s with
  | nil => exact h
  | cons r rs ih => exact ih (h.react r)

theorem kept_cons (h : s.Ongoing p) (hid : s.active[p.visited]? = some id) :
    p.visited + 1 ≤ s.active.size ∧
      s.Kept (p.kept.toList ++ id :: s.active.toList.drop (p.visited + 1)) := by
  have hlt := (Array.getElem?_eq_some_iff.mp hid).1
  exact ⟨hlt, drop_visited hid ▸ h.kept⟩

end Ongoing

/-- A visited thread that took a step is still active, until somebody retires it. -/
theorem Kept.step {active : List Nat} {s : Session} {id : Nat} {t : Thread} {st : Step}
    {q q' : Queue} {v : Value} {w : World} {sup : Supervision} (h : s.Kept active)
    (hid : id ∈ active) (ready : s.Ready id t st q)
    (hstep : Machine.step st t.current q (sup.turnWorld id st s.world) = (.ok (v, q'), w)) :
    (s.replace id { t with current := v, queue := q', steps := t.steps + 1 } w).Kept active := by
  obtain ⟨u, hu, hretired, -⟩ := h.exists_thread hid
  cases ready.thread.symm.trans hu
  refine h.same (.replace ready.thread rfl rfl rfl (fun hr ↦ ?_) ?_)
  · rw [hretired] at hr
    cases hr
  · rw [Machine.step_reports hstep, Supervision.reports_turnWorld]

theorem ongoing_preservedByVisits (log : Option Log) (handler : Handler) :
    PreservedByVisits ⟨log, some handler⟩ fun _ p s ↦ s.Ongoing p := by
  refine ⟨?_, ?_⟩
  · intro budget turns p p' s s' h hvisit
    have hcases := visited_of_visit hvisit
    have hmem : ∀ {id : Nat} {before after : List Nat}, id ∈ before ++ id :: after :=
      List.mem_append_right _ List.mem_cons_self
    cases hcases with
    | @idle id hid hbudget hidle =>
      obtain ⟨hle, hkept⟩ := h.kept_cons hid
      obtain ⟨t, ht, -⟩ := hkept.exists_thread hmem
      refine ⟨hle, hkept.retire ht fun hcancelled ↦ ?_⟩
      rw [isIdle, ht, Option.all_some, hcancelled, Bool.false_or] at hidle
      exact List.isEmpty_iff.mp hidle
    | @kept id t st q q' v w hid hbudget ready hstep hq =>
      obtain ⟨hle, hkept⟩ := h.kept_cons hid
      refine ⟨hle, ?_⟩
      rw [Progress.keep, Array.toList_push, List.append_assoc]
      exact hkept.step hmem ready hstep
    | @ended id t st q v w hid hbudget ready hstep =>
      obtain ⟨hle, hkept⟩ := h.kept_cons hid
      have hid' : id < s.threads.size := (Array.getElem?_eq_some_iff.mp ready.thread).1
      have hthread := (getElem?_threads_replace hid'
        { t with current := v, queue := [], steps := t.steps + 1 } w id).trans (if_pos rfl)
      exact ⟨hle, (hkept.step hmem ready hstep).retire hthread fun _ ↦ rfl⟩
    | @failed id t st q e w _ hid hbudget ready hstep htell =>
      obtain ⟨hle, hkept⟩ := h.kept_cons hid
      have hfails := failsAlone_of_step ready hstep
      -- first the failure is put on record, and then the handler does what it does
      have htold : Ongoing p.drop
          (((s.replace id { t with queue := q } w).fail id e).note (.reported id e)) :=
        ⟨hle, hkept.fail ready.thread hfails⟩
      rw [tell, Prod.mk.injEq] at htell
      rw [← htell.2]
      exact htold.reactAll _
  · intro budget turns p n s s' h hvisit
    have hcases := visited_of_visit hvisit
    rw [ongoing_begin]
    cases hcases with
    | allVisited hid =>
      -- nobody is left to be visited, so those kept are all that are active
      have hle : s.active.toList.length ≤ p.visited := Array.getElem?_eq_none_iff.mp hid
      have hkept := h.kept
      rw [List.drop_eq_nil_of_le hle, List.append_nil] at hkept
      exact hkept.same (.withActive s p.kept)
    | cut hid hbudget =>
      rw [toList_cut]
      exact h.kept.same (.withActive s _)

end Session

/-! ## Evaluation on the side -/

theorem Machine.reports_run {log : Option Log} {fuel : Nat} {v : Value} {q : Queue} {w w' : World}
    {o : Outcome Value} (h : Machine.run log fuel v q w = (o, w')) :
    w'.reports = w.reports := by
  induction fuel generalizing v q w with
  | zero =>
    cases q with
    | nil => cases h; rfl
    | cons st q => cases h; rfl
  | succ fuel ih =>
    cases q with
    | nil => cases h; rfl
    | cons st q =>
      rw [Machine.run] at h
      split at h
      · rename_i htake
        rw [ih h, takeStep_reports htake]
      · rename_i htake
        cases h
        exact takeStep_reports htake

namespace Session

theorem sameLife_eval (log : Option Log) (fuel : Nat) (source : String) (s : Session) :
    s.SameLife (s.eval log fuel source).2 := by
  rw [eval]
  cases parse source with
  | error f => exact .refl s
  | ok program =>
    exact .withWorld (Machine.reports_run (Prod.eta (Machine.evaluate log fuel program
      World.globalFrame s.world)).symm)

/-! ## All sessions -/

/-- The sessions that operations lead to, as long as no fault comes out of a pass or run. The
handler may cancel and make threads, and need not be the same for all passes and runs. -/
inductive Reachable : Session → Prop where
  | fresh : Reachable Session.fresh
  | spawn {s : Session} (h : Reachable s) (program : List Expr) (frame : FrameId) :
    Reachable (s.spawn program frame)
  | cancel {s : Session} (h : Reachable s) (id : Nat) : Reachable (s.cancel id)
  | step {s : Session} (h : Reachable s) (id : Nat) : Reachable (s.stepThread id).2
  | eval {s : Session} (h : Reachable s) (log : Option Log) (fuel : Nat) (source : String) :
    Reachable (s.eval log fuel source).2
  | newFrame {s : Session} (h : Reachable s) (outer : Option FrameId) (bindings : Bindings) :
    Reachable { s with world := (s.world.newFrame outer bindings).2 }
  | pass {s s' : Session} {n : Nat} (h : Reachable s) (log : Option Log) (handler : Handler)
    (fuel : Nat) (budget : Option Int)
    (hpass : s.pass ⟨log, some handler⟩ fuel budget = (.done n, s')) : Reachable s'
  | run {s s' : Session} {n : Nat} (h : Reachable s) (log : Option Log) (handler : Handler)
    (fuel : Nat) (budget : Option Int)
    (hrun : s.run ⟨log, some handler⟩ fuel budget = (.done n, s')) : Reachable s'

/-- **The life of a thread.** Every thread ever made is active or retired, and once only; their
numbers count them in the order in which they were made, and the active ones are in that order. A
thread is marked as retired if and only if it is on the list of retired threads, and then has
nothing left to do unless it was cancelled. The failed threads are the retired ones with an error,
in the order of retirement, and the handler was told of each of them once, in that order. -/
theorem threads_kept_in_order {s : Session} (h : s.Reachable) : s.Kept s.active.toList := by
  induction h with
  | fresh =>
    refine ⟨fun ht ↦ ?_, .nil, .nil, fun ht ↦ ?_, rfl, rfl, fun r hr ↦ ?_, fun ht ↦ ?_, fun ht ↦ ?_⟩
    · cases ht
    · cases ht
    · cases hr
    · cases ht
    · cases ht
  | spawn _ program frame ih =>
    change Kept (Array.toList (Array.push _ _)) _
    rw [Array.toList_push]
    exact ih.spawn program frame
  | cancel _ id ih => exact ih.same (.cancel _ id)
  -- what is done by hand or on the side leaves the list of active threads as it is
  | @step s _ id ih =>
    have hactive : (s.stepThread id).2.active = s.active := by
      rw [stepThread]
      split <;> rfl
    rw [hactive]
    exact ih.same (.stepThread s id)
  | @eval s _ log fuel source ih =>
    have hactive : (s.eval log fuel source).2.active = s.active := by
      rw [Session.eval]
      split <;> rfl
    rw [hactive]
    exact ih.same (sameLife_eval log fuel source s)
  | newFrame _ outer bindings ih => exact ih.same (.withWorld rfl)
  | pass _ log handler fuel budget hpass ih =>
    obtain ⟨p, hp, hend⟩ := passFrom_preserves (ongoing_preservedByVisits log handler) []
      (ongoing_begin.mpr ih) hpass (by simp)
    cases hend (by simp)
    exact ongoing_begin.mp hp
  | run _ log handler fuel budget hrun ih =>
    obtain ⟨p, hp, hend⟩ := runFrom_preserves (ongoing_preservedByVisits log handler) []
      (ongoing_begin.mpr ih) hrun (by simp)
    cases hend (by simp)
    exact ongoing_begin.mp hp

/-- Three threads, of which the first fails in the second pass. The handler then cancels the second
thread and makes a fourth, and the budget is used up before the same pass comes to that one. -/
def fourThreads : Outcome Nat × Session :=
  (((fresh.spawn [.reference "x"] 0).spawn [.number 1] 0).spawn [.number 2] 0).run
    ⟨none, some fun _ _ _ ↦ { reactions := [.cancel 1, .spawn [.number 3] 0] }⟩ 9 (some 5)

theorem threads_kept_in_order_fourThreads :
    fourThreads.2.Kept [3] ∧ fourThreads.2.retired = #[0, 1, 2] ∧ fourThreads.2.failed = #[0] := by
  have hdone : fourThreads.1 = .done 5 := by decide +kernel
  have hreachable : fourThreads.2.Reachable :=
    (((Reachable.fresh.spawn [.reference "x"] 0).spawn [.number 1] 0).spawn [.number 2] 0).run none
      (fun _ _ _ ↦ { reactions := [.cancel 1, .spawn [.number 3] 0] }) 9 (some 5)
      (Prod.ext hdone rfl)
  have hactive : fourThreads.2.active.toList = [3] := by decide +kernel
  have hkept := threads_kept_in_order hreachable
  rw [hactive] at hkept
  exact ⟨hkept, by decide +kernel, by decide +kernel⟩

end Session

end Interleave

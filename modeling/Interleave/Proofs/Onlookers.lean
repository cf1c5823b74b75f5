import Interleave.Proofs.Completion
import Interleave.Proofs.Composition

/-!
# Runs that are looked on

Those who watch over a session without interfering leave their marks in its journal and nowhere
else. Whether steps are traced and who is told of failures makes no difference to the steps, the
threads and what is printed: runs that start alike come out alike (`Session.Alike.runFrom`), unless
the log of one of them breaks off.

## Who counts as an onlooker

An onlooker is whoever is told of failures and does nothing about them, and a log. The first leaves
a note. A log that takes a step leaves a note as well, and one that breaks off ends the run, so this
is the one way in which looking on makes a difference. It is a matter of the log alone: where a run
is broken off, there is a step at which its log says so (`Supervision.Refuses`).

## The proof

Two sessions are alike if they differ in the journals of their worlds at most. No step reads the
journal, so alike sessions make alike visits, one by one. Passes and runs follow by induction on the
fuel. The runs that are compared have the same budget and different onlookers, and one of the two
logs takes every step, so that it is clear which of them breaks off.
-/

namespace Interleave

/-- There is a step at which the log breaks off in this way. -/
def Supervision.Refuses (sup : Supervision) (b : Breakdown) : Prop :=
  ∃ st, sup.refusal? st = some b

/-- Two sessions differ in the journals of their worlds at most. -/
structure Session.Alike (s s' : Session) : Prop where
  world : s.world.Alike s'.world
  threads : s.threads = s'.threads
  active : s.active = s'.active
  retired : s.retired = s'.retired
  failed : s.failed = s'.failed

/-- Two visits differ in the journals that they leave at most. -/
inductive Visit.Alike : Visit → Visit → Prop where
  | next (p : Progress) {s s' : Session} (h : s.Alike s') : Alike (.next p s) (.next p s')
  | finished (n : Nat) {s s' : Session} (h : s.Alike s') : Alike (.finished n s) (.finished n s')
  | broken (f : Fault) {s s' : Session} (h : s.Alike s') : Alike (.broken f s) (.broken f s')

theorem Machine.step_alike (st : Step) (v : Value) (q : Queue) {w w' : World} (h : w.Alike w') :
    (step st v q w).1 = (step st v q w').1 ∧ (step st v q w).2.Alike (step st v q w').2 := by
  have hstep : withoutNotes (step st v q w) = withoutNotes (step st v q w') := by
    rw [← step_withoutJournal, ← step_withoutJournal st v q w', h]
  exact Prod.ext_iff.1 hstep

namespace Session.Alike

variable {sup sup' : Supervision} {budget : Option Int} {p : Progress} {s s' : Session} {id : Nat}

theorem refl (s : Session) : s.Alike s := ⟨rfl, rfl, rfl, rfl, rfl⟩

theorem withActive (h : s.Alike s') (active : Array Nat) :
    Session.Alike { s with active } { s' with active } :=
  ⟨h.world, h.threads, rfl, h.retired, h.failed⟩

theorem note (h : s.Alike s') (n n' : Note) : (s.note n).Alike (s'.note n') :=
  ⟨h.world, h.threads, h.active, h.retired, h.failed⟩

theorem replace (h : s.Alike s') (id : Nat) (t : Thread) {w w' : World} (hw : w.Alike w') :
    (s.replace id t w).Alike (s'.replace id t w') :=
  ⟨hw, congrArg (·.setIfInBounds id t) h.threads, h.active, h.retired, h.failed⟩

theorem retire (h : s.Alike s') (id : Nat) : (s.retire id).Alike (s'.retire id) where
  world := h.world
  threads := by simp only [Session.retire, h.threads]
  active := h.active
  retired := by simp only [Session.retire, h.retired]
  failed := h.failed

theorem fail (h : s.Alike s') (id : Nat) (e : ProgramError) :
    (s.fail id e).Alike (s'.fail id e) where
  world := h.world
  threads := by simp only [Session.fail, Session.retire, h.threads]
  active := h.active
  retired := by simp only [Session.fail, Session.retire, h.retired]
  failed := by simp only [Session.fail, Session.retire, h.failed]

theorem tell (hsup : sup.IsPassive) (hsup' : sup'.IsPassive) (h : s.Alike s') (id : Nat)
    (e : ProgramError) :
    ∃ s₁ s₁', s.tell sup.handler id e = (none, s₁) ∧ s'.tell sup'.handler id e = (none, s₁') ∧
      s₁.Alike s₁' := by
  rcases htell : s.tell sup.handler id e with ⟨o, s₁⟩
  rcases htell' : s'.tell sup'.handler id e with ⟨o', s₁'⟩
  obtain ⟨rfl, n, rfl⟩ := tell_of_isPassive hsup htell
  obtain ⟨rfl, n', rfl⟩ := tell_of_isPassive hsup' htell'
  exact ⟨_, _, rfl, rfl, h.note n n'⟩

theorem isIdle (h : s.Alike s') (id : Nat) : s'.isIdle id = s.isIdle id := by
  rw [Session.isIdle, Session.isIdle, h.threads]

theorem turnWorld (h : s.Alike s') (sup sup' : Supervision) (id : Nat) (st : Step) :
    (sup.turnWorld id st s.world).Alike (sup'.turnWorld id st s'.world) := by
  obtain ⟨journal, hw⟩ := sup.turnWorld_eq id st s.world
  obtain ⟨journal', hw'⟩ := sup'.turnWorld_eq id st s'.world
  rw [hw, hw']
  exact h.world

theorem turn (hsup : sup.IsPassive) (hsup' : sup'.IsPassive) (hlenient : sup'.IsLenient)
    (h : s.Alike s') (hid : s.active[p.visited]? = some id)
    (hbudget : budget.any (· ≤ (p.executed : Int)) = false) (hidle : s.isIdle id = false) :
    (s.visit sup budget p).Alike (s'.visit sup' budget p) ∨
      ∃ b, sup.Refuses b ∧ s.visit sup budget p = .broken (.breakdown b) s := by
  obtain ⟨t, st, q, ready⟩ := exists_ready_of_not_isIdle hidle
  have ready' : s'.Ready id t st q := ⟨h.threads ▸ ready.thread, ready.notCancelled, ready.queue⟩
  cases hlog : sup.refusal? st with
  | some b => exact .inr ⟨b, ⟨st, hlog⟩, visit_of_refusal hid hbudget ready hlog⟩
  | none =>
    refine .inl ?_
    rw [visit_of_ready hid hbudget ready hlog,
      visit_of_ready (h.active ▸ hid) hbudget ready' (hlenient st)]
    obtain ⟨hr, hw⟩ := Machine.step_alike st t.current q (h.turnWorld sup sup' id st)
    rcases hstep : Machine.step st t.current q (sup.turnWorld id st s.world) with ⟨r, w⟩
    rcases hstep' : Machine.step st t.current q (sup'.turnWorld id st s'.world) with ⟨r', w'⟩
    rw [hstep, hstep'] at hr hw
    dsimp only at hr hw
    subst hr
    rcases r with (e | b) | ⟨v, _ | ⟨st', q'⟩⟩
    · have hfail := (h.replace id { t with queue := q } hw).fail id e
      obtain ⟨s₁, s₁', htell, htell', h₁⟩ := hfail.tell hsup hsup' id e
      simp only [htell, htell']
      exact .next _ h₁
    · exact .broken _ (h.replace id _ hw)
    · exact .next _ ((h.replace id _ hw).retire id)
    · exact .next _ (h.replace id _ hw)

theorem visit (hsup : sup.IsPassive) (hsup' : sup'.IsPassive) (hlenient : sup'.IsLenient)
    (h : s.Alike s') :
    (s.visit sup budget p).Alike (s'.visit sup' budget p) ∨
      ∃ b, sup.Refuses b ∧ s.visit sup budget p = .broken (.breakdown b) s := by
  cases hid : s.active[p.visited]? with
  | none =>
    rw [Session.visit, Session.visit, ← h.active, hid]
    exact .inl (.finished _ (h.withActive p.kept))
  | some id =>
    cases hbudget : budget.any (· ≤ (p.executed : Int)) with
    | true =>
      rw [Session.visit, Session.visit, ← h.active, hid]
      simp only [hbudget, if_true]
      exact .inl (.finished _ (h.withActive _))
    | false =>
      cases hidle : s.isIdle id with
      | true =>
        rw [Session.visit, Session.visit, ← h.active, hid]
        simp only [hbudget, hidle, h.isIdle, if_true]
        exact .inl (.next _ (h.retire id))
      | false => exact h.turn hsup hsup' hlenient hid hbudget hidle

theorem passFrom (hsup : sup.IsPassive) (hsup' : sup'.IsPassive) (hlenient : sup'.IsLenient)
    {fuel : Nat} (h : s.Alike s') :
    (passFrom sup budget fuel p s).1 = (passFrom sup' budget fuel p s').1 ∧
        (passFrom sup budget fuel p s).2.Alike (passFrom sup' budget fuel p s').2 ∨
      ∃ b, sup.Refuses b ∧ (passFrom sup budget fuel p s).1 = .failed (.breakdown b) := by
  induction fuel generalizing p s s' with
  | zero => exact .inl ⟨rfl, h⟩
  | succ fuel ih =>
    rw [Session.passFrom, Session.passFrom]
    rcases @visit sup sup' budget p _ _ hsup hsup' hlenient h with hvisit | ⟨b, hb, hvisit⟩
    · generalize s.visit sup budget p = r at hvisit ⊢
      generalize s'.visit sup' budget p = r' at hvisit ⊢
      cases hvisit with
      | next p' h' => exact ih h'
      | finished n h' => exact .inl ⟨rfl, h'⟩
      | broken f h' => exact .inl ⟨rfl, h'⟩
    · exact .inr ⟨b, hb, by rw [hvisit]⟩

theorem runFrom (hsup : sup.IsPassive) (hsup' : sup'.IsPassive) (hlenient : sup'.IsLenient)
    (h : s.Alike s') (budget : Option Int) (fuel executed : Nat) :
    (runFrom sup budget fuel executed s).1 = (runFrom sup' budget fuel executed s').1 ∧
        (runFrom sup budget fuel executed s).2.Alike (runFrom sup' budget fuel executed s').2 ∨
      ∃ b, sup.Refuses b ∧ (runFrom sup budget fuel executed s).1 = .failed (.breakdown b) := by
  induction fuel generalizing executed s s' with
  | zero => exact .inl ⟨rfl, h⟩
  | succ fuel ih =>
    have hover : s'.isOver budget executed = s.isOver budget executed := by
      rw [isOver, isOver, isDone, isDone, h.active]
    cases hs : s.isOver budget executed with
    | true =>
      rw [runFrom_succ_of_isOver sup fuel hs, runFrom_succ_of_isOver sup' fuel (hover.trans hs)]
      exact .inl ⟨rfl, h⟩
    | false =>
      have hpasses : (s.pass sup fuel (left budget executed)).1
            = (s'.pass sup' fuel (left budget executed)).1 ∧
          (s.pass sup fuel (left budget executed)).2.Alike
            (s'.pass sup' fuel (left budget executed)).2 ∨
          ∃ b, sup.Refuses b ∧
            (s.pass sup fuel (left budget executed)).1 = .failed (.breakdown b) :=
        h.passFrom hsup hsup' hlenient
      rcases hpass : s.pass sup fuel (left budget executed) with ⟨o, s₁⟩
      rcases hpass' : s'.pass sup' fuel (left budget executed) with ⟨o', s₁'⟩
      rw [hpass, hpass'] at hpasses
      -- unless the first run was broken off by its log, both passes end in the same way
      rcases hpasses with ⟨rfl, h₁⟩ | ⟨b, hb, rfl⟩
      · cases o with
        | done n =>
          rw [runFrom_succ_of_done hs hpass, runFrom_succ_of_done (hover.trans hs) hpass']
          exact ih h₁ _
        | failed | outOfFuel =>
          rw [runFrom_succ_of_not_done hs hpass (by simp),
            runFrom_succ_of_not_done (hover.trans hs) hpass' (by simp)]
          exact .inl ⟨rfl, h₁⟩
      · rw [runFrom_succ_of_not_done hs hpass (by simp)]
        exact .inr ⟨b, hb, rfl⟩

end Session.Alike

/-- **Looking on changes nothing.** With other onlookers, whose log takes every step, a run comes to
the same outcome, and what it leaves differs in the journal at most. If not, it was broken off by
its own log. -/
theorem Session.exists_run_of_isPassive {sup sup' : Supervision} (hsup : sup.IsPassive)
    (hsup' : sup'.IsPassive) (hlenient : sup'.IsLenient) {s s₁ : Session} {fuel : Nat}
    {budget : Option Int} {o : Outcome Nat} (h : s.run sup fuel budget = (o, s₁)) :
    (∃ s₂, s.run sup' fuel budget = (o, s₂) ∧ s₁.Alike s₂) ∨
      ∃ b, sup.Refuses b ∧ o = .failed (.breakdown b) := by
  have hruns := (Alike.refl s).runFrom hsup hsup' hlenient budget fuel 0
  rw [← run, ← run, h] at hruns
  rcases hruns with ⟨ho, halike⟩ | hbroken
  · exact .inl ⟨(s.run sup' fuel budget).2, Prod.ext ho.symm rfl, halike⟩
  · exact .inr hbroken

end Interleave

import Interleave.Proofs.Direct
import Interleave.Proofs.Joining
import Interleave.Session.Program

/-!
# One queue after another

A step takes what is at the front of the queue and puts what it makes there. It never looks at what
is queued behind it (`Machine.step_append`). So a queue that is put together from two is run by
running the first and then the second, from the value and the world that the first one leaves; and
if the first fails or runs for ever, then the second is still there as it was.

A program is the queue of its expressions, and two texts that are joined by a line break are read
one after the other. So they are also evaluated one after the other
(`Session.evaluates_joined_iff_of_done`).

## What is compared

`Machine.Behaviour` is what comes of a run when fuel is left aside: it gives a value, or fails, or
never ends. Worlds are compared without their journals, since the note of a traced step counts the
steps behind it.

## Logs

A log is shown the step and the current value, and never what is queued behind, so what it does
about a queue it does about the longer one as well. It may tell apart what the current value is,
also at a step that does not use that value. For texts one after another it must therefore overlook
the value that the first one leaves (`Log.Overlooks`).
-/

namespace Interleave

/-- The world without its journal: frames, records of calls, closures made and texts printed. -/
def World.withoutJournal (w : World) : World := { w with journal := #[] }

/-- Two worlds differ in their journals at most. -/
def World.Alike (w w' : World) : Prop := w.withoutJournal = w'.withoutJournal

/-- The log does the same about a step whether it is shown this current value or the undefined
one. -/
def Log.Overlooks (log : Log) (u : Value) : Prop :=
  ∀ st, log st (some u) = log st (some .undefined)

theorem Log.strict_overlooks {u : Value} (hu : u.isWritable = true) : Log.strict.Overlooks u := by
  intro st
  simp only [strict, Option.all_some, hu]
  rfl

namespace Machine

/-! ## Steps before a queue -/

section Append

variable (e : Expr) (frame : FrameId) (q r : Queue) (w : World)

theorem expand_append :
    expand e frame (q ++ r) w = ((expand e frame q w).1.map (· ++ r), (expand e frame q w).2) := by
  cases e with
  | number n => rfl
  | string s => rfl
  | reference x => rfl
  | compound es =>
    cases hform : Expr.specialForm? es with
    | none =>
      simp only [expand, hform, ← List.append_assoc]
      rfl
    | some kp =>
      simp only [expand, hform, ← List.append_assoc]
      cases Form.ofParts kp.1 kp.2 <;> rfl

/-- The value and the queue that a step leaves, with further steps behind. -/
def before (r : Queue) (vq : Value × Queue) : Value × Queue := (vq.1, vq.2 ++ r)

theorem proceed_append :
    proceed e frame (q ++ r) w
      = ((proceed e frame q w).1.map (before r), (proceed e frame q w).2) := by
  rw [proceed, proceed, expand_append]
  rcases expand e frame q w with ⟨f | q', w'⟩ <;> rfl

theorem apply_append (fn : Value) (args : List Value) :
    apply fn args (q ++ r) w = ((apply fn args q w).1.map (before r), (apply fn args q w).2) := by
  cases fn with
  | int | bool | str | undefined => rfl
  | primitive p =>
    rw [apply, apply]
    rcases p.call args w with ⟨f | v, w'⟩ <;> rfl
  | closure c =>
    rw [apply, apply]
    rcases bindArguments c args w with ⟨f | inner, w'⟩
    · rfl
    · simp only [← List.append_assoc]
      rfl

/-- **A step does not look behind it.** -/
theorem step_append (st : Step) (v : Value) :
    step st v (q ++ r) w = ((step st v q w).1.map (before r), (step st v q w).2) := by
  cases st with
  | evaluate e frame => exact proceed_append e frame q r w
  | literal | join | closure => rfl
  | reference x frame =>
    rw [step, step]
    cases w.lookup frame x <;> rfl
  | apply c frame =>
    rw [step, step]
    cases w.collected c with
    | nil => rfl
    | cons fn args => exact apply_append q r w fn args
  | branch t a frame =>
    rw [step.eq_def, step.eq_def]
    dsimp only
    split
    · cases a with
      | none => rfl
      | some e => exact proceed_append e frame q r w
    · exact proceed_append t frame q r w
  | define x frame =>
    rw [step, step]
    rcases w.define frame x v with ⟨f | _, w'⟩ <;> rfl

end Append

/-! ## Steps and the journal -/

def withoutNotes {α : Type} (r : α × World) : α × World := (r.1, r.2.withoutJournal)

theorem proceed_withoutJournal (e : Expr) (frame : FrameId) (q : Queue) (w : World) :
    withoutNotes (proceed e frame q w.withoutJournal) = withoutNotes (proceed e frame q w) := by
  cases e with
  | number | string | reference => rfl
  | compound es =>
    cases hform : Expr.specialForm? es with
    | none =>
      simp only [proceed, expand, hform]
      rfl
    | some kp =>
      simp only [proceed, expand, hform]
      cases Form.ofParts kp.1 kp.2 <;> rfl

theorem apply_withoutJournal (fn : Value) (args : List Value) (q : Queue) (w : World) :
    withoutNotes (apply fn args q w.withoutJournal) = withoutNotes (apply fn args q w) := by
  cases fn with
  | int | bool | str | undefined => rfl
  | primitive p =>
    have hcall : p.call args w.withoutJournal = withoutNotes (p.call args w) := by
      rw [Primitive.call, Primitive.call]
      split
      · rfl
      · split
        · rfl
        · cases p <;> rfl
    rw [apply, apply, hcall]
    rcases p.call args w with ⟨f | v, w'⟩ <;> rfl
  | closure c =>
    have hbind : bindArguments c args w.withoutJournal = withoutNotes (bindArguments c args w) := by
      rw [bindArguments, bindArguments]
      split <;> rfl
    rw [apply, apply, hbind]
    rcases bindArguments c args w with ⟨f | inner, w'⟩ <;> rfl

/-- A step does not look at the journal. -/
theorem step_withoutJournal (st : Step) (v : Value) (q : Queue) (w : World) :
    withoutNotes (step st v q w.withoutJournal) = withoutNotes (step st v q w) := by
  have haside : w.withoutJournal = w.aside w.calls #[] := rfl
  cases st with
  | evaluate e frame => exact proceed_withoutJournal e frame q w
  | literal | join | closure => rfl
  | reference x frame =>
    rw [step, step, haside, World.lookup_aside]
    rfl
  | apply c frame =>
    have hcollected : w.withoutJournal.collected c = w.collected c := rfl
    rw [step, step, hcollected]
    cases w.collected c with
    | nil => rfl
    | cons fn args => exact apply_withoutJournal fn args q w
  | branch t a frame =>
    rw [step.eq_def, step.eq_def]
    dsimp only
    split
    · cases a with
      | none => rfl
      | some e => exact proceed_withoutJournal e frame q w
    · exact proceed_withoutJournal t frame q w
  | define x frame =>
    have hdefine : w.withoutJournal.define frame x v = withoutNotes (w.define frame x v) := by
      have hbinds : w.withoutJournal.binds frame x = w.binds frame x := rfl
      rw [World.define, World.define, hbinds]
      split <;> rfl
    rw [step, step, hdefine]
    rcases w.define frame x v with ⟨f | _, w'⟩ <;> rfl

/-! ## Runs before a queue -/

variable {log : Option Log} {fuel : Nat} {st : Step} {u v v₁ : Value} {q q₁ q₂ r : Queue}
  {w w' w₁ x : World} {f : Fault}

theorem run_of_takeStep_ok (h : takeStep log st v q w = (.ok (v₁, q₁), w₁)) :
    run log (fuel + 1) v (st :: q) w = run log fuel v₁ q₁ w₁ := by
  rw [run, h]

theorem run_of_takeStep_error (h : takeStep log st v q w = (.error f, w₁)) :
    run log (fuel + 1) v (st :: q) w = (.failed f, w₁) := by
  rw [run, h]

/-- A log does not look at what is queued behind a step, nor at the journal. -/
theorem trace_step_append (log : Option Log) (st : Step) (v : Value) (q r : Queue)
    (hw : w.Alike w') :
    match w.trace log (.step st v q.length) with
    | .error b => w'.trace log (.step st v (q ++ r).length) = .error b
    | .ok x => ∃ x', w'.trace log (.step st v (q ++ r).length) = .ok x' ∧ x.Alike x' := by
  cases log with
  | none => exact ⟨w', rfl, hw⟩
  | some log =>
    cases h : log st (some v) with
    | none => simp only [World.trace, Log.verdict, h]; exact ⟨_, rfl, hw⟩
    | some b => simp only [World.trace, Log.verdict, h]

/-- What a step does depends neither on what is queued behind it nor on the journal. -/
theorem takeStep_append (log : Option Log) (st : Step) (v : Value) (q r : Queue) (hw : w.Alike w') :
    withoutNotes (takeStep log st v (q ++ r) w') =
      withoutNotes ((takeStep log st v q w).1.map (before r), (takeStep log st v q w).2) := by
  have htrace := trace_step_append log st v q r hw
  rw [takeStep, takeStep]
  cases h : w.trace log (.step st v q.length) with
  | error b =>
    rw [h] at htrace
    rw [htrace]
    exact congrArg (Prod.mk _) hw.symm
  | ok x =>
    rw [h] at htrace
    obtain ⟨x', hx', hx⟩ := htrace
    rw [hx']
    dsimp only
    rw [← step_withoutJournal, ← hx, step_withoutJournal, step_append]

theorem exists_takeStep_append {result : Except Fault (Value × Queue)} (hw : w.Alike w')
    (h : takeStep log st v q w = (result, w₁)) (r : Queue) :
    ∃ w₁', w₁.Alike w₁' ∧ takeStep log st v (q ++ r) w' = (result.map (before r), w₁') := by
  have happend := takeStep_append log st v q r hw
  rw [h] at happend
  have hresult := congrArg Prod.fst happend
  exact ⟨_, (congrArg Prod.snd happend).symm, Prod.ext hresult rfl⟩

theorem takeStep_append_ok (hw : w.Alike w') (h : takeStep log st v q w = (.ok (v₁, q₁), w₁))
    (r : Queue) :
    ∃ w₁', w₁.Alike w₁' ∧ takeStep log st v (q ++ r) w' = (.ok (v₁, q₁ ++ r), w₁') :=
  exists_takeStep_append hw h r

theorem takeStep_append_error (hw : w.Alike w') (h : takeStep log st v q w = (.error f, w₁))
    (r : Queue) :
    ∃ w₁', w₁.Alike w₁' ∧ takeStep log st v (q ++ r) w' = (.error f, w₁') :=
  exists_takeStep_append hw h r

/-- What is left of the queue when a run stops. The step that fails has left it already. -/
def pending (log : Option Log) : (fuel : Nat) → Value → Queue → World → Queue
  | _, _, [], _ => []
  | 0, _, st :: q, _ => st :: q
  | fuel + 1, v, st :: q, w =>
    match takeStep log st v q w with
    | (.ok (v₁, q₁), w₁) => pending log fuel v₁ q₁ w₁
    | (.error _, _) => q

theorem pending_of_takeStep_ok (h : takeStep log st v q w = (.ok (v₁, q₁), w₁)) :
    pending log (fuel + 1) v (st :: q) w = pending log fuel v₁ q₁ w₁ := by
  rw [pending, h]

theorem pending_of_takeStep_error (h : takeStep log st v q w = (.error f, w₁)) :
    pending log (fuel + 1) v (st :: q) w = q := by
  rw [pending, h]

/-- A run that comes to the end of a queue goes on with what is queued behind. -/
theorem run_append_of_done (hw : w.Alike w') (h : run log fuel v q₁ w = (.done u, x))
    (q₂ : Queue) :
    ∃ n ≤ fuel, ∃ x', x.Alike x' ∧
      ∀ fuel', run log (n + fuel') v (q₁ ++ q₂) w' = run log fuel' u q₂ x' := by
  induction fuel generalizing v q₁ w w' with
  | zero =>
    cases q₁ with
    | nil =>
      cases h
      exact ⟨0, le_rfl, w', hw, fun fuel' ↦ by rw [Nat.zero_add, List.nil_append]⟩
    | cons st q => cases h
  | succ fuel ih =>
    cases q₁ with
    | nil =>
      cases h
      exact ⟨0, Nat.zero_le _, w', hw, fun fuel' ↦ by rw [Nat.zero_add, List.nil_append]⟩
    | cons st q =>
      rcases hstep : takeStep log st v q w with ⟨f | ⟨v₁, q'⟩, w₁⟩
      · rw [run_of_takeStep_error hstep] at h
        cases h
      · obtain ⟨w₁', hw₁, hstep'⟩ := takeStep_append_ok hw hstep q₂
        rw [run_of_takeStep_ok hstep] at h
        obtain ⟨n, hn, x', hx, hrun⟩ := ih hw₁ h
        refine ⟨n + 1, Nat.succ_le_succ hn, x', hx, fun fuel' ↦ ?_⟩
        rw [Nat.add_right_comm, List.cons_append, run_of_takeStep_ok hstep', hrun]

/-- A run that does not come to the end of a queue leaves what is queued behind as it is. -/
theorem run_append_of_ne_done (hw : w.Alike w')
    (h : ∀ u, (run log fuel v q₁ w).1 ≠ .done u) (q₂ : Queue) :
    (run log fuel v (q₁ ++ q₂) w').1 = (run log fuel v q₁ w).1 ∧
      (run log fuel v q₁ w).2.Alike (run log fuel v (q₁ ++ q₂) w').2 ∧
      pending log fuel v (q₁ ++ q₂) w' = pending log fuel v q₁ w ++ q₂ := by
  induction fuel generalizing v q₁ w w' with
  | zero =>
    cases q₁ with
    | nil => exact absurd rfl (h v)
    | cons st q => exact ⟨rfl, hw, rfl⟩
  | succ fuel ih =>
    cases q₁ with
    | nil => exact absurd rfl (h v)
    | cons st q =>
      rcases hstep : takeStep log st v q w with ⟨f | ⟨v₁, q'⟩, w₁⟩
      · obtain ⟨w₁', hw₁, hstep'⟩ := takeStep_append_error hw hstep q₂
        rw [List.cons_append, run_of_takeStep_error hstep, run_of_takeStep_error hstep',
          pending_of_takeStep_error hstep, pending_of_takeStep_error hstep']
        exact ⟨rfl, hw₁, rfl⟩
      · obtain ⟨w₁', hw₁, hstep'⟩ := takeStep_append_ok hw hstep q₂
        rw [run_of_takeStep_ok hstep] at h
        rw [List.cons_append, run_of_takeStep_ok hstep, run_of_takeStep_ok hstep',
          pending_of_takeStep_ok hstep, pending_of_takeStep_ok hstep']
        exact ih hw₁ h

/-! ## Behaviours -/

/-- What comes of a run, fuel left aside. Worlds are without their journals. -/
inductive Behaviour where
  /-- It gives a value. -/
  | returns (v : Value) (w : World)
  /-- It fails. -/
  | fails (f : Fault) (w : World)
  /-- It never ends. -/
  | diverges

def Behaviour.ofRun : Outcome Value × World → Behaviour
  | (.done v, w) => .returns v w.withoutJournal
  | (.failed f, w) => .fails f w.withoutJournal
  | (.outOfFuel, _) => .diverges

/-- What the runs of a queue show from some amount of fuel on. -/
def Behaves (log : Option Log) (v : Value) (q : Queue) (w : World) (b : Behaviour) : Prop :=
  ∃ bound, ∀ fuel ≥ bound, Behaviour.ofRun (run log fuel v q w) = b

variable {b b' : Behaviour}

theorem Behaves.unique (h : Behaves log v q w b) (h' : Behaves log v q w b') : b = b' := by
  obtain ⟨bound, h⟩ := h
  obtain ⟨bound', h'⟩ := h'
  rw [← h (max bound bound') (le_max_left ..), ← h' (max bound bound') (le_max_right ..)]

theorem run_nil : run log fuel v [] w = (.done v, w) := by
  rw [run]

theorem run_add (h : (run log fuel v q w).1 ≠ .outOfFuel) (more : Nat) :
    run log (fuel + more) v q w = run log fuel v q w := by
  induction fuel generalizing v q w with
  | zero =>
    cases q with
    | nil => rw [run_nil, run_nil]
    | cons st q => exact absurd rfl h
  | succ fuel ih =>
    cases q with
    | nil => rw [run_nil, run_nil]
    | cons st q =>
      rw [Nat.add_right_comm]
      rcases hstep : takeStep log st v q w with ⟨f | ⟨v₁, q₁⟩, w₁⟩
      · rw [run_of_takeStep_error hstep, run_of_takeStep_error hstep]
      · rw [run_of_takeStep_ok hstep] at h
        rw [run_of_takeStep_ok hstep, run_of_takeStep_ok hstep]
        exact ih h

theorem behaves_of_run (h : (run log fuel v q w).1 ≠ .outOfFuel) :
    Behaves log v q w (.ofRun (run log fuel v q w)) := by
  refine ⟨fuel, fun fuel' hle ↦ ?_⟩
  obtain ⟨more, rfl⟩ := Nat.exists_eq_add_of_le hle
  rw [run_add h]

theorem Behaviour.ofRun_of_done {r : Outcome Value × World} (h : r.1 = .done u) :
    ofRun r = .returns u r.2.withoutJournal := by
  rw [← Prod.eta r, h, ofRun]

theorem Behaviour.ofRun_of_outOfFuel {r : Outcome Value × World} (h : r.1 = .outOfFuel) :
    ofRun r = .diverges := by
  rw [← Prod.eta r, h, ofRun]

theorem Behaviour.ofRun_congr {r r' : Outcome Value × World} (ho : r.1 = r'.1)
    (hw : r.2.Alike r'.2) : ofRun r = ofRun r' := by
  obtain ⟨o, w⟩ := r
  obtain ⟨o', w'⟩ := r'
  cases ho
  cases o with
  | done v => exact congrArg (returns v) hw
  | failed f => exact congrArg (fails f) hw
  | outOfFuel => rfl

theorem behaves_of_done (h : (run log fuel v q w).1 = .done u) :
    Behaves log v q w (.returns u (run log fuel v q w).2.withoutJournal) := by
  have hne : (run log fuel v q w).1 ≠ .outOfFuel := by
    intro hout
    rw [h] at hout
    cases hout
  rw [← Behaviour.ofRun_of_done h]
  exact behaves_of_run hne

theorem exists_behaves (log : Option Log) (v : Value) (q : Queue) (w : World) :
    ∃ b, Behaves log v q w b := by
  by_cases hstops : ∃ fuel, (run log fuel v q w).1 ≠ .outOfFuel
  · obtain ⟨fuel, h⟩ := hstops
    exact ⟨_, behaves_of_run h⟩
  · refine ⟨.diverges, 0, fun fuel _ ↦ ?_⟩
    exact Behaviour.ofRun_of_outOfFuel (not_not.1 fun h ↦ hstops ⟨fuel, h⟩)

theorem ofRun_run_of_alike (hw : w.Alike w') :
    Behaviour.ofRun (run log fuel v q w) = .ofRun (run log fuel v q w') := by
  by_cases hdone : ∃ u, (run log fuel v q w).1 = .done u
  · obtain ⟨u, ho⟩ := hdone
    obtain ⟨n, hn, x', hx, hrun⟩ := run_append_of_done hw (Prod.ext ho rfl) []
    have hfuel := hrun (fuel - n)
    rw [Nat.add_sub_cancel' hn, List.append_nil, run_nil] at hfuel
    rw [hfuel]
    exact Behaviour.ofRun_congr ho hx
  · obtain ⟨ho, hx, -⟩ := run_append_of_ne_done hw (fun u hu ↦ hdone ⟨u, hu⟩) []
    rw [List.append_nil] at ho hx
    exact Behaviour.ofRun_congr ho.symm hx

theorem behaves_iff_of_alike (hw : w.Alike w') :
    Behaves log v q w b ↔ Behaves log v q w' b := by
  simp only [Behaves, ofRun_run_of_alike hw]

/-! ## One behaviour after another -/

/-- A queue that gives a value is followed by what is behind it. -/
theorem Behaves.append (h₁ : Behaves log v q₁ w (.returns u x)) (h₂ : Behaves log u q₂ x b) :
    Behaves log v (q₁ ++ q₂) w b := by
  obtain ⟨bound₁, h₁⟩ := h₁
  obtain ⟨bound₂, h₂⟩ := h₂
  have hreturns := h₁ bound₁ le_rfl
  rcases hrun : run log bound₁ v q₁ w with ⟨o, x₁⟩
  rw [hrun] at hreturns
  cases o with
  | failed | outOfFuel => cases hreturns
  | done =>
    cases hreturns
    obtain ⟨n, -, x', hx, happend⟩ := run_append_of_done rfl hrun q₂
    refine ⟨n + bound₂, fun fuel hle ↦ ?_⟩
    obtain ⟨more, rfl⟩ := Nat.exists_eq_add_of_le hle
    have hx' : x'.Alike x₁.withoutJournal := hx.symm
    rw [Nat.add_assoc, happend, ofRun_run_of_alike hx']
    exact h₂ _ (Nat.le_add_right ..)

/-- A queue that gives no value makes the whole do as it does. -/
theorem Behaves.append_of_ne_returns (h : Behaves log v q₁ w b)
    (hb : ∀ u x, b ≠ .returns u x) (q₂ : Queue) : Behaves log v (q₁ ++ q₂) w b := by
  obtain ⟨bound, h⟩ := h
  refine ⟨bound, fun fuel hle ↦ ?_⟩
  have hne : ∀ u, (run log fuel v q₁ w).1 ≠ .done u := by
    intro u hu
    apply hb u (run log fuel v q₁ w).2.withoutJournal
    rw [← h fuel hle]
    exact Behaviour.ofRun_of_done hu
  obtain ⟨ho, hx, -⟩ := run_append_of_ne_done rfl hne q₂
  rw [← h fuel hle]
  exact (Behaviour.ofRun_congr ho.symm hx).symm

theorem Behaves.append_iff (h₁ : Behaves log v q₁ w (.returns u x)) :
    Behaves log v (q₁ ++ q₂) w b ↔ Behaves log u q₂ x b := by
  refine ⟨fun h ↦ ?_, h₁.append⟩
  obtain ⟨b₂, h₂⟩ := exists_behaves log u q₂ x
  cases h.unique (h₁.append h₂)
  exact h₂

/-- **Queues run one after another.** -/
theorem behaves_append_iff :
    Behaves log v (q₁ ++ q₂) w b ↔
      (∃ u x, Behaves log v q₁ w (.returns u x) ∧ Behaves log u q₂ x b) ∨
        (Behaves log v q₁ w b ∧ ∀ u x, b ≠ .returns u x) := by
  constructor
  · intro h
    obtain ⟨b₁, h₁⟩ := exists_behaves log v q₁ w
    by_cases hreturns : ∃ u x, b₁ = .returns u x
    · obtain ⟨u, x, rfl⟩ := hreturns
      exact .inl ⟨u, x, h₁, h₁.append_iff.1 h⟩
    · have hb₁ : ∀ u x, b₁ ≠ .returns u x := fun u x heq ↦ hreturns ⟨u, x, heq⟩
      cases h.unique (h₁.append_of_ne_returns hb₁ q₂)
      exact .inr ⟨h₁, hb₁⟩
  · rintro (⟨u, x, h₁, h₂⟩ | ⟨h₁, hb⟩)
    · exact h₁.append h₂
    · exact h₁.append_of_ne_returns hb q₂

theorem ofRun_run_of_takeStep
    (h : withoutNotes (takeStep log st u q w) = withoutNotes (takeStep log st v q w)) :
    Behaviour.ofRun (run log fuel u (st :: q) w) = .ofRun (run log fuel v (st :: q) w) := by
  cases fuel with
  | zero => rfl
  | succ fuel =>
    rcases hu : takeStep log st u q w with ⟨r, w₁⟩
    rcases hv : takeStep log st v q w with ⟨r', w₁'⟩
    rw [hu, hv] at h
    have hr : r = r' := congrArg Prod.fst h
    have hw : w₁.Alike w₁' := congrArg Prod.snd h
    cases hr
    cases r with
    | error f =>
      rw [run_of_takeStep_error hu, run_of_takeStep_error hv]
      exact Behaviour.ofRun_congr rfl hw
    | ok vq =>
      rw [run_of_takeStep_ok hu, run_of_takeStep_ok hv]
      exact ofRun_run_of_alike hw

/-- The evaluation of an expression does not look at the value before it. A log may. -/
theorem behaves_evaluate_iff {e : Expr} {frame : FrameId} (hu : ∀ l ∈ log, l.Overlooks u) :
    Behaves log u (.evaluate e frame :: q) w b
      ↔ Behaves log .undefined (.evaluate e frame :: q) w b := by
  have hstep : withoutNotes (takeStep log (.evaluate e frame) u q w)
      = withoutNotes (takeStep log (.evaluate e frame) .undefined q w) := by
    cases log with
    | none => rfl
    | some log =>
      have hlog : log (.evaluate e frame) (some u) = log (.evaluate e frame) (some .undefined) :=
        hu log rfl (.evaluate e frame)
      rw [takeStep, takeStep]
      simp only [World.trace, Log.verdict, hlog]
      cases log (.evaluate e frame) (some .undefined) with
      | some b => rfl
      | none =>
        dsimp only
        rw [step, step, ← proceed_withoutJournal]
        exact proceed_withoutJournal e frame q (w.note (.step _ .undefined q.length))
  simp only [Behaves, ofRun_run_of_takeStep hstep]

end Machine

/-! ## Texts one after another -/

theorem Queue.ofProgram_append (es es' : List Expr) (frame : FrameId) :
    ofProgram (es ++ es') frame = ofProgram es frame ++ ofProgram es' frame :=
  List.map_append

namespace Session

/-- What comes of evaluating a text at once in a session, fuel left aside. -/
def Evaluates (log : Option Log) (source : String) (s : Session) (b : Machine.Behaviour) : Prop :=
  ∃ bound, ∀ fuel ≥ bound,
    Machine.Behaviour.ofRun ((s.eval log fuel source).1, (s.eval log fuel source).2.world) = b

variable {log : Option Log} {fuel : Nat} {source a b : String} {es pa pb : List Expr}
  {s s₁ : Session} {u : Value} {β : Machine.Behaviour}

/-- A text that can be read is run as the queue of its expressions. -/
theorem eval_of_parse (h : parse source = .ok es) :
    s.eval log fuel source =
      let q := Queue.ofProgram es World.globalFrame
      ((Machine.run log fuel .undefined q s.world).1,
        { s with world := (Machine.run log fuel .undefined q s.world).2 }) := by
  rw [eval, h]
  rfl

theorem evaluates_iff_behaves (h : parse source = .ok es) :
    s.Evaluates log source β
      ↔ Machine.Behaves log .undefined (Queue.ofProgram es World.globalFrame) s.world β := by
  simp only [Evaluates, eval_of_parse h]
  rfl

/-- The second of two texts is evaluated in the session that the first one leaves. -/
theorem evaluates_joined_iff_of_done (ha : parse a = .ok pa) (hb : parse b = .ok pb) (hpb : pb ≠ [])
    (h : s.eval log fuel a = (.done u, s₁)) (hu : ∀ l ∈ log, l.Overlooks u) :
    s.Evaluates log (a ++ "\n" ++ b) β ↔ s₁.Evaluates log b β := by
  have hfirst : Machine.Behaves log .undefined (Queue.ofProgram pa World.globalFrame) s.world
      (.returns u s₁.world.withoutJournal) := by
    rw [eval_of_parse ha] at h
    obtain ⟨hdone, rfl⟩ := Prod.ext_iff.1 h
    exact Machine.behaves_of_done hdone
  rw [evaluates_iff_behaves (parse_joined ha hb), evaluates_iff_behaves hb,
    Queue.ofProgram_append, hfirst.append_iff]
  obtain ⟨e, es, rfl⟩ := List.exists_cons_of_ne_nil hpb
  exact (Machine.behaves_evaluate_iff hu).trans (Machine.behaves_iff_of_alike rfl)

/-- A text that gives no value is all that is evaluated of two. -/
theorem Evaluates.joined (ha : parse a = .ok pa) (hb : parse b = .ok pb)
    (h : s.Evaluates log a β) (hβ : ∀ u w, β ≠ .returns u w) :
    s.Evaluates log (a ++ "\n" ++ b) β := by
  rw [evaluates_iff_behaves ha] at h
  rw [evaluates_iff_behaves (parse_joined ha hb), Queue.ofProgram_append]
  exact h.append_of_ne_returns hβ _

end Session

/-- **Queues and programs compose.** A queue put together from two behaves as the first and then,
from the value and the world that the first one leaves, as the second. If the first fails or has not
come to its end, then so has the whole, with the same fault and in the same world, and the second is
left as it was. In the same way two texts that can be read, joined by a line break, are evaluated
one after the other. A log is shown the value of the first at the beginning of the second, so what
it does must not depend on that value: this is so of a log that takes every note, and of one that
breaks off at long integers if the value can be written. -/
theorem queues_and_programs_compose :
    (∀ (log : Option Log) (v : Value) (q₁ q₂ : Queue) (w : World) (β : Machine.Behaviour),
      Machine.Behaves log v (q₁ ++ q₂) w β ↔
        (∃ u x, Machine.Behaves log v q₁ w (.returns u x) ∧ Machine.Behaves log u q₂ x β) ∨
          (Machine.Behaves log v q₁ w β ∧ ∀ u x, β ≠ .returns u x)) ∧
    (∀ (log : Option Log) (fuel : Nat) (v : Value) (q₁ q₂ : Queue) (w : World),
      (∀ u, (Machine.run log fuel v q₁ w).1 ≠ .done u) →
        (Machine.run log fuel v (q₁ ++ q₂) w).1 = (Machine.run log fuel v q₁ w).1 ∧
        (Machine.run log fuel v q₁ w).2.Alike (Machine.run log fuel v (q₁ ++ q₂) w).2 ∧
        Machine.pending log fuel v (q₁ ++ q₂) w = Machine.pending log fuel v q₁ w ++ q₂) ∧
    ∀ (log : Option Log) (s : Session) (a b : String) (pa pb : List Expr),
      parse a = .ok pa → parse b = .ok pb → pb ≠ [] →
        (∀ fuel u s₁, s.eval log fuel a = (.done u, s₁) →
          (∀ l ∈ log, l.Overlooks u) →
          ∀ β, s.Evaluates log (a ++ "\n" ++ b) β ↔ s₁.Evaluates log b β) ∧
        ∀ β, (∀ u x, β ≠ .returns u x) → s.Evaluates log a β →
          s.Evaluates log (a ++ "\n" ++ b) β := by
  refine ⟨fun log v q₁ q₂ w β ↦ Machine.behaves_append_iff,
    fun log fuel v q₁ q₂ w h ↦ Machine.run_append_of_ne_done rfl h q₂, ?_⟩
  intro log s a b pa pb ha hb hpb
  constructor
  · intro fuel u s₁ h hu β
    exact Session.evaluates_joined_iff_of_done ha hb hpb h hu
  · intro β hβ h
    exact h.joined ha hb hβ

/-- A name that the first text defines is known in the second. -/
theorem queues_and_programs_compose_defined :
    ∃ w, Session.fresh.Evaluates (some .strict) ("(define x 2)" ++ "\n" ++ "(* x 21)")
      (.returns (.int 42) w) := by
  have ha : parse "(define x 2)"
      = .ok [.compound [.reference "define", .reference "x", .number 2]] :=
    parse_of_toOption (by decide +kernel)
  have hb : parse "(* x 21)" = .ok [.compound [.reference "*", .reference "x", .number 21]] :=
    parse_of_toOption (by decide +kernel)
  have hfirst : Session.fresh.eval (some .strict) 4 "(define x 2)"
      = (.done .undefined, (Session.fresh.eval (some .strict) 4 "(define x 2)").2) :=
    Prod.ext (by decide +kernel) rfl
  have hsecond : (Machine.run (some .strict) 11 .undefined
      (Queue.ofProgram [.compound [.reference "*", .reference "x", .number 21]] World.globalFrame)
      (Session.fresh.eval (some .strict) 4 "(define x 2)").2.world).1 = .done (.int 42) := by
    decide +kernel
  have hboth := (queues_and_programs_compose.2.2 (some .strict) _ _ _ _ _ ha hb (by decide)).1
    _ _ _ hfirst fun _ hl ↦ Option.mem_some.1 hl ▸ Log.strict_overlooks rfl
  exact ⟨_, (hboth _).2 ((Session.evaluates_iff_behaves hb).2 (Machine.behaves_of_done hsecond))⟩

end Interleave

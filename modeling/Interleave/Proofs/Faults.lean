import Interleave.Proofs.Composition
import Interleave.Proofs.Isolation
import Interleave.Proofs.Operations
import Interleave.Proofs.Scanning

/-!
# How evaluations fail

A program that was read is evaluated to its end, forever, or up to a fault. This is about the faults
that evaluations meet, in a session in which programs are evaluated one after the other.

* `Machine.isOfRun_of_step`: a step fails with one of five classes of errors, or breaks down on an
  integer that is too long to be written.
* `Operations.runQueue_eq`: the loop that takes the steps of a queue in place comes to what the run
  of the queue comes to. So it snags on faults only.
* `evaluations_fail_in_few_ways`: these are all the ways in which evaluations fail, and a breakdown
  is always the call of an integer that is too long.

Evaluations are taken without a log. These are the faults of programs and of the machine that runs
them. A log may break a run off at any step for reasons of its own, and adds what it raises to them.
-/

namespace Interleave

/-! ## The faults of steps -/

/-- The faults that the steps of a program report. -/
inductive Fault.IsOfRun : Fault → Prop where
  | unbound (x : String) : IsOfRun (.program (.unbound x))
  | alreadyDefined (x : String) : IsOfRun (.program (.alreadyDefined x))
  | arity (e : ArityError) : IsOfRun (.program (.arity e))
  | notCallable (callee : Option Value) : IsOfRun (.program (.notCallable callee))
  | kind (e : KindError) : IsOfRun (.program (.kind e))
  | integerTooLong : IsOfRun (.breakdown .integerTooLong)

theorem Expr.eq_integerTooLong_of_summary {e : Expr} {f : Fault} (h : e.summary = .error f) :
    f = .breakdown .integerTooLong := by
  rw [summary.eq_def] at h
  split at h
  · cases h
  · rw [source] at h
    split at h
    · cases h
    · exact (Except.error.inj h).symm

namespace Form

theorem isOfRun_wrongKind (error : String → KindError) (e : Expr) :
    (wrongKind error e).IsOfRun := by
  rw [wrongKind]
  cases hsummary : e.summary with
  | ok text => exact .kind _
  | error f =>
    rw [Expr.eq_integerTooLong_of_summary hsummary]
    exact .integerTooLong

theorem isOfRun_parameterNames {es : List Expr} {before : List String} {f : Fault}
    (h : parameterNames before es = .error f) : f.IsOfRun := by
  fun_induction parameterNames before es with
  | case1 => cases h
  | case2 =>
    cases h
    exact .kind _
  | case3 before x es _ ih => exact ih h
  | case4 before e es _ =>
    cases h
    exact isOfRun_wrongKind _ e

theorem isOfRun_parameters {params : Expr} {f : Fault} (h : parameters params = .error f) :
    f.IsOfRun := by
  rw [parameters.eq_def] at h
  split at h
  · exact isOfRun_parameterNames h
  · rw [← Except.error.inj h]
    exact isOfRun_wrongKind _ _

theorem isOfRun_ofParts {k : SpecialForm} {parts : List Expr} {f : Fault}
    (h : ofParts k parts = .error f) : f.IsOfRun := by
  rw [ofParts.eq_def] at h
  split at h
  · cases h
  · cases h
  · cases h
    exact .arity _
  · cases h
  · cases h
    exact isOfRun_wrongKind _ _
  · cases h
    exact .arity _
  · rename_i params e body
    cases hparams : parameters params with
    | ok names => rw [hparams] at h; cases h
    | error g =>
      rw [hparams] at h
      cases h
      exact isOfRun_parameters hparams
  · cases h
    exact .arity _

end Form

namespace Machine

/-- **Faults of steps.** A step that fails reports one of five classes of errors, or breaks down on
an integer that is too long to be written. -/
theorem isOfRun_of_step {st : Step} {v : Value} {q : Queue} {w w' : World} {f : Fault}
    (h : step st v q w = (.error f, w')) : f.IsOfRun := by
  cases stepped_of_step h with
  | malformed _ _ hparts => exact Form.isOfRun_ofParts hparts
  | refused _ _ hcall =>
    obtain ⟨-, rfl | ⟨u, rfl⟩⟩ := Primitive.call_eq_error hcall
    · exact .arity _
    · exact .kind _
  | notFunction =>
    rw [Fault.ofCallee]
    split
    · exact .notCallable _
    · exact .integerTooLong
  | unbound => exact .unbound _
  | emptyCall => exact .notCallable _
  | miscounted => exact .arity _
  | duplicate => exact .alreadyDefined _

/-! ## Runs in place -/

namespace Operations

def next : Operations (Option Step) :=
  modifyGet fun b ↦
    match b.queue with
    | [] => (none, b)
    | st :: q => (some st, { b with queue := q })

/-- Takes steps off the queue and carries them out until there is none, and gives the last value.
There is no result if steps are left after so many. -/
def runQueue : (fuel : Nat) → Value → Operations (Option Value)
  | 0, current => do
    return if (← get).queue.isEmpty then some current else none
  | fuel + 1, current => do
    match ← next with
    | none => return some current
    | some st => runQueue fuel (← take st current)

/-- What comes of a run that leaves the given queue. -/
def runOutcome (rest : Queue) :
    Outcome Value × World → EStateM.Result Snag Workbench (Option Value)
  | (.done v, w) => .ok (some v) ⟨rest, w⟩
  | (.outOfFuel, w) => .ok none ⟨rest, w⟩
  | (.failed f, w) => .error (.fault f) ⟨rest, w⟩

theorem takeStep_false (st : Step) (v : Value) (q : Queue) (w : World) :
    takeStep none st v q w = step st v q w :=
  rfl

/-- **Runs in place.** The loop comes to what the run comes to, and leaves the queue where the run
stops. -/
theorem runQueue_eq (fuel : Nat) (v : Value) (q : Queue) (w : World) :
    (runQueue fuel v).run ⟨q, w⟩
      = runOutcome (pending none fuel v q w) (Machine.run none fuel v q w) := by
  induction fuel generalizing v q w with
  | zero => cases q <;> rfl
  | succ fuel ih =>
    cases q with
    | nil => rfl
    | cons st q =>
      -- the step is off the queue before it is carried out
      change (take st v >>= runQueue fuel).run ⟨q, w⟩ = _
      rcases hstep : takeStep none st v q w with ⟨f | ⟨v₁, q₁⟩, w₁⟩
      · rw [run_of_takeStep_error hstep, pending_of_takeStep_error hstep]
        have htake : (take st v).run ⟨q, w⟩ = .error (.fault f) ⟨q, w₁⟩ := by
          rw [take_eq, ← takeStep_false, hstep, outcome]
        exact run_bind_of_error htake
      · rw [run_of_takeStep_ok hstep, pending_of_takeStep_ok hstep, ← ih]
        have htake : (take st v).run ⟨q, w⟩ = .ok v₁ ⟨q₁, w₁⟩ := by
          rw [take_eq, ← takeStep_false, hstep, outcome]
        exact run_bind_of_ok htake

theorem run_runQueue_eq_error_iff {fuel : Nat} {v : Value} {q : Queue} {w : World} {snag : Snag}
    {b : Workbench} :
    (runQueue fuel v).run ⟨q, w⟩ = .error snag b ↔ ∃ f, snag = .fault f ∧
      b.queue = pending none fuel v q w ∧ Machine.run none fuel v q w = (.failed f, b.world) := by
  rw [runQueue_eq]
  match Machine.run none fuel v q w with
  | (.done u, w') | (.outOfFuel, w') =>
    constructor
    · intro h
      cases h
    · rintro ⟨f, -, -, h⟩
      cases h
  | (.failed f, w') =>
    constructor
    · intro h
      cases h
      exact ⟨f, rfl, rfl, rfl⟩
    · rintro ⟨f, rfl, hqueue, h⟩
      cases h
      rw [runOutcome, ← hqueue]

end Operations

/-! ## Faults of runs -/

variable {fuel : Nat} {c : Config} {f : Fault} {w : World}

theorem isOfRun_of_run (h : c.run fuel = (.failed f, w)) : f.IsOfRun := by
  obtain ⟨n, -, c', -, st, q, -, hstep⟩ := run_eq_failed_iff.mp h
  exact isOfRun_of_step hstep

/-- The code that a run leaves in the world is code that it found. -/
theorem Config.CodeIn.run {P : Expr → Prop} (hP : Hereditary P) (hc : c.CodeIn P) (fuel : Nat) :
    (c.run fuel).2.CodeIn P := by
  rcases run_cases fuel c with ⟨c', hsteps, -, hrun⟩ | ⟨n, -, v, w, hsteps, hrun⟩ |
      ⟨n, -, c', f, w, hsteps, ⟨st, q, -, hstep⟩, hrun⟩
  · rw [hrun]
    exact (hsteps.codeIn hP hc).world
  · rw [hrun]
    exact (hsteps.codeIn hP hc).world
  · rw [hrun]
    exact (hsteps.codeIn hP hc).world.journal (step_error hstep)

/-- The next step calls an integer that has more digits than can be written. -/
def Config.CallsLongInteger (c : Config) : Prop :=
  ∃ call frame q n args, c.queue = .apply call frame :: q ∧
    c.world.collected call = .int n :: args ∧
    Numeral.maxDigits < (Nat.toDigits 10 n.natAbs).length

theorem Config.callsLongInteger_iff :
    c.CallsLongInteger ↔ ∃ st q, c.queue = st :: q ∧ Machine.CallsLongInteger st c.world := by
  have hlong (n : Int) : Numeral.isTooLong n = true ↔
      Numeral.maxDigits < (Nat.toDigits 10 n.natAbs).length := by
    rw [← Nat.not_le, ← Numeral.isTooLong_eq_false_iff, Bool.not_eq_false]
  constructor
  · rintro ⟨call, frame, q, n, args, hqueue, hcollected, hn⟩
    exact ⟨_, q, hqueue, call, frame, n, args, rfl, hcollected, (hlong n).mpr hn⟩
  · rintro ⟨st, q, hqueue, call, frame, n, args, rfl, hcollected, hn⟩
    exact ⟨call, frame, q, n, args, hqueue, hcollected, (hlong n).mp hn⟩

/-- **Breakdowns of runs.** A run of code whose numbers can be written breaks down exactly when it
comes to the call of an integer that is too long. -/
theorem run_breakdown_iff (hc : c.CodeIn Writable) :
    (∃ fuel b, (c.run fuel).1 = .failed (.breakdown b)) ↔
      ∃ n c', Steps n c c' ∧ c'.CallsLongInteger := by
  constructor
  · rintro ⟨fuel, b, hrun⟩
    obtain ⟨n, -, c', hsteps, st, q, hqueue, hstep⟩ := run_eq_failed_iff.mp (Prod.ext hrun rfl)
    -- a form with a number too long would break down as well, but such code cannot be read
    have hst : st.CodeIn Writable :=
      (hsteps.codeIn hereditary_writable hc).queue st (hqueue ▸ List.mem_cons_self)
    obtain ⟨-, -, hlong⟩ := (step_breakdown_iff hst).mp hstep
    exact ⟨n, c', hsteps, Config.callsLongInteger_iff.mpr ⟨st, q, hqueue, hlong⟩⟩
  · rintro ⟨n, c', hsteps, hcalls⟩
    obtain ⟨st, q, hqueue, hlong⟩ := Config.callsLongInteger_iff.mp hcalls
    have hfails : Fails c' (.breakdown .integerTooLong) c'.world :=
      ⟨st, q, hqueue, step_of_callsLongInteger hlong⟩
    have hrun := run_eq_failed_iff.mpr ⟨n, Nat.lt_succ_self n, c', hsteps, hfails⟩
    exact ⟨n + 1, .integerTooLong, congrArg Prod.fst hrun⟩

theorem behaves_fails_iff {log : Option Log} {v : Value} {q : Queue} {x : World} :
    Behaves log v q w (.fails f x) ↔
      ∃ fuel w', w'.withoutJournal = x ∧ run log fuel v q w = (.failed f, w') := by
  constructor
  · rintro ⟨bound, h⟩
    have hbound := h bound le_rfl
    match hrun : run log bound v q w with
    | (.done u, w') | (.outOfFuel, w') =>
      rw [hrun] at hbound
      cases hbound
    | (.failed g, w') =>
      rw [hrun] at hbound
      cases hbound
      exact ⟨bound, w', rfl, hrun⟩
  · rintro ⟨fuel, w', rfl, hrun⟩
    have hstops : (run log fuel v q w).1 ≠ .outOfFuel := by
      intro hout
      rw [hrun] at hout
      cases hout
    have hbehaves := behaves_of_run hstops
    rwa [hrun] at hbehaves

end Machine

/-! ## Evaluations one after the other -/

namespace Session

/-- A session in which nothing was done but to evaluate texts, one after the other. Some of them may
not have been read, some have failed, and some have been broken off after so many steps. -/
inductive Evaluated : Session → Prop where
  | fresh : Evaluated fresh
  | eval {s : Session} (hs : Evaluated s) (fuel : Nat) (source : String) :
    Evaluated (s.eval none fuel source).2

theorem Evaluated.codeIn {s : Session} (hs : s.Evaluated) :
    s.world.CodeIn Machine.Writable := by
  induction hs with
  | fresh => exact World.fresh_codeIn _
  | @eval s _ fuel source ih =>
    cases hparse : parse source with
    | error f =>
      rw [Session.eval, hparse]
      exact ih
    | ok program =>
      rw [eval_of_parse hparse]
      have hcode := Machine.codeIn_ofProgram (isWritable_of_parse hparse) ih World.globalFrame
      exact hcode.run Machine.hereditary_writable fuel

variable {s : Session} {source : String} {program : List Expr}

/-- **Evaluations fail in few ways.** In a session in which texts were evaluated one after the
other, the evaluation of a text that was read returns a value, fails or goes on forever. It fails
with one of five classes of errors, or breaks down. It breaks down exactly if it comes to a call
with an integer of more than `Numeral.maxDigits` digits in the place of the function. And carried
out operation by operation it snags on nothing but these faults. -/
theorem evaluations_fail_in_few_ways (hs : s.Evaluated) (hparse : parse source = .ok program) :
    (∃! b, s.Evaluates none source b) ∧
    (∀ f w, s.Evaluates none source (.fails f w) → f.IsOfRun) ∧
    ((∃ b w, s.Evaluates none source (.fails (.breakdown b) w)) ↔
      ∃ n c, Machine.Steps n (.ofProgram program World.globalFrame s.world) c ∧
        c.CallsLongInteger) ∧
    ∀ fuel snag b, (Machine.Operations.runQueue fuel .undefined).run
        ⟨Queue.ofProgram program World.globalFrame, s.world⟩ = .error snag b →
      ∃ f, snag = .fault f ∧ s.Evaluates none source (.fails f b.world.withoutJournal) := by
  simp only [evaluates_iff_behaves hparse]
  have hcode := Machine.codeIn_ofProgram (isWritable_of_parse hparse) hs.codeIn World.globalFrame
  refine ⟨?_, ?_, ?_, ?_⟩
  · obtain ⟨b, hb⟩ := Machine.exists_behaves none .undefined
      (Queue.ofProgram program World.globalFrame) s.world
    exact ⟨b, hb, fun b' hb' ↦ hb'.unique hb⟩
  · intro f w h
    obtain ⟨fuel, w', -, hrun⟩ := Machine.behaves_fails_iff.mp h
    exact Machine.isOfRun_of_run (c := .ofProgram program World.globalFrame s.world) hrun
  · rw [← Machine.run_breakdown_iff hcode]
    constructor
    · rintro ⟨b, w, h⟩
      obtain ⟨fuel, w', -, hrun⟩ := Machine.behaves_fails_iff.mp h
      exact ⟨fuel, b, congrArg Prod.fst hrun⟩
    · rintro ⟨fuel, b, hrun⟩
      exact ⟨b, _, Machine.behaves_fails_iff.mpr ⟨fuel, _, rfl, Prod.ext hrun rfl⟩⟩
  · intro fuel snag b h
    obtain ⟨f, hsnag, -, hrun⟩ := Machine.Operations.run_runQueue_eq_error_iff.mp h
    exact ⟨f, hsnag, Machine.behaves_fails_iff.mpr ⟨fuel, _, rfl, hrun⟩⟩

theorem evaluations_fail_in_few_ways_longCall :
    let s := (fresh.eval none 4 "(define x 2)").2
    ∃ n c, Machine.Steps n (.ofProgram longCall World.globalFrame s.world) c ∧
      c.CallsLongInteger := by
  intro s
  have hs : s.Evaluated := .eval .fresh 4 "(define x 2)"
  have hparse : parse "(((lambda (q) (q (q (q 100000)))) (lambda (x) (* x x x x x x x x x x))))"
      = .ok longCall := parse_of_toOption (by decide +kernel)
  have hrun : (Machine.run none 200 .undefined (Queue.ofProgram longCall World.globalFrame)
      s.world).1 = .failed (.breakdown .integerTooLong) := by decide +kernel
  have hfails := Machine.behaves_fails_iff.mpr ⟨200, _, rfl, Prod.ext hrun rfl⟩
  exact (evaluations_fail_in_few_ways hs hparse).2.2.1.mp
    ⟨.integerTooLong, _, (evaluates_iff_behaves hparse).mpr hfails⟩

end Session

end Interleave

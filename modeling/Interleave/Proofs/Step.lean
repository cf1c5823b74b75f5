import Interleave.Machine

/-!
# What a step of the machine does

`Machine.Stepped` lists the cases of a step, each with its condition and its result, and
`stepped_step` says that there are no others. What steps preserve is shown by these cases.

- `step_effect`: a step changes at most one frame and at most one record of a call, each by adding
  to its end. A frame is changed by a definition in it, and a record by joining a value to it.
- `step_error`: a step that fails changes nothing but the journal.

## Why the cases are listed

`Machine.step` branches on the step, then on what is found in the world, then on the function that
is applied. An invariant that unfolds it has to go through all of that. With the cases listed once
each invariant is shown case by case, and those that change nothing relevant are closed at once.

## Traced steps

A step of a run is shown to the log before it is taken. What the log takes shows in the journal and
nowhere else, and where it breaks off nothing has happened (`Machine.takeStep_cases`). Whatever a
log does about steps, it reports no failures.
-/

namespace Interleave

/-! ## Primitives that refuse their arguments -/

namespace Primitive

theorem integers_eq_error {name : String} {vs : List Value} {f : Fault}
    (h : integers name vs = .error f) :
    ∃ v : Value, f = .program (.kind (.notInteger name v.display)) := by
  induction vs generalizing f with
  | nil => cases h
  | cons v vs ih =>
    cases v with
    | int n =>
      rw [integers] at h
      cases hvs : integers name vs with
      | ok ns => rw [hvs] at h; cases h
      | error g =>
        rw [hvs] at h
        cases h
        exact ih hvs
    | bool | str | undefined | primitive | closure =>
      cases h
      exact ⟨_, rfl⟩

theorem result_eq_error {p : Primitive} {vs : List Value} {f : Fault}
    (h : p.result vs = .error f) :
    ∃ v : Value, f = .program (.kind (.notInteger p.name v.display)) := by
  cases p with
  | equal | print => cases h
  | add | sub | mul =>
    rw [result] at h
    cases hns : integers _ vs with
    | ok ns => rw [hns] at h; cases h
    | error g =>
      rw [hns] at h
      cases h
      exact integers_eq_error hns

/-- A primitive that refuses its arguments does nothing. There are too few of them, or one of them
is no integer. -/
theorem call_eq_error {p : Primitive} {vs : List Value} {f : Fault} {w w' : World}
    (h : p.call vs w = (.error f, w')) :
    w' = w ∧ (f = .program (.arity (.primitive p.name p.leastArguments vs.length)) ∨
      ∃ v : Value, f = .program (.kind (.notInteger p.name v.display))) := by
  rw [call, checkArity] at h
  by_cases harity : vs.length < p.leastArguments
  · simp only [harity, if_true] at h
    cases h
    exact ⟨rfl, .inl rfl⟩
  · simp only [harity, if_false] at h
    cases hr : p.result vs with
    | ok u => rw [hr] at h; cases h
    | error g =>
      rw [hr] at h
      cases h
      exact ⟨rfl, .inr (result_eq_error hr)⟩

end Primitive

namespace Machine

/-! ## The cases of a step -/

theorem callSteps_ne_nil {frame : FrameId} {c : CallId} {es : List Expr} :
    callSteps frame c es ≠ [] :=
  List.append_ne_nil_of_right_ne_nil _ (List.cons_ne_nil _ _)

/-- The step goes on with an expression in a frame. A branch goes on with one of its expressions,
as the current value says. -/
inductive Proceeds (v : Value) : Step → Expr → FrameId → Prop where
  | evaluate (e : Expr) (frame : FrameId) : Proceeds v (.evaluate e frame) e frame
  | consequent {t : Expr} {a : Option Expr} {frame : FrameId} (hv : v.isFalse = false) :
    Proceeds v (.branch t a frame) t frame
  | alternative {t e : Expr} {frame : FrameId} (hv : v.isFalse = true) :
    Proceeds v (.branch t (some e) frame) e frame

/-- What can come of a step. -/
inductive Stepped (st : Step) (v : Value) (q : Queue) (w : World) :
    Except Fault (Value × Queue) × World → Prop where
  /-- A number is given by a step of its own. -/
  | number {n : Int} {frame : FrameId} (hst : Proceeds v st (.number n) frame) :
    Stepped st v q w (.ok (.undefined, .literal (.int n) :: q), w)
  /-- A string is given by a step of its own. -/
  | string {t : String} {frame : FrameId} (hst : Proceeds v st (.string t) frame) :
    Stepped st v q w (.ok (.undefined, .literal (.str t) :: q), w)
  /-- A name is looked up by a step of its own. -/
  | name {x : String} {frame : FrameId} (hst : Proceeds v st (.reference x) frame) :
    Stepped st v q w (.ok (.undefined, .reference x frame :: q), w)
  /-- A call begins. -/
  | call {es : List Expr} {frame : FrameId} (hst : Proceeds v st (.compound es) frame)
    (hform : Expr.specialForm? es = none) :
    Stepped st v q w
      (.ok (.undefined, callSteps frame w.calls.size es ++ q), (w.newCall []).2)
  /-- A special form is taken apart. -/
  | form {es parts : List Expr} {frame : FrameId} {k : SpecialForm} {fm : Form}
    (hst : Proceeds v st (.compound es) frame) (hform : Expr.specialForm? es = some (k, parts))
    (hparts : Form.ofParts k parts = .ok fm) :
    Stepped st v q w (.ok (.undefined, formSteps frame fm ++ q), w.note (.expanding k))
  /-- A special form is malformed. -/
  | malformed {es parts : List Expr} {frame : FrameId} {k : SpecialForm} {f : Fault}
    (hst : Proceeds v st (.compound es) frame) (hform : Expr.specialForm? es = some (k, parts))
    (hparts : Form.ofParts k parts = .error f) :
    Stepped st v q w (.error f, w.note (.expanding k))
  /-- A false condition leaves nothing to evaluate. -/
  | nothing {t : Expr} {frame : FrameId} (hst : st = .branch t none frame)
    (hv : v.isFalse = true) : Stepped st v q w (.ok (.undefined, q), w)
  /-- A literal gives its value. -/
  | literal {u : Value} (hst : st = .literal u) : Stepped st v q w (.ok (u, q), w)
  /-- A name has a value. -/
  | found {x : String} {frame : FrameId} {u : Value} (hst : st = .reference x frame)
    (hx : w.lookup frame x = .ok u) : Stepped st v q w (.ok (u, q), w)
  /-- A name has no value. -/
  | unbound {x : String} {frame : FrameId} (hst : st = .reference x frame)
    (hx : w.lookup frame x = .error (.program (.unbound x))) :
    Stepped st v q w (.error (.program (.unbound x)), w)
  /-- The current value joins a record. -/
  | joined {c : CallId} (hst : st = .join c) : Stepped st v q w (.ok (v, q), w.collect c v)
  /-- There is nothing to apply. -/
  | emptyCall {c : CallId} {frame : FrameId} (hst : st = .apply c frame)
    (hc : w.collected c = []) : Stepped st v q w (.error (.program (.notCallable none)), w)
  /-- A primitive gives its value. -/
  | primitive {c : CallId} {frame : FrameId} {p : Primitive} {args : List Value} {u : Value}
    {w' : World} (hst : st = .apply c frame) (hc : w.collected c = .primitive p :: args)
    (hcall : p.call args w = (.ok u, w')) : Stepped st v q w (.ok (u, q), w')
  /-- A primitive refuses its arguments. -/
  | refused {c : CallId} {frame : FrameId} {p : Primitive} {args : List Value} {f : Fault}
    (hst : st = .apply c frame) (hc : w.collected c = .primitive p :: args)
    (hcall : p.call args w = (.error f, w)) : Stepped st v q w (.error f, w)
  /-- The body of a closure comes next. -/
  | entered {c : CallId} {frame : FrameId} {cl : Closure} {args : List Value}
    (hst : st = .apply c frame) (hc : w.collected c = .closure cl :: args)
    (hargs : args.length = cl.params.length) :
    Stepped st v q w (.ok (.undefined, Queue.ofProgram cl.body w.frames.size ++ q),
      (w.newFrame (some cl.frame) (Bindings.ofPairs (cl.params.zip args))).2)
  /-- A closure has another number of parameters. -/
  | miscounted {c : CallId} {frame : FrameId} {cl : Closure} {args : List Value}
    (hst : st = .apply c frame) (hc : w.collected c = .closure cl :: args)
    (hargs : args.length ≠ cl.params.length) :
    Stepped st v q w (.error (.program (.arity (.closure cl.params.length args.length))), w)
  /-- What is called is no function. -/
  | notFunction {c : CallId} {frame : FrameId} {fn : Value} {args : List Value}
    (hst : st = .apply c frame) (hc : w.collected c = fn :: args)
    (hprimitive : ∀ p, fn ≠ .primitive p) (hclosure : ∀ cl, fn ≠ .closure cl) :
    Stepped st v q w (.error (.ofCallee fn), w)
  /-- A name is defined. -/
  | defined {x : String} {frame : FrameId} (hst : st = .define x frame)
    (hx : w.binds frame x = false) :
    Stepped st v q w (.ok (.undefined, q), (w.bind frame x v).note (.defined x))
  /-- A name is defined already. -/
  | duplicate {x : String} {frame : FrameId} (hst : st = .define x frame)
    (hx : w.binds frame x = true) : Stepped st v q w (.error (.program (.alreadyDefined x)), w)
  /-- A closure is made. -/
  | closure {params : List String} {body : List Expr} {frame : FrameId}
    (hst : st = .closure params body frame) :
    Stepped st v q w (.ok ((w.newClosure params body frame).1, q),
      (w.newClosure params body frame).2)

section Cases

variable {st : Step} {v : Value} {q : Queue} {w : World}

theorem stepped_proceed {e : Expr} {frame : FrameId} (hst : Proceeds v st e frame) :
    Stepped st v q w (proceed e frame q w) := by
  cases e with
  | number n => exact .number hst
  | string t => exact .string hst
  | reference x => exact .name hst
  | compound es =>
    cases hform : Expr.specialForm? es with
    | none =>
      simp only [proceed, expand, hform]
      exact .call hst hform
    | some kp =>
      obtain ⟨k, parts⟩ := kp
      simp only [proceed, expand, hform]
      cases hparts : Form.ofParts k parts with
      | error f => exact .malformed hst hform hparts
      | ok fm => exact .form hst hform hparts

theorem stepped_apply {c : CallId} {frame : FrameId} {fn : Value} {args : List Value}
    (hst : st = .apply c frame) (hc : w.collected c = fn :: args) :
    Stepped st v q w (apply fn args q w) := by
  cases fn with
  | int n => exact .notFunction hst hc (by simp) (by simp)
  | bool b => exact .notFunction hst hc (by simp) (by simp)
  | str t => exact .notFunction hst hc (by simp) (by simp)
  | undefined => exact .notFunction hst hc (by simp) (by simp)
  | primitive p =>
    rw [apply]
    rcases hcall : p.call args w with ⟨f | u, w'⟩
    · obtain ⟨rfl, -⟩ := Primitive.call_eq_error hcall
      exact .refused hst hc hcall
    · exact .primitive hst hc hcall
  | closure cl =>
    rw [apply, bindArguments]
    by_cases hargs : args.length = cl.params.length
    · simp only [hargs, if_true]
      exact .entered hst hc hargs
    · simp only [hargs, if_false]
      exact .miscounted hst hc hargs

theorem stepped_step (st : Step) (v : Value) (q : Queue) (w : World) :
    Stepped st v q w (step st v q w) := by
  cases st with
  | evaluate e frame => exact stepped_proceed (.evaluate e frame)
  | literal u => exact .literal rfl
  | reference x frame =>
    rw [step]
    cases hx : w.lookup frame x with
    | ok u => exact .found rfl hx
    | error f =>
      -- a look-up fails in one way only
      have hf : f = .program (.unbound x) := by
        rw [World.lookup] at hx
        split at hx <;> cases hx
        rfl
      subst hf
      exact .unbound rfl hx
  | join c => exact .joined rfl
  | apply c frame =>
    rw [step]
    cases hc : w.collected c with
    | nil => exact .emptyCall rfl hc
    | cons fn args => exact stepped_apply rfl hc
  | branch t a frame =>
    by_cases hv : v.isFalse = true
    · cases a with
      | none =>
        rw [step, if_pos hv]
        exact .nothing rfl hv
      | some e =>
        rw [step, if_pos hv]
        exact stepped_proceed (.alternative hv)
    · rw [step.eq_def]
      simp only [hv, Bool.false_eq_true, if_false]
      exact stepped_proceed (.consequent (by rwa [Bool.not_eq_true] at hv))
  | define x frame =>
    rw [step, World.define]
    by_cases hx : w.binds frame x = true
    · simp only [hx, if_true]
      exact .duplicate rfl hx
    · rw [Bool.not_eq_true] at hx
      simp only [hx, Bool.false_eq_true, if_false]
      exact .defined rfl hx
  | closure params body frame => exact .closure rfl

theorem stepped_of_step {r : Except Fault (Value × Queue) × World} (h : step st v q w = r) :
    Stepped st v q w r :=
  h ▸ stepped_step st v q w

end Cases

/-! ## What changes in the world -/

/-- What is left of the world after a step: frames and records of calls only grow at their ends. -/
structure Effect (st : Step) (v : Value) (w w' : World) : Prop where
  /-- A frame is as it was, or the step defined a name in it that it did not bind. -/
  frame : ∀ {f : FrameId} {F : Frame}, w.frames[f]? = some F →
    w'.frames[f]? = some F ∨
      ∃ x, st = .define x f ∧ F.binds x = false ∧ w'.frames[f]? = some (F.push x v)
  /-- A record is as it was, or the step joined the current value to it. -/
  call : ∀ {c : CallId} {vs : List Value}, w.calls[c]? = some vs →
    w'.calls[c]? = some vs ∨ st = .join c ∧ w'.calls[c]? = some (vs ++ [v])
  /-- Closures are counted upward. -/
  closures_le : w.closures ≤ w'.closures
  /-- Printed texts stay printed. -/
  printed : ∃ texts, w'.printed = w.printed ++ texts

section Effects

variable {st : Step} {v : Value} {q : Queue} {w w' : World}

theorem Effect.of_eq (hframes : w'.frames = w.frames) (hcalls : w'.calls = w.calls)
    (hclosures : w.closures ≤ w'.closures) (hprinted : w'.printed = w.printed) :
    Effect st v w w' where
  frame hf := .inl (by rwa [hframes])
  call hc := .inl (by rwa [hcalls])
  closures_le := hclosures
  printed := ⟨#[], by rw [hprinted, Array.append_empty]⟩

theorem Effect.refl : Effect st v w w := .of_eq rfl rfl (Nat.le_refl _) rfl

theorem call_ok {p : Primitive} {args : List Value} {u : Value}
    (h : p.call args w = (.ok u, w')) :
    p.result args = .ok u ∧ w' = p.effect args w := by
  rw [Primitive.call] at h
  split at h
  · cases h
  · split at h
    · cases h
    · rename_i hr
      cases h
      exact ⟨hr, rfl⟩

theorem result_eq_ok {p : Primitive} {args : List Value} {u : Value} (h : p.result args = .ok u) :
    (∃ n, u = .int n) ∨ (∃ b, u = .bool b) ∨ u = .undefined := by
  have harith : ∀ {name : String} {g : List Int → Int},
      (Primitive.integers name args).map (fun ns ↦ Value.int (g ns)) = .ok u → ∃ n, u = .int n := by
    intro name g hm
    cases hi : Primitive.integers name args with
    | error f => rw [hi] at hm; cases hm
    | ok ns => rw [hi] at hm; cases hm; exact ⟨_, rfl⟩
  cases p with
  | add => exact .inl (harith h)
  | sub => exact .inl (harith h)
  | mul => exact .inl (harith h)
  | equal => cases h; exact .inr (.inl ⟨_, rfl⟩)
  | print => cases h; exact .inr (.inr rfl)

theorem effect_call {p : Primitive} {args : List Value} {u : Value}
    (h : p.call args w = (.ok u, w')) : Effect st v w w' := by
  obtain ⟨-, rfl⟩ := call_ok h
  cases p with
  | print =>
    exact ⟨.inl, .inl, Nat.le_refl _, #[Primitive.printedLine args], Array.push_eq_append⟩
  | add => exact .refl
  | sub => exact .refl
  | mul => exact .refl
  | equal => exact .refl

theorem effect_newCall (vs : List Value) : Effect st v w (w.newCall vs).2 where
  frame := .inl
  call hc := by
    obtain ⟨hlt, -⟩ := Array.getElem?_eq_some_iff.mp hc
    rw [World.newCall, Array.getElem?_push_lt hlt, ← Array.getElem?_eq_getElem hlt]
    exact .inl hc
  closures_le := Nat.le_refl _
  printed := ⟨#[], Array.append_empty.symm⟩

theorem effect_newFrame (outer : Option FrameId) (bs : Bindings) :
    Effect st v w (w.newFrame outer bs).2 where
  frame hf := by
    obtain ⟨hlt, -⟩ := Array.getElem?_eq_some_iff.mp hf
    rw [World.newFrame, Array.getElem?_push_lt hlt, ← Array.getElem?_eq_getElem hlt]
    exact .inl hf
  call := .inl
  closures_le := Nat.le_refl _
  printed := ⟨#[], Array.append_empty.symm⟩

theorem effect_collect (c : CallId) : Effect (.join c) v w (w.collect c v) where
  frame := .inl
  call {d vs} hd := by
    rw [World.collect, Array.getElem?_modify]
    by_cases hcd : c = d
    · subst hcd
      rw [if_pos rfl, hd]
      exact .inr ⟨rfl, rfl⟩
    · rw [if_neg hcd]
      exact .inl hd
  closures_le := Nat.le_refl _
  printed := ⟨#[], Array.append_empty.symm⟩

theorem effect_bind {frame : FrameId} {x : String} (hx : w.binds frame x = false) :
    Effect (.define x frame) v w ((w.bind frame x v).note (.defined x)) where
  frame {f F} hf := by
    rw [World.note, World.bind, Array.getElem?_modify]
    by_cases hfr : frame = f
    · subst hfr
      rw [World.binds, hf, Option.any_some] at hx
      rw [if_pos rfl, hf]
      exact .inr ⟨x, rfl, hx, rfl⟩
    · rw [if_neg hfr]
      exact .inl hf
  call := .inl
  closures_le := Nat.le_refl _
  printed := ⟨#[], Array.append_empty.symm⟩

/-- **The effect of a step**, whether it fails or not. -/
theorem step_effect {r : Except Fault (Value × Queue)} (h : step st v q w = (r, w')) :
    Effect st v w w' := by
  cases stepped_of_step h with
  | call => exact effect_newCall []
  | form => exact .of_eq rfl rfl (Nat.le_refl _) rfl
  | malformed => exact .of_eq rfl rfl (Nat.le_refl _) rfl
  | joined hst => subst hst; exact effect_collect _
  | primitive hst hc hcall => exact effect_call hcall
  | entered => exact effect_newFrame _ _
  | defined hst hx => subst hst; exact effect_bind hx
  | closure => exact .of_eq rfl rfl (Nat.le_succ _) rfl
  | number | string | name | nothing | literal | found | unbound | emptyCall | refused
  | miscounted | notFunction | duplicate => exact .refl

/-- A step that fails leaves the world as it was, but for the journal. -/
theorem step_error {f : Fault} (h : step st v q w = (.error f, w')) :
    ∃ journal, w' = { w with journal } := by
  cases stepped_of_step h with
  | malformed => exact ⟨_, rfl⟩
  | unbound | emptyCall | refused | miscounted | notFunction | duplicate => exact ⟨_, rfl⟩

end Effects

end Machine

/-! ## Reports -/

/-- The failure that a note reports to a handler, if it is such a note. -/
def Note.report? : Note → Option (Nat × ProgramError)
  | .reported id e => some (id, e)
  | .expanding _ | .defined _ | .step .. | .spawned .. | .turn .. | .retired .. | .failed .. => none

/-- The failures that handlers were told of, in order: the threads that failed and their errors. -/
def World.reports (w : World) : List (Nat × ProgramError) :=
  w.journal.toList.filterMap Note.report?

theorem World.reports_note (w : World) (n : Note) :
    (w.note n).reports = w.reports ++ n.report?.toList := by
  rw [reports, note, Array.toList_push, List.filterMap_append, reports]
  cases h : n.report? <;> simp [h]

/-- Steps report nothing. -/
theorem Machine.step_reports {st : Step} {v : Value} {q : Queue} {w w' : World}
    {r : Except Fault (Value × Queue)} (h : step st v q w = (r, w')) : w'.reports = w.reports := by
  cases stepped_of_step h with
  | form | malformed => exact (World.reports_note _ _).trans (List.append_nil _)
  | defined => exact (World.reports_note _ _).trans (List.append_nil _)
  | primitive hst hc hcall =>
    obtain ⟨-, rfl⟩ := call_ok hcall
    rw [Primitive.effect.eq_def]
    split <;> rfl
  | call | number | string | name | nothing | literal | found | unbound | joined | emptyCall
  | refused | entered | miscounted | notFunction | duplicate | closure => rfl

/-! ## Traced steps -/

section Traced

variable {log : Option Log} {n : Note} {w w' : World}

theorem World.eq_or_eq_note_of_trace (h : w.trace log n = .ok w') : w' = w ∨ w' = w.note n := by
  cases log with
  | none =>
    cases h
    exact .inl rfl
  | some log =>
    rw [trace] at h
    split at h
    · cases h
      exact .inr rfl
    · cases h

theorem World.exists_journal_of_trace (h : w.trace log n = .ok w') :
    ∃ journal, w' = { w with journal } := by
  rcases eq_or_eq_note_of_trace h with rfl | rfl
  · exact ⟨w'.journal, rfl⟩
  · exact ⟨_, rfl⟩

theorem World.reports_of_trace (hn : n.report? = none) (h : w.trace log n = .ok w') :
    w'.reports = w.reports := by
  rcases eq_or_eq_note_of_trace h with rfl | rfl
  · rfl
  · rw [reports_note, hn]
    exact List.append_nil _

/-- A step of a run is traced and then taken, or the log breaks off and nothing has happened. -/
theorem Machine.takeStep_cases {st : Step} {v : Value} {q : Queue}
    {r : Except Fault (Value × Queue)} (h : takeStep log st v q w = (r, w')) :
    (∃ b, w.trace log (.step st v q.length) = .error b ∧ r = .error (.breakdown b) ∧ w' = w) ∨
      ∃ x, w.trace log (.step st v q.length) = .ok x ∧ step st v q x = (r, w') := by
  rw [takeStep] at h
  cases htrace : w.trace log (.step st v q.length) with
  | error b =>
    rw [htrace] at h
    cases h
    exact .inl ⟨b, rfl, rfl, rfl⟩
  | ok x =>
    rw [htrace] at h
    exact .inr ⟨x, rfl, h⟩

theorem Machine.takeStep_reports {st : Step} {v : Value} {q : Queue}
    {r : Except Fault (Value × Queue)} (h : takeStep log st v q w = (r, w')) :
    w'.reports = w.reports := by
  rcases takeStep_cases h with ⟨b, -, -, rfl⟩ | ⟨x, htrace, hstep⟩
  · rfl
  · rw [step_reports hstep, World.reports_of_trace rfl htrace]

end Traced

end Interleave

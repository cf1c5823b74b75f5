import Interleave.Proofs.History
import Interleave.Proofs.Writable
import Interleave.Session.Basic

/-!
# Steps in place

`Machine.step` says what comes of a step as a whole. Here a step is a sequence of operations on a
queue and a world that are changed in place: lists are taken apart, checks are made, frames and
records are written, steps are put in front of the queue, and whatever was changed before an
operation that cannot be carried out stays changed. Operations also snag where they should never be
attempted, such as on the first of no arguments.

* `Operations.take_eq`: in place as well as taken as a whole, a step comes to the same. So its
  operations snag on faults only, and one that fails has not touched its queue.
* `failing_steps_have_no_effect`: a step that fails changes neither the queue nor the world, and
  from the thread that takes it only the step itself is gone.

## Why a second description

Taken as a whole, a step that fails returns no queue, so there is nothing to say about what it has
done to it. In place there is: the workbench is there after a failure too, in whatever state it was
left. That the two descriptions agree is what makes the statement about failing steps one about the
order of their checks and changes. The operations follow that order one for one.
-/

namespace Interleave

namespace Machine

/-! ## Operations -/

/-- What a step changes in place. -/
structure Workbench where
  /-- The steps behind the one that is taken. -/
  queue : Queue
  /-- What programs share. -/
  world : World

/-- Why an operation cannot be carried out. -/
inductive Snag where
  /-- A check found a fault. -/
  | fault (f : Fault)
  /-- A list was to be taken apart that has not the length for it. -/
  | mismatch
  /-- A value was to be read where there is none. -/
  | missing
  /-- A value was to be calculated with that is no integer. -/
  | notInteger
  deriving DecidableEq

/-- Operations one after the other, up to the first that cannot be carried out. -/
abbrev Operations := EStateM Snag Workbench

namespace Operations

variable {α : Type}

def fail (f : Fault) : Operations α :=
  throw (.fault f)

/-- Takes a list apart into its first element and the others. -/
def uncons : List α → Operations (α × List α)
  | a :: as => pure (a, as)
  | [] => throw .mismatch

def unpair : List α → Operations (α × α)
  | [a, b] => pure (a, b)
  | _ => throw .mismatch

def require : Option α → Operations α
  | some a => pure a
  | none => throw .missing

def integer : Value → Operations Int
  | .int n => pure n
  | _ => throw .notInteger

def onWorld (g : World → α × World) : Operations α :=
  modifyGet fun b ↦ ((g b.world).1, { b with world := (g b.world).2 })

def read (g : World → α) : Operations α :=
  onWorld fun w ↦ (g w, w)

def change (g : World → World) : Operations Unit :=
  onWorld fun w ↦ ((), g w)

def prepend (steps : List Step) : Operations Unit :=
  modify fun b ↦ { b with queue := steps ++ b.queue }

/-! ### Special forms -/

def addParameter (names : List String) : Expr → Operations (List String)
  | .reference x =>
    if x ∈ names then fail (.program (.kind (.repeatedParameter x))) else pure (names ++ [x])
  | e => fail (Form.wrongKind .parameterName e)

/-- Takes a special form apart and puts its steps in front. -/
def expandForm (frame : FrameId) (parts : List Expr) : SpecialForm → Operations Unit
  | .conditional => do
    if parts.length ≠ 2 ∧ parts.length ≠ 3 then
      fail (.program (.arity (.conditional (some parts.length))))
    let (condition, rest) ← uncons parts
    let (consequent, rest) ← uncons rest
    let alternative ← if rest.isEmpty then pure none else (some ·.1) <$> uncons rest
    prepend [.evaluate condition frame, .branch consequent alternative frame]
  | .definition => do
    if parts.length ≠ 2 then fail (.program (.arity .definition))
    let (name, value) ← unpair parts
    match name with
    | .reference x => prepend [.evaluate value frame, .define x frame]
    | e => fail (Form.wrongKind .definedName e)
  | .lambda => do
    if parts.length < 2 then fail (.program (.arity .lambda))
    let (params, body) ← uncons parts
    match params with
    | .compound es => prepend [.closure (← es.foldlM addParameter []) body frame]
    | e => fail (Form.wrongKind .parameterList e)

def expand (e : Expr) (frame : FrameId) : Operations Unit :=
  match e with
  | .number n => prepend [.literal (.int n)]
  | .string s => prepend [.literal (.str s)]
  | .reference x => prepend [.reference x frame]
  | .compound es =>
    match Expr.specialForm? es with
    | some (form, parts) => do
      change (·.note (.expanding form))
      expandForm frame parts form
    | none => do
      let call ← onWorld (·.newCall [])
      prepend (callSteps frame call es)

/-! ### Calls -/

def checkIntegers (name : String) (vs : List Value) : Operations Unit :=
  vs.forM fun
    | .int _ => pure ()
    | v => fail (.program (.kind (.notInteger name v.display)))

def calculate (op : Int → Int → Int) (start : Int) (vs : List Value) : Operations Value := do
  return .int (← vs.foldlM (fun n v ↦ return op n (← integer v)) start)

def evaluatePrimitive (args : List Value) : Primitive → Operations Value
  | .add => do
    checkIntegers Primitive.add.name args
    calculate (· + ·) 0 args
  | .sub => do
    checkIntegers Primitive.sub.name args
    let (first, rest) ← uncons args
    calculate (· - ·) (← integer first) rest
  | .mul => do
    checkIntegers Primitive.mul.name args
    calculate (· * ·) 1 args
  | .equal => do
    let (first, rest) ← uncons args
    return .bool (rest.all first.same)
  | .print => do
    change (·.print (Primitive.printedLine args))
    return .undefined

def callPrimitive (p : Primitive) (args : List Value) : Operations Value := do
  if args.length < p.leastArguments then
    fail (.program (.arity (.primitive p.name p.leastArguments args.length)))
  evaluatePrimitive args p

/-- Defines a name in a frame. -/
def define (frame : FrameId) (x : String) (v : Value) : Operations Unit := do
  if ← read (·.binds frame x) then fail (.program (.alreadyDefined x))
  change (·.bind frame x v)

/-- Calls a closure. The parameters are defined in the new frame like any other names. -/
def callClosure (c : Closure) (args : List Value) : Operations Value := do
  if args.length ≠ c.params.length then
    fail (.program (.arity (.closure c.params.length args.length)))
  let frame ← onWorld (·.newFrame (some c.frame) [])
  (Bindings.ofPairs (c.params.zip args)).forM fun b ↦ define frame b.1 b.2
  prepend (Queue.ofProgram c.body frame)
  return .undefined

/-! ### Steps -/

/-- Looks a name up. -/
def lookup (frame : FrameId) (x : String) : Operations Value := do
  match ← read (·.find? frame x) with
  | none => fail (.program (.unbound x))
  | some g => require (← read fun w ↦ w.frames[g]?.bind (·.value? x))

def proceed (e : Expr) (frame : FrameId) : Operations Value := do
  expand e frame
  return .undefined

/-- Takes a step, with the current value. -/
def take (st : Step) (current : Value) : Operations Value :=
  match st with
  | .evaluate e frame => proceed e frame
  | .literal v => return v
  | .reference x frame => lookup frame x
  | .join call => do
    change (·.collect call current)
    return current
  | .apply call _ => do
    let collected ← read (·.collected call)
    if collected.isEmpty then fail (.program (.notCallable none))
    let (fn, args) ← uncons collected
    match fn with
    | .primitive p => callPrimitive p args
    | .closure c => callClosure c args
    | v => fail (.ofCallee v)
  | .branch consequent alternative frame =>
    if current.isFalse then
      match alternative with
      | some e => proceed e frame
      | none => return .undefined
    else proceed consequent frame
  | .define x frame => do
    define frame x current
    change (·.note (.defined x))
    return .undefined
  | .closure params body frame => onWorld (·.newClosure params body frame)

/-! ## What the operations come to -/

section Binding

variable {β : Type} {x : Operations α} {g : α → Operations β} {b b' : Workbench}

theorem run_bind_of_ok {a : α} (h : x.run b = .ok a b') : (x >>= g).run b = (g a).run b' := by
  change EStateM.bind x g b = _
  rw [EStateM.bind]
  rw [EStateM.run] at h
  rw [h]
  rfl

theorem run_bind_of_error {e : Snag} (h : x.run b = .error e b') :
    (x >>= g).run b = .error e b' := by
  change EStateM.bind x g b = _
  rw [EStateM.bind]
  rw [EStateM.run] at h
  rw [h]

theorem run_read_bind (f : World → α) : (read f >>= g).run b = (g (f b.world)).run b :=
  rfl

end Binding

/-- The result of a check, or the fault that it found. -/
def ofExcept : Except Fault α → Operations α
  | .ok a => pure a
  | .error f => fail f

/-- What comes of a step that is taken as a whole. One that fails leaves the queue that it found. -/
def outcome (q : Queue) :
    Except Fault (Value × Queue) × World → EStateM.Result Snag Workbench Value
  | (.ok (v, q'), w) => .ok v ⟨q', w⟩
  | (.error f, w) => .error (.fault f) ⟨q, w⟩

theorem foldlM_addParameter (es : List Expr) (names : List String) :
    es.foldlM addParameter names = ofExcept (Form.parameterNames names es) := by
  fun_induction Form.parameterNames names es with
  | case1 => rfl
  | case2 names x es hx =>
    rw [List.foldlM_cons, addParameter, if_pos hx]
    rfl
  | case3 names x es hx ih =>
    rw [List.foldlM_cons, addParameter, if_neg hx]
    exact ih
  | case4 names e es he =>
    rw [List.foldlM_cons, addParameter.eq_2 _ _ he]
    rfl

/-- All checks of a special form are made before any step of it is put in front. -/
theorem expandForm_eq (frame : FrameId) (parts : List Expr) (k : SpecialForm) :
    expandForm frame parts k =
      ofExcept (Form.ofParts k parts) >>= fun fm ↦ prepend (formSteps frame fm) := by
  fun_cases Form.ofParts k parts with
  | case1 c t => rfl
  | case2 c t e => rfl
  | case3 parts h2 h3 =>
    match parts with
    | [] | [_] => rfl
    | [c, t] => exact absurd rfl (h2 c t)
    | [c, t, e] => exact absurd rfl (h3 c t e)
    | _ :: _ :: _ :: _ :: parts =>
      rw [expandForm, if_pos (by simp)]
      rfl
  | case4 x e => rfl
  | case5 e e' he =>
    cases e with
    | reference x => exact absurd rfl (he x)
    | number | string | compound => rfl
  | case6 parts h2 h3 =>
    match parts with
    | [] | [_] => rfl
    | [name, value] => exact absurd rfl (h3 name value)
    | _ :: _ :: _ :: parts =>
      rw [expandForm, if_pos (by simp)]
      rfl
  | case7 params e body =>
    rw [expandForm, if_neg (by simp)]
    cases params with
    | compound es =>
      change (es.foldlM addParameter [] >>= fun names ↦ prepend [.closure names (e :: body) frame])
        = _
      rw [foldlM_addParameter, Form.parameters]
      cases Form.parameterNames [] es <;> rfl
    | number | string | reference => rfl
  | case8 parts h =>
    match parts with
    | [] | [_] => rfl
    | _ :: _ :: parts => exact absurd rfl (h _ _ _)

theorem proceed_eq (e : Expr) (frame : FrameId) (q : Queue) (w : World) :
    (proceed e frame).run ⟨q, w⟩ = outcome q (Machine.proceed e frame q w) := by
  cases e with
  | number | string | reference => rfl
  | compound es =>
    cases hform : Expr.specialForm? es with
    | none =>
      simp only [proceed, expand, Machine.proceed, Machine.expand, hform]
      rfl
    | some kp =>
      obtain ⟨k, parts⟩ := kp
      simp only [proceed, expand, Machine.proceed, Machine.expand, hform, expandForm_eq]
      cases Form.ofParts k parts <;> rfl

theorem checkIntegers_eq (name : String) (vs : List Value) :
    checkIntegers name vs = ofExcept ((Primitive.integers name vs).map fun _ ↦ ()) := by
  induction vs with
  | nil => rfl
  | cons v vs ih =>
    cases v with
    | int n =>
      change checkIntegers name vs = _
      rw [ih, Primitive.integers]
      cases Primitive.integers name vs <;> rfl
    | bool | str | undefined | primitive | closure => rfl

theorem integers_cons_eq_ok {name : String} {v : Value} {vs : List Value} {ns : List Int}
    (h : Primitive.integers name (v :: vs) = .ok ns) :
    ∃ n ms, v = .int n ∧ ns = n :: ms ∧ Primitive.integers name vs = .ok ms := by
  cases v with
  | int n =>
    rw [Primitive.integers] at h
    cases hvs : Primitive.integers name vs with
    | error f =>
      rw [hvs] at h
      cases h
    | ok ms =>
      rw [hvs] at h
      cases h
      exact ⟨n, ms, rfl, rfl, rfl⟩
  | bool | str | undefined | primitive | closure => cases h

theorem calculate_eq (op : Int → Int → Int) (name : String) {vs : List Value} {ns : List Int}
    (h : Primitive.integers name vs = .ok ns) (start : Int) :
    calculate op start vs = pure (.int (ns.foldl op start)) := by
  induction vs generalizing start ns with
  | nil =>
    cases h
    rfl
  | cons v vs ih =>
    obtain ⟨n, ms, rfl, rfl, hvs⟩ := integers_cons_eq_ok h
    exact ih hvs (op start n)

theorem evaluatePrimitive_eq {p : Primitive} {args : List Value}
    (harity : p.leastArguments ≤ args.length) (q : Queue) (w : World) :
    (evaluatePrimitive args p).run ⟨q, w⟩ = outcome q
      ((p.result args).map (·, q), match p.result args with
        | .ok _ => p.effect args w
        | .error _ => w) := by
  cases p with
  | add | mul =>
    rw [evaluatePrimitive, checkIntegers_eq, Primitive.result]
    cases h : Primitive.integers _ args with
    | error f => rfl
    | ok ns =>
      rw [calculate_eq _ _ h]
      rfl
  | sub =>
    rw [evaluatePrimitive, checkIntegers_eq, Primitive.result]
    cases h : Primitive.integers Primitive.sub.name args with
    | error f => rfl
    | ok ns =>
      cases args with
      | nil => cases harity
      | cons v vs =>
        -- the first argument is not added up with the others but is what they are taken from
        obtain ⟨n, ms, rfl, rfl, hvs⟩ := integers_cons_eq_ok h
        change (calculate _ n vs).run ⟨q, w⟩ = _
        rw [calculate_eq _ _ hvs]
        rfl
  | equal =>
    cases args with
    | nil => cases harity
    | cons v vs => rfl
  | print => rfl

theorem callPrimitive_eq (p : Primitive) (args : List Value) (q : Queue) (w : World) :
    (callPrimitive p args).run ⟨q, w⟩ = outcome q (apply (.primitive p) args q w) := by
  rw [apply, Primitive.call, Primitive.checkArity, callPrimitive]
  by_cases harity : args.length < p.leastArguments
  · rw [if_pos harity, if_pos harity]
    rfl
  · rw [if_neg harity, if_neg harity]
    refine (evaluatePrimitive_eq (Nat.le_of_not_lt harity) q w).trans ?_
    cases p.result args <;> rfl

theorem run_define_of_binds {frame : FrameId} {x : String} {w : World}
    (h : w.binds frame x = true) (v : Value) (q : Queue) :
    (define frame x v).run ⟨q, w⟩ = .error (.fault (.program (.alreadyDefined x))) ⟨q, w⟩ := by
  rw [define, run_read_bind, h]
  rfl

theorem run_define_of_not_binds {frame : FrameId} {x : String} {w : World}
    (h : w.binds frame x = false) (v : Value) (q : Queue) :
    (define frame x v).run ⟨q, w⟩ = .ok () ⟨q, w.bind frame x v⟩ := by
  rw [define, run_read_bind, h]
  rfl

theorem run_forM_define {frame : FrameId} {bs : Bindings} {w w' : World}
    (h : w.defineAll frame bs = (.ok (), w')) (q : Queue) :
    (bs.forM fun b ↦ define frame b.1 b.2).run ⟨q, w⟩ = .ok () ⟨q, w'⟩ := by
  induction bs generalizing w with
  | nil =>
    cases h
    rfl
  | cons b bs ih =>
    rw [World.defineAll] at h
    cases hx : w.binds frame b.1 with
    | true =>
      rw [World.define_of_binds hx] at h
      cases h
    | false =>
      rw [World.define_of_not_binds hx] at h
      exact (run_bind_of_ok (run_define_of_not_binds hx b.2 q)).trans (ih h)

/-- The parameters of a closure can all be defined, since each of them gets one value. -/
theorem callClosure_eq (c : Closure) (args : List Value) (q : Queue) (w : World) :
    (callClosure c args).run ⟨q, w⟩ = outcome q (apply (.closure c) args q w) := by
  rw [apply, bindArguments, callClosure]
  by_cases harity : args.length = c.params.length
  · rw [if_pos harity, if_neg (not_not.mpr harity)]
    have hframe : (onWorld (·.newFrame (some c.frame) [])).run ⟨q, w⟩
        = .ok w.frames.size ⟨q, (w.newFrame (some c.frame) []).2⟩ := rfl
    -- a new frame is empty, so only a repeated name could be in the way of a definition
    have hnames : (([] ++ Bindings.ofPairs (c.params.zip args)).map Prod.fst).Nodup :=
      Bindings.nodup_ofPairs (c.params.zip args)
    have hdefined := w.defineAll_newFrame (some c.frame) hnames
    exact (run_bind_of_ok hframe).trans (run_bind_of_ok (run_forM_define hdefined q))
  · rw [if_neg harity, if_pos harity]
    rfl

/-- The frame in which a name is found has a value for it. -/
theorem lookup_eq (frame : FrameId) (x : String) (q : Queue) (w : World) :
    (lookup frame x).run ⟨q, w⟩ = outcome q ((w.lookup frame x).map (·, q), w) := by
  rw [lookup, run_read_bind, World.lookup]
  cases hf : w.find? frame x with
  | none => rfl
  | some g =>
    have hbinds : w.binds g x = true := by
      rw [World.find?_eq_find?_scope] at hf
      exact List.find?_some (p := (w.binds · x)) hf
    obtain ⟨F, v, hF, hv⟩ := World.exists_value_of_binds hbinds
    have hvalue : w.frames[g]?.bind (·.value? x) = some v := by rw [hF, Option.bind_some, hv]
    rw [Option.bind_some]
    dsimp only
    rw [run_read_bind, hvalue]
    rfl

/-- **Steps in place.** The operations of a step come to what the step comes to as a whole. -/
theorem take_eq (st : Step) (v : Value) (q : Queue) (w : World) :
    (take st v).run ⟨q, w⟩ = outcome q (step st v q w) := by
  cases st with
  | evaluate e frame => exact proceed_eq e frame q w
  | literal u => rfl
  | reference x frame => exact lookup_eq frame x q w
  | join call => rfl
  | apply call frame =>
    rw [step, take, run_read_bind]
    cases hc : w.collected call with
    | nil => rfl
    | cons fn args =>
      cases fn with
      | primitive p => exact callPrimitive_eq p args q w
      | closure c => exact callClosure_eq c args q w
      | int | bool | str | undefined => rfl
  | branch t a frame =>
    rw [step.eq_def, take.eq_def]
    cases v.isFalse with
    | false => exact proceed_eq t frame q w
    | true =>
      cases a with
      | none => rfl
      | some e => exact proceed_eq e frame q w
  | define x frame =>
    rw [step, take]
    cases hx : w.binds frame x with
    | true =>
      rw [World.define_of_binds hx]
      exact run_bind_of_error (run_define_of_binds hx v q)
    | false =>
      rw [World.define_of_not_binds hx]
      exact run_bind_of_ok (run_define_of_not_binds hx v q)
  | closure params body frame => rfl

/-- Operations snag on faults only, on those that the step fails with, and have not touched the
queue then. -/
theorem run_take_eq_error_iff {st : Step} {v : Value} {q : Queue} {w : World} {snag : Snag}
    {b : Workbench} :
    (take st v).run ⟨q, w⟩ = .error snag b ↔
      ∃ f, snag = .fault f ∧ b.queue = q ∧ step st v q w = (.error f, b.world) := by
  rw [take_eq]
  match step st v q w with
  | (.ok (u, q'), w') =>
    constructor
    · intro h
      cases h
    · rintro ⟨f, -, -, h⟩
      cases h
  | (.error f, w') =>
    constructor
    · intro h
      cases h
      exact ⟨f, rfl, rfl, rfl⟩
    · rintro ⟨f, rfl, rfl, h⟩
      cases h
      rfl

end Operations

end Machine

/-! ## Steps that fail -/

/-- Nothing was done to a world, but that the expansion of a special form may have been noted
down. -/
structure World.Spared (w w' : World) : Prop where
  frames : w'.frames = w.frames
  calls : w'.calls = w.calls
  closures : w'.closures = w.closures
  printed : w'.printed = w.printed
  journal : w'.journal = w.journal ∨ ∃ k, w'.journal = w.journal.push (.expanding k)

theorem World.spared_refl (w : World) : w.Spared w :=
  ⟨rfl, rfl, rfl, rfl, .inl rfl⟩

theorem World.spared_note_expanding (w : World) (k : SpecialForm) :
    w.Spared (w.note (.expanding k)) :=
  ⟨rfl, rfl, rfl, rfl, .inr ⟨k, rfl⟩⟩

theorem Machine.spared_of_step_error {st : Step} {v : Value} {q : Queue} {w w' : World} {f : Fault}
    (h : step st v q w = (.error f, w')) : w.Spared w' := by
  cases stepped_of_step h with
  -- that a form is expanded is noted before its parts are checked
  | malformed => exact w.spared_note_expanding _
  | unbound | emptyCall | refused | miscounted | notFunction | duplicate => exact w.spared_refl

/-- A thread whose step fails loses that step, with whatever operations it consists of, and is
otherwise as it was. -/
theorem Thread.eq_of_step_error {t t' : Thread} {w w' : World} {f : Fault}
    (h : t.step w = (.error f, t', w')) :
    t' = { t with queue := t.queue.tail } ∧ w.Spared w' ∧ ∀ st q, t.queue = st :: q →
      (Machine.Operations.take st t.current).run ⟨q, w⟩ = .error (.fault f) ⟨t'.queue, w'⟩ := by
  rw [step.eq_def] at h
  cases hq : t.queue with
  | nil =>
    rw [hq] at h
    cases h
    exact ⟨by rw [List.tail_nil, ← hq], w.spared_refl, fun st q h ↦ by cases h⟩
  | cons st q =>
    rw [hq] at h
    match hstep : Machine.step st t.current q w with
    | (.ok (v, q'), w'') =>
      simp only [hstep] at h
      cases h
    | (.error g, w'') =>
      simp only [hstep] at h
      cases h
      refine ⟨rfl, Machine.spared_of_step_error hstep, fun st' q' h ↦ ?_⟩
      cases h
      exact Machine.Operations.run_take_eq_error_iff.mpr ⟨f, rfl, rfl, hstep⟩

/-- **Failing steps have no effect.** Wherever the operations of a step come to a halt, the queue,
the frames, the records of calls and the printed texts are as they were before the step, and it is
a fault that they come to a halt on, the one that the step fails with as a whole. So a thread whose
step fails keeps its value and its count, and of its queue all but that step. -/
theorem failing_steps_have_no_effect :
    (∀ (st : Step) (v : Value) (b b' : Machine.Workbench) (snag : Machine.Snag),
      (Machine.Operations.take st v).run b = .error snag b' →
        b'.queue = b.queue ∧ b.world.Spared b'.world ∧
          ∃ f, snag = .fault f ∧ Machine.step st v b.queue b.world = (.error f, b'.world)) ∧
    (∀ (st : Step) (v : Value) (q : Queue) (w w' : World) (f : Fault),
      Machine.step st v q w = (.error f, w') → w.Spared w' ∧
        (Machine.Operations.take st v).run ⟨q, w⟩ = .error (.fault f) ⟨q, w'⟩) ∧
    ∀ (t t' : Thread) (w w' : World) (f : Fault), t.step w = (.error f, t', w') →
      t' = { t with queue := t.queue.tail } ∧ w.Spared w' ∧ ∀ st q, t.queue = st :: q →
        (Machine.Operations.take st t.current).run ⟨q, w⟩ = .error (.fault f) ⟨t'.queue, w'⟩ := by
  refine ⟨?_, ?_, fun t t' w w' f h ↦ Thread.eq_of_step_error h⟩
  · rintro st v ⟨q, w⟩ b' snag h
    obtain ⟨f, hsnag, hqueue, hstep⟩ := Machine.Operations.run_take_eq_error_iff.mp h
    exact ⟨hqueue, Machine.spared_of_step_error hstep, f, hsnag, hstep⟩
  · intro st v q w w' f hstep
    exact ⟨Machine.spared_of_step_error hstep,
      Machine.Operations.run_take_eq_error_iff.mpr ⟨f, rfl, rfl, hstep⟩⟩

/-- A thread that is about to define a name for the second time. -/
def secondDefinition : Thread :=
  { id := 0, queue := [.define "x" 0, .literal (.int 1)], current := .int 2, steps := 5 }

theorem failing_steps_have_no_effect_secondDefinition :
    let w : World := { frames := #[⟨none, [("x", .int 7)]⟩] }
    secondDefinition.step w = (.error (.program (.alreadyDefined "x")),
      { secondDefinition with queue := [.literal (.int 1)] }, w) ∧
    (Machine.Operations.take (.define "x" 0) (.int 2)).run ⟨[.literal (.int 1)], w⟩ =
      .error (.fault (.program (.alreadyDefined "x"))) ⟨[.literal (.int 1)], w⟩ := by
  intro w
  have hstep : secondDefinition.step w = (.error (.program (.alreadyDefined "x")),
      { secondDefinition with queue := [.literal (.int 1)] }, w) := by decide
  exact ⟨hstep, (failing_steps_have_no_effect.2.2 _ _ _ _ _ hstep).2.2 _ _ rfl⟩

end Interleave

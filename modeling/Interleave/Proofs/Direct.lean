import Interleave.Direct
import Interleave.Proofs.Machine
import Interleave.Proofs.Step

/-!
# The direct evaluator in equations

The direct evaluator and the queue machine share frames, primitives and special forms. What they
share does not look at the records of calls and at the journal, which only the machine keeps:
`World.aside` replaces these two, and every operation that both evaluators use commutes with it.

The faults of the two differ in one place only. Where a conditional is malformed the machine counts
its parts in the message and the direct evaluator does not (`reword_cases`).

The last section writes the direct evaluation of each kind of compound as one computation after
another, with `Direct.andThen` in between.

## Why equations

`Direct.evaluate` is one definition with a match inside a match for each kind of compound, and a
simulation that unfolds it has to follow all of them at once. With one equation for each kind the
proof looks at what is evaluated first, goes on with its result, and never sees the other kinds. The
equations hold by cases on the results of the parts.

`World.store` is what two worlds are compared by: frames, closures made and texts printed. It is the
whole of the world but for the two parts that the direct evaluator does not use.
-/

namespace Interleave

/-! ## The part of the world that both evaluators change -/

/-- What evaluation leaves behind for others to see: frames, closures made, texts printed. -/
structure Store where
  /-- All frames ever made. -/
  frames : Array Frame
  /-- How many closures were made. -/
  closures : Nat
  /-- The texts printed, one for each printing. -/
  printed : Array String

namespace World

/-- The part of the world that is neither a record of a call nor the journal. -/
def store (w : World) : Store := ⟨w.frames, w.closures, w.printed⟩

/-- The world with other records of calls and another journal. -/
def aside (w : World) (calls : Array (List Value)) (journal : Array Note) : World :=
  { w with calls, journal }

variable (w : World) (calls : Array (List Value)) (journal : Array Note)

theorem collected_aside (c : CallId) : (w.aside calls journal).collected c = calls[c]?.getD [] :=
  rfl

theorem find?_aside (f : FrameId) (x : String) :
    (w.aside calls journal).find? f x = w.find? f x := by
  induction f using Nat.strongRecOn with
  | ind f ih =>
    have hbinds : (w.aside calls journal).binds f x = w.binds f x := rfl
    have hframes : (w.aside calls journal).frames = w.frames := rfl
    rw [find?, find?, hbinds, hframes]
    by_cases hb : w.binds f x
    · rw [if_pos hb, if_pos hb]
    · rw [if_neg hb, if_neg hb]
      cases w.frames[f]?.bind Frame.outer with
      | none => rfl
      | some g =>
        by_cases hg : g < f
        · simp only [if_pos hg, ih g hg]
        · simp only [if_neg hg]

theorem lookup_aside (f : FrameId) (x : String) :
    (w.aside calls journal).lookup f x = w.lookup f x := by
  rw [lookup, lookup, find?_aside]
  rfl

theorem define_aside (f : FrameId) (x : String) (v : Value) :
    (w.aside calls journal).define f x v
      = ((w.define f x v).1, (w.define f x v).2.aside calls journal) := by
  have hbinds : (w.aside calls journal).binds f x = w.binds f x := rfl
  rw [define, define, hbinds]
  split <;> rfl

end World

theorem Machine.bindArguments_aside (c : Closure) (args : List Value) (w : World)
    (calls : Array (List Value)) (journal : Array Note) :
    bindArguments c args (w.aside calls journal)
      = ((bindArguments c args w).1, (bindArguments c args w).2.aside calls journal) := by
  rw [bindArguments, bindArguments]
  split <;> rfl

theorem Primitive.call_aside (p : Primitive) (vs : List Value) (w : World)
    (calls : Array (List Value)) (journal : Array Note) :
    p.call vs (w.aside calls journal)
      = ((p.call vs w).1, (p.call vs w).2.aside calls journal) := by
  rw [call, call]
  split
  · rfl
  · split
    · rfl
    · cases p <;> rfl

/-! ## The faults of the direct evaluator -/

namespace Direct

theorem reword_of_lookup {w : World} {frame : FrameId} {x : String} {f : Fault}
    (h : w.lookup frame x = .error f) : reword f = f := by
  rw [World.lookup] at h
  split at h <;> cases h
  rfl

theorem reword_of_define {w w' : World} {frame : FrameId} {x : String} {v : Value} {f : Fault}
    (h : w.define frame x v = (.error f, w')) : reword f = f := by
  rw [World.define] at h
  split at h <;> cases h
  rfl

theorem reword_of_bindArguments {c : Closure} {args : List Value} {w w' : World} {f : Fault}
    (h : Machine.bindArguments c args w = (.error f, w')) : reword f = f := by
  rw [Machine.bindArguments] at h
  split at h <;> cases h
  rfl

theorem reword_of_call {p : Primitive} {vs : List Value} {w w' : World} {f : Fault}
    (h : p.call vs w = (.error f, w')) : reword f = f := by
  obtain ⟨-, rfl | ⟨v, rfl⟩⟩ := Primitive.call_eq_error h
  · rfl
  · rfl

theorem reword_ofCallee (v : Value) : reword (.ofCallee v) = .ofCallee v := by
  rw [Fault.ofCallee]
  split <;> rfl

/-- The count of its parts is what the message of a malformed conditional ends in. -/
theorem message_conditional (n : Nat) :
    (Fault.program (.arity (.conditional (some n)))).message
      = (Fault.program (.arity (.conditional none))).message
        ++ (", got " ++ Numeral.text n ++ " arguments") :=
  congrArg (· ++ (", got " ++ Numeral.text n ++ " arguments"))
    (String.append_empty (s :=
      "if requires a condition, a then-expression and an optional else-expression")).symm

/-- Only a conditional whose parts were counted is worded differently, and then the count is what
the message lacks. -/
theorem reword_cases (f : Fault) :
    reword f = f ∨ ∃ n, f = .program (.arity (.conditional (some n))) ∧
      reword f = .program (.arity (.conditional none)) ∧
      f.message = (reword f).message ++ (", got " ++ Numeral.text n ++ " arguments") := by
  unfold reword
  split
  · rename_i given
    cases given with
    | none => exact .inl rfl
    | some n => exact .inr ⟨n, rfl, rfl, message_conditional n⟩
  · exact .inl rfl

/-! ## Evaluation in sequence -/

/-- Goes on with the result of a computation, if it gave one. -/
def andThen {α β : Type} (r : Outcome α × World) (k : α → World → Outcome β × World) :
    Outcome β × World :=
  match r with
  | (.done a, w) => k a w
  | (.failed f, w) => (.failed f, w)
  | (.outOfFuel, w) => (.outOfFuel, w)

/-- What is evaluated by a conditional whose condition has the given value. -/
def evaluateBranch (depth : Nat) (consequent : Expr) (alternative : Option Expr) (frame : FrameId)
    (v : Value) (w : World) : Outcome Value × World :=
  if v.isFalse then
    match alternative with
    | some e => evaluate depth e frame w
    | none => (.done .undefined, w)
  else evaluate depth consequent frame w

/-- What a call does with the values of its elements. -/
def applyAll (depth : Nat) : List Value → World → Outcome Value × World
  | [], w => (.failed (.program (.notCallable none)), w)
  | .primitive p :: args, w => settle (p.call args w)
  | .closure c :: args, w =>
    match Machine.bindArguments c args w with
    | (.ok inner, w') => lastOf (fun e w ↦ evaluate depth e inner w) .undefined c.body w'
    | (.error f, w') => (.failed f, w')
  | v :: _, w => (.failed (.ofCallee v), w)

theorem valuesOf_cons (ev : Expr → World → Outcome Value × World) (e : Expr) (es : List Expr)
    (w : World) :
    valuesOf ev (e :: es) w = andThen (ev e w) fun v w' ↦
      andThen (valuesOf ev es w') fun vs w'' ↦ (.done (v :: vs), w'') := by
  rw [valuesOf]
  rcases ev e w with ⟨_ | _ | _, w'⟩
  · dsimp only [andThen]
    rcases valuesOf ev es w' with ⟨_ | _ | _, w''⟩ <;> rfl
  · rfl
  · rfl

theorem lastOf_cons (ev : Expr → World → Outcome Value × World) (v : Value) (e : Expr)
    (es : List Expr) (w : World) :
    lastOf ev v (e :: es) w = andThen (ev e w) fun v' w' ↦ lastOf ev v' es w' := by
  rw [lastOf]
  rcases ev e w with ⟨_ | _ | _, w'⟩ <;> rfl

section Compounds

variable {depth : Nat} {es parts : List Expr} {form : SpecialForm} {frame : FrameId} {w : World}

theorem evaluate_malformed {f : Fault} (hform : Expr.specialForm? es = some (form, parts))
    (hparts : Form.ofParts form parts = .error f) :
    evaluate (depth + 1) (.compound es) frame w = (.failed (reword f), w) := by
  rw [evaluate]
  simp only [hform, hparts]

theorem evaluate_conditional {c t : Expr} {e : Option Expr}
    (hform : Expr.specialForm? es = some (form, parts))
    (hparts : Form.ofParts form parts = .ok (.conditional c t e)) :
    evaluate (depth + 1) (.compound es) frame w
      = andThen (evaluate depth c frame w) (evaluateBranch depth t e frame) := by
  rw [evaluate]
  simp only [hform, hparts]
  rcases evaluate depth c frame w with ⟨_ | _ | _, w'⟩ <;> rfl

theorem evaluate_definition {x : String} {e : Expr}
    (hform : Expr.specialForm? es = some (form, parts))
    (hparts : Form.ofParts form parts = .ok (.definition x e)) :
    evaluate (depth + 1) (.compound es) frame w
      = andThen (evaluate depth e frame w) fun v w' ↦
          settle ((w'.define frame x v).1.map fun _ ↦ .undefined, (w'.define frame x v).2) := by
  rw [evaluate]
  simp only [hform, hparts]
  rcases evaluate depth e frame w with ⟨v | _ | _, w'⟩
  · dsimp only [andThen]
    rcases w'.define frame x v with ⟨_ | _, w''⟩ <;> rfl
  · rfl
  · rfl

theorem evaluate_lambda {params : List String} {body : List Expr}
    (hform : Expr.specialForm? es = some (form, parts))
    (hparts : Form.ofParts form parts = .ok (.lambda params body)) :
    evaluate (depth + 1) (.compound es) frame w
      = (.done (w.newClosure params body frame).1, (w.newClosure params body frame).2) := by
  rw [evaluate]
  simp only [hform, hparts]

theorem evaluate_call (hform : Expr.specialForm? es = none) :
    evaluate (depth + 1) (.compound es) frame w
      = andThen (valuesOf (fun e w ↦ evaluate depth e frame w) es w) (applyAll depth) := by
  rw [evaluate]
  simp only [hform]
  rcases valuesOf (fun e w ↦ evaluate depth e frame w) es w with ⟨vs | _ | _, w'⟩
  · cases vs with
    | nil => rfl
    | cons v args => cases v <;> rfl
  · rfl
  · rfl

end Compounds

end Direct

end Interleave

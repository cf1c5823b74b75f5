import Interleave.Proofs.Direct
import Interleave.Proofs.Machine

/-!
# The queue machine agrees with the direct evaluator

The machine cuts the evaluation of an expression into steps and keeps what is still to be done in a
queue; the direct evaluator keeps it on its own stack. They give the same values and the same
faults, and leave the same frames and the same printed texts behind. One does not end where the
other does not: see `evaluate_agrees_with_evaluateAll`.

## The simulation

The machine follows the direct evaluator, whatever is queued behind the expression. `Follows` says
what this means for each of the three outcomes. The case in which the direct evaluator runs out of
depth is what carries divergence over: with `d` levels of nesting the machine still has steps left
after `d` steps. So one induction on the depth settles values, faults and divergence together, and
the converse is left to determinism.

## The records of calls

While an element of a call is evaluated, calls inside it begin records of their own. They never
touch a record that was there before, and `Extends` is this invariant.
-/

namespace Interleave

open Machine Direct

/-- Records of calls, and perhaps further ones behind them. -/
structure Extends (calls calls' : Array (List Value)) : Prop where
  /-- No record is lost. -/
  size_le : calls.size ≤ calls'.size
  /-- No record is changed. -/
  get_eq : ∀ c < calls.size, calls'[c]? = calls[c]?

namespace Extends

variable {calls calls' calls'' : Array (List Value)}

theorem refl (calls : Array (List Value)) : Extends calls calls :=
  ⟨Nat.le_refl _, fun _ _ ↦ rfl⟩

theorem trans (h : Extends calls calls') (h' : Extends calls' calls'') : Extends calls calls'' :=
  ⟨Nat.le_trans h.size_le h'.size_le,
    fun c hc ↦ (h'.get_eq c (Nat.lt_of_lt_of_le hc h.size_le)).trans (h.get_eq c hc)⟩

end Extends

/-! ## Following -/

/-- The machine, started in a configuration, does what the direct evaluator did. A value is reached
in a configuration of the given kind, a fault is met up to its wording, and after running out of
depth there is still something to do. -/
def Follows {α : Type} (depth : Nat) (c : Config) (ends : α → World → Config → Prop) :
    Outcome α × World → Prop
  | (.done a, w) => ∃ n c', Steps n c c' ∧ ends a w c'
  | (.failed g, w) =>
    ∃ n c' f calls journal, Steps n c c' ∧ Fails c' f (w.aside calls journal) ∧ reword f = g
  | (.outOfFuel, _) => ∃ n c', depth ≤ n ∧ Steps n c c' ∧ c'.queue ≠ []

/-- The configurations in which an expression was evaluated and the steps behind it come next. -/
def Returned (q : Queue) (calls : Array (List Value)) (v : Value) (w : World) (c : Config) : Prop :=
  ∃ calls' journal, c = ⟨v, q, w.aside calls' journal⟩ ∧ Extends calls calls'

namespace Follows

variable {α β : Type} {depth : Nat} {c : Config} {ends : α → World → Config → Prop}
  {r : Outcome α × World}

theorem prepend {m : Nat} {c₀ : Config} (hs : Steps m c₀ c) (h : Follows depth c ends r) :
    Follows (m + depth) c₀ ends r := by
  rcases r with ⟨a | g | _, w⟩
  · obtain ⟨n, c', hc, he⟩ := h
    exact ⟨m + n, c', hs.trans hc, he⟩
  · obtain ⟨n, c', f, calls, journal, hc, hf, hg⟩ := h
    exact ⟨m + n, c', f, calls, journal, hs.trans hc, hf, hg⟩
  · obtain ⟨n, c', hd, hc, hne⟩ := h
    exact ⟨m + n, c', Nat.add_le_add_left hd m, hs.trans hc, hne⟩

theorem mono {depth' : Nat} (h : Follows depth c ends r) (hd : depth' ≤ depth) :
    Follows depth' c ends r := by
  rcases r with ⟨a | g | _, w⟩
  · exact h
  · exact h
  · obtain ⟨n, c', hn, hc, hne⟩ := h
    exact ⟨n, c', Nat.le_trans hd hn, hc, hne⟩

theorem andThen {k : α → World → Outcome β × World} {ends' : β → World → Config → Prop}
    (h : Follows depth c ends r) (hk : ∀ a w c', ends a w c' → Follows depth c' ends' (k a w)) :
    Follows depth c ends' (Direct.andThen r k) := by
  rcases r with ⟨a | g | _, w⟩
  · obtain ⟨n, c', hc, he⟩ := h
    exact ((hk a w c' he).prepend hc).mono (Nat.le_add_left _ _)
  · exact h
  · exact h

theorem imp {ends' : α → World → Config → Prop} (h : Follows depth c ends r)
    (hends : ∀ a w c', ends a w c' → ends' a w c') : Follows depth c ends' r := by
  rcases r with ⟨a | g | _, w⟩
  · obtain ⟨n, c', hc, he⟩ := h
    exact ⟨n, c', hc, hends a w c' he⟩
  · exact h
  · exact h

theorem of_ends {a : α} {w : World} (h : ends a w c) : Follows depth c ends (.done a, w) :=
  ⟨0, c, .refl c, h⟩

theorem of_fails {f : Fault} {w : World} {calls : Array (List Value)} {journal : Array Note}
    (h : Fails c f (w.aside calls journal)) : Follows depth c ends (.failed (reword f), w) :=
  ⟨0, c, f, calls, journal, .refl c, h, rfl⟩

end Follows

/-- What comes later in a run extends the records that were there earlier. -/
theorem Returned.trans {q : Queue} {calls calls' : Array (List Value)} {v : Value} {w : World}
    {c : Config} (hext : Extends calls calls') (h : Returned q calls' v w c) :
    Returned q calls v w c := by
  obtain ⟨calls'', journal, hc, hext'⟩ := h
  exact ⟨calls'', journal, hc, hext.trans hext'⟩

/-! ## Parts of an evaluation -/

/-- What the induction on the depth provides: at this depth the machine follows the evaluation of
any expression, from any step that goes on with it. The step need not be the one that evaluates the
expression, since a branch goes on with its expression at once. -/
def FollowsAt (depth : Nat) : Prop :=
  ∀ (e : Expr) (frame : FrameId) (w : World) (s : Step) (v : Value) (q : Queue)
    (calls : Array (List Value)) (journal : Array Note),
    step s v q (w.aside calls journal) = proceed e frame q (w.aside calls journal) →
    Follows depth ⟨v, s :: q, w.aside calls journal⟩ (Returned q calls) (evaluate depth e frame w)

section Parts

variable {depth : Nat} {frame : FrameId} {q : Queue}

/-- A program, or the body of a closure, is evaluated expression by expression. -/
theorem follows_lastOf (ih : FollowsAt depth) (es : List Expr) (v : Value) (w : World)
    (calls : Array (List Value)) (journal : Array Note) :
    Follows depth ⟨v, Queue.ofProgram es frame ++ q, w.aside calls journal⟩ (Returned q calls)
      (lastOf (fun e w ↦ evaluate depth e frame w) v es w) := by
  induction es generalizing v w calls journal with
  | nil => exact .of_ends ⟨calls, journal, rfl, .refl calls⟩
  | cons e es ihes =>
    rw [lastOf_cons]
    refine (ih e frame w (.evaluate e frame) v _ calls journal rfl).andThen ?_
    rintro v' w' _ ⟨calls', journal', rfl, hext⟩
    exact (ihes v' w' calls' journal').imp fun _ _ _ ↦ Returned.trans hext

/-- The configurations in which a record has received further values, and other records have not. -/
def Collected (q : Queue) (calls : Array (List Value)) (call : CallId) (vs' : List Value)
    (vs : List Value) (w : World) (c : Config) : Prop :=
  ∃ v calls' journal, c = ⟨v, q, w.aside calls' journal⟩ ∧ calls'[call]? = some (vs' ++ vs) ∧
    calls.size ≤ calls'.size ∧ ∀ i < calls.size, i ≠ call → calls'[i]? = calls[i]?

/-- The elements of a call are evaluated one after the other into the record of the call. -/
theorem follows_valuesOf (ih : FollowsAt depth) (es : List Expr) (v : Value) (w : World)
    (calls : Array (List Value)) (journal : Array Note) (call : CallId) (vs' : List Value)
    (hcall : calls[call]? = some vs') :
    Follows depth
      ⟨v, es.flatMap (fun e ↦ [.evaluate e frame, .join call]) ++ q, w.aside calls journal⟩
      (Collected q calls call vs') (valuesOf (fun e w ↦ evaluate depth e frame w) es w) := by
  induction es generalizing v w calls journal vs' with
  | nil =>
    refine .of_ends ⟨v, calls, journal, rfl, ?_, Nat.le_refl _, fun _ _ _ ↦ rfl⟩
    rw [hcall, List.append_nil]
  | cons e es ihes =>
    rw [valuesOf_cons]
    refine (ih e frame w (.evaluate e frame) v _ calls journal rfl).andThen ?_
    rintro v₁ w₁ _ ⟨calls₁, journal₁, rfl, hext⟩
    -- the value of the element joins the record, which the evaluation has left alone
    have hlt : call < calls.size := (Array.getElem?_eq_some_iff.mp hcall).1
    have hcall₁ : (calls₁.modify call (· ++ [v₁]))[call]? = some (vs' ++ [v₁]) := by
      rw [Array.getElem?_modify, if_pos rfl, hext.get_eq call hlt, hcall, Option.map_some]
    have hjoin : Steps 1
        ⟨v₁, .join call :: (es.flatMap (fun e ↦ [.evaluate e frame, .join call]) ++ q),
          w₁.aside calls₁ journal₁⟩
        ⟨v₁, es.flatMap (fun e ↦ [.evaluate e frame, .join call]) ++ q,
          w₁.aside (calls₁.modify call (· ++ [v₁])) journal₁⟩ := .one rfl
    refine (((ihes v₁ w₁ _ journal₁ _ hcall₁).prepend hjoin).mono (Nat.le_add_left _ _)).andThen ?_
    rintro vs w₂ _ ⟨v₂, calls₂, journal₂, rfl, hget, hsize, hother⟩
    rw [Array.size_modify] at hsize hother
    refine .of_ends ⟨v₂, calls₂, journal₂, rfl, ?_,
      Nat.le_trans hext.size_le hsize, fun i hi hne ↦ ?_⟩
    · rw [hget, List.append_assoc, List.singleton_append]
    · rw [hother i (Nat.lt_of_lt_of_le hi hext.size_le) hne, Array.getElem?_modify,
        if_neg (Ne.symm hne), hext.get_eq i hi]

/-- A function is applied to arguments. Primitives answer at once; the body of a closure goes to the
front of the queue. -/
theorem follows_applyAll (ih : FollowsAt depth) (vs : List Value) (v : Value) (w : World)
    (calls : Array (List Value)) (journal : Array Note) (call : CallId)
    (hcall : calls[call]? = some vs) :
    Follows depth ⟨v, .apply call frame :: q, w.aside calls journal⟩ (Returned q calls)
      (applyAll depth vs w) := by
  have hcollected : (w.aside calls journal).collected call = vs := by
    rw [World.collected_aside, hcall, Option.getD_some]
  cases vs with
  | nil =>
    have hstep : step (.apply call frame) v q (w.aside calls journal)
        = (.error (.program (.notCallable none)), w.aside calls journal) := by
      rw [step, hcollected]
    have hfails : Fails ⟨v, .apply call frame :: q, w.aside calls journal⟩
        (.program (.notCallable none)) (w.aside calls journal) := ⟨_, _, rfl, hstep⟩
    exact Follows.of_fails hfails
  | cons fn args =>
    have hstep : step (.apply call frame) v q (w.aside calls journal)
        = Machine.apply fn args q (w.aside calls journal) := by
      rw [step, hcollected]
    -- the four kinds of value that are no function fail alike
    have hnoFunction : Machine.apply fn args q (w.aside calls journal)
          = (.error (.ofCallee fn), w.aside calls journal) →
        Follows depth ⟨v, .apply call frame :: q, w.aside calls journal⟩ (Returned q calls)
          (.failed (.ofCallee fn), w) := by
      intro hfn
      rw [← reword_ofCallee]
      exact .of_fails ⟨_, _, rfl, hstep.trans hfn⟩
    cases fn with
    | int n => exact hnoFunction rfl
    | bool b => exact hnoFunction rfl
    | str s => exact hnoFunction rfl
    | undefined => exact hnoFunction rfl
    | primitive p =>
      rw [Machine.apply, Primitive.call_aside] at hstep
      rcases hp : p.call args w with ⟨f | u, w'⟩
      · rw [hp] at hstep
        rw [applyAll, hp, settle, ← reword_of_call hp]
        exact .of_fails ⟨_, _, rfl, hstep⟩
      · rw [hp] at hstep
        rw [applyAll, hp]
        exact ⟨1, _, .one hstep, calls, journal, rfl, .refl calls⟩
    | closure c =>
      rw [Machine.apply, bindArguments_aside] at hstep
      rcases hb : bindArguments c args w with ⟨f | inner, w'⟩
      · rw [hb] at hstep
        simp only [applyAll, hb]
        rw [← reword_of_bindArguments hb]
        exact .of_fails ⟨_, _, rfl, hstep⟩
      · rw [hb] at hstep
        simp only [applyAll, hb]
        exact ((follows_lastOf ih c.body .undefined w' calls journal).prepend (.one hstep)).mono
          (Nat.le_add_left _ _)

end Parts

/-! ## The simulation -/

section Simulation

variable {depth : Nat} {es parts : List Expr} {form : SpecialForm} {frame : FrameId} {w : World}
  {s : Step} {v : Value} {q : Queue} {calls : Array (List Value)} {journal : Array Note}

/-- The first step of a special form takes it apart, and notes that it does. -/
theorem proceed_form (hform : Expr.specialForm? es = some (form, parts)) :
    proceed (.compound es) frame q (w.aside calls journal)
      = ((Form.ofParts form parts).map fun fm ↦ (.undefined, formSteps frame fm ++ q),
        w.aside calls (journal.push (.expanding form))) := by
  simp only [proceed, expand, hform]
  cases Form.ofParts form parts <;> rfl

theorem proceed_call (hform : Expr.specialForm? es = none) :
    proceed (.compound es) frame q (w.aside calls journal)
      = (.ok (.undefined, callSteps frame calls.size es ++ q),
        w.aside (calls.push []) journal) := by
  rw [proceed, expand, hform]
  rfl

theorem follows_malformed {f : Fault} (hform : Expr.specialForm? es = some (form, parts))
    (hparts : Form.ofParts form parts = .error f)
    (hs : step s v q (w.aside calls journal)
      = proceed (.compound es) frame q (w.aside calls journal)) :
    Follows (depth + 1) ⟨v, s :: q, w.aside calls journal⟩ (Returned q calls)
      (evaluate (depth + 1) (.compound es) frame w) := by
  rw [proceed_form hform, hparts] at hs
  rw [evaluate_malformed hform hparts]
  exact .of_fails ⟨s, q, rfl, hs⟩

theorem follows_conditional (ih : FollowsAt depth) {c t : Expr} {e : Option Expr}
    (hform : Expr.specialForm? es = some (form, parts))
    (hparts : Form.ofParts form parts = .ok (.conditional c t e))
    (hs : step s v q (w.aside calls journal)
      = proceed (.compound es) frame q (w.aside calls journal)) :
    Follows (depth + 1) ⟨v, s :: q, w.aside calls journal⟩ (Returned q calls)
      (evaluate (depth + 1) (.compound es) frame w) := by
  rw [proceed_form hform, hparts] at hs
  rw [evaluate_conditional hform hparts, Nat.add_comm]
  refine .prepend (.one hs) ((ih c frame w _ _ _ _ _ rfl).andThen ?_)
  rintro u w' _ ⟨calls', journal', rfl, hext⟩
  -- the branch goes on with one of the two expressions, or gives the undefined value
  by_cases hu : u.isFalse
  · cases e with
    | none =>
      rw [evaluateBranch, if_pos hu]
      have hstep : step (.branch t none frame) u q (w'.aside calls' journal')
          = (.ok (.undefined, q), w'.aside calls' journal') := by
        rw [step, if_pos hu]
      exact ⟨1, _, .one hstep, calls', journal', rfl, hext⟩
    | some e =>
      rw [evaluateBranch, if_pos hu]
      refine (ih e frame w' _ _ _ _ _ ?_).imp fun _ _ _ ↦ Returned.trans hext
      rw [step, if_pos hu]
  · unfold evaluateBranch
    rw [if_neg hu]
    exact (ih t frame w' (.branch t e frame) u q _ _ (if_neg hu)).imp
      fun _ _ _ ↦ Returned.trans hext

theorem follows_definition (ih : FollowsAt depth) {x : String} {e : Expr}
    (hform : Expr.specialForm? es = some (form, parts))
    (hparts : Form.ofParts form parts = .ok (.definition x e))
    (hs : step s v q (w.aside calls journal)
      = proceed (.compound es) frame q (w.aside calls journal)) :
    Follows (depth + 1) ⟨v, s :: q, w.aside calls journal⟩ (Returned q calls)
      (evaluate (depth + 1) (.compound es) frame w) := by
  rw [proceed_form hform, hparts] at hs
  rw [evaluate_definition hform hparts, Nat.add_comm]
  refine .prepend (.one hs) ((ih e frame w _ _ _ _ _ rfl).andThen ?_)
  rintro u w' _ ⟨calls', journal', rfl, hext⟩
  rcases hd : w'.define frame x u with ⟨f | _, w''⟩
  · have hstep : step (.define x frame) u q (w'.aside calls' journal')
        = (.error f, w''.aside calls' journal') := by
      rw [step, World.define_aside, hd]
    rw [← reword_of_define hd]
    exact .of_fails ⟨_, _, rfl, hstep⟩
  · have hstep : step (.define x frame) u q (w'.aside calls' journal')
        = (.ok (.undefined, q), w''.aside calls' (journal'.push (.defined x))) := by
      rw [step, World.define_aside, hd]
      rfl
    exact ⟨1, _, .one hstep, calls', _, rfl, hext⟩

theorem follows_lambda {params : List String} {body : List Expr}
    (hform : Expr.specialForm? es = some (form, parts))
    (hparts : Form.ofParts form parts = .ok (.lambda params body))
    (hs : step s v q (w.aside calls journal)
      = proceed (.compound es) frame q (w.aside calls journal)) :
    Follows (depth + 1) ⟨v, s :: q, w.aside calls journal⟩ (Returned q calls)
      (evaluate (depth + 1) (.compound es) frame w) := by
  rw [proceed_form hform, hparts] at hs
  rw [evaluate_lambda hform hparts]
  exact ⟨2, _, .head hs (.one rfl), calls, _, rfl, .refl calls⟩

theorem follows_call (ih : FollowsAt depth) (hform : Expr.specialForm? es = none)
    (hs : step s v q (w.aside calls journal)
      = proceed (.compound es) frame q (w.aside calls journal)) :
    Follows (depth + 1) ⟨v, s :: q, w.aside calls journal⟩ (Returned q calls)
      (evaluate (depth + 1) (.compound es) frame w) := by
  rw [proceed_call hform, callSteps, List.append_assoc] at hs
  rw [evaluate_call hform, Nat.add_comm]
  have hnew : (calls.push [])[calls.size]? = some [] := Array.getElem?_push_size
  refine .prepend (.one hs) ((follows_valuesOf ih es _ w _ journal _ [] hnew).andThen ?_)
  rintro vs w' _ ⟨u, calls', journal', rfl, hget, hsize, hother⟩
  rw [List.nil_append] at hget
  rw [Array.size_push] at hsize hother
  have hext : Extends calls calls' := by
    refine ⟨by omega, fun c hc ↦ ?_⟩
    rw [hother c (by omega) (by omega), Array.getElem?_push_lt hc, Array.getElem?_eq_getElem hc]
  exact (follows_applyAll ih vs u w' calls' journal' _ hget).imp fun _ _ _ ↦ Returned.trans hext

end Simulation

/-- **The simulation.** At every depth the machine follows the direct evaluator. -/
theorem followsAt (depth : Nat) : FollowsAt depth := by
  induction depth with
  | zero =>
    -- out of depth at once, and there is a step that the machine has not taken
    intro e frame w s v q calls journal _
    exact ⟨0, _, Nat.le_refl 0, .refl _, List.cons_ne_nil _ _⟩
  | succ depth ih =>
    intro e frame w s v q calls journal hs
    cases e with
    | number n => exact ⟨2, _, .head hs (.one rfl), calls, journal, rfl, .refl calls⟩
    | string t => exact ⟨2, _, .head hs (.one rfl), calls, journal, rfl, .refl calls⟩
    | reference x =>
      have hstep : ∀ u, step (.reference x frame) u q (w.aside calls journal)
          = ((w.lookup frame x).map (·, q), w.aside calls journal) := by
        intro u
        rw [step, World.lookup_aside]
      rw [Direct.evaluate]
      cases hl : w.lookup frame x with
      | error f =>
        simp only [hl] at hstep
        rw [settle, ← reword_of_lookup hl]
        exact ⟨1, _, f, calls, journal, .one hs, ⟨_, _, rfl, hstep _⟩, rfl⟩
      | ok u =>
        simp only [hl] at hstep
        exact ⟨2, _, .head hs (.one (hstep _)), calls, journal, rfl, .refl calls⟩
    | compound es =>
      cases hform : Expr.specialForm? es with
      | none => exact follows_call ih hform hs
      | some fp =>
        obtain ⟨form, parts⟩ := fp
        cases hparts : Form.ofParts form parts with
        | error f => exact follows_malformed hform hparts hs
        | ok fm =>
          cases fm with
          | conditional c t e => exact follows_conditional ih hform hparts hs
          | definition x e => exact follows_definition ih hform hparts hs
          | lambda params body => exact follows_lambda hform hparts hs

/-! ## Agreement -/

theorem follows_evaluateAll (depth : Nat) (es : List Expr) (frame : FrameId) (w : World) :
    Follows depth (.ofProgram es frame w) (Returned [] w.calls)
      (evaluateAll depth es frame w) := by
  have h : Follows depth ⟨.undefined, Queue.ofProgram es frame ++ [], w⟩ (Returned [] w.calls)
      (evaluateAll depth es frame w) :=
    follows_lastOf (followsAt depth) es .undefined w w.calls w.journal
  rwa [List.append_nil] at h

theorem evaluate_eq_run (fuel : Nat) (es : List Expr) (frame : FrameId) (w : World) :
    Machine.evaluate none fuel es frame w = (Config.ofProgram es frame w).run fuel := rfl

section Agreement

variable {es : List Expr} {frame : FrameId} {w : World}

theorem evaluate_done_of_evaluateAll_done {depth : Nat} {v : Value} {w₁ : World}
    (h : evaluateAll depth es frame w = (.done v, w₁)) :
    ∃ fuel w₂, Machine.evaluate none fuel es frame w = (.done v, w₂) ∧ w₂.store = w₁.store := by
  have hf := follows_evaluateAll depth es frame w
  rw [h] at hf
  obtain ⟨n, _, hsteps, calls, journal, rfl, -⟩ := hf
  exact ⟨n, w₁.aside calls journal, run_eq_done_iff.mpr ⟨n, Nat.le_refl n, hsteps⟩, rfl⟩

theorem evaluate_failed_of_evaluateAll_failed {depth : Nat} {g : Fault} {w₁ : World}
    (h : evaluateAll depth es frame w = (.failed g, w₁)) :
    ∃ fuel f w₂, Machine.evaluate none fuel es frame w = (.failed f, w₂) ∧ reword f = g ∧
      w₂.store = w₁.store := by
  have hf := follows_evaluateAll depth es frame w
  rw [h] at hf
  obtain ⟨n, c, f, calls, journal, hsteps, hfails, hg⟩ := hf
  exact ⟨n + 1, f, w₁.aside calls journal,
    run_eq_failed_iff.mpr ⟨n, Nat.lt_succ_self n, c, hsteps, hfails⟩, hg, rfl⟩

/-- The machine has steps left after as many steps as the direct evaluator had levels. -/
theorem evaluate_outOfFuel_of_evaluateAll_outOfFuel {depth : Nat} {w₁ : World}
    (h : evaluateAll depth es frame w = (.outOfFuel, w₁)) :
    (Machine.evaluate none depth es frame w).1 = .outOfFuel := by
  have hf := follows_evaluateAll depth es frame w
  rw [h] at hf
  obtain ⟨n, c, hd, hsteps, hne⟩ := hf
  obtain ⟨k, rfl⟩ := Nat.exists_eq_add_of_le hd
  obtain ⟨c', hbefore, hafter⟩ := hsteps.split
  exact run_eq_outOfFuel_iff.mpr ⟨c', hbefore, hafter.queue_ne_nil hne⟩

/-- The converse of the three lemmas above: a run of the machine that has ended is what the direct
evaluation comes to, at a depth of as many levels as the run had fuel. -/
theorem evaluateAll_of_evaluate {fuel : Nat} {o : Outcome Value} {w₂ : World}
    (h : Machine.evaluate none fuel es frame w = (o, w₂)) (ho : o ≠ .outOfFuel) :
    (∃ v w₁, evaluateAll fuel es frame w = (.done v, w₁) ∧ o = .done v ∧ w₂.store = w₁.store) ∨
      ∃ f w₁, evaluateAll fuel es frame w = (.failed (reword f), w₁) ∧ o = .failed f ∧
        w₂.store = w₁.store := by
  have hend : ((Config.ofProgram es frame w).run fuel).1 ≠ .outOfFuel := by
    rw [← evaluate_eq_run, h]
    exact ho
  -- what the machine does after the direct evaluation has ended is what it did
  have hsame : ∀ {fuel' : Nat} {o' : Outcome Value} {w' : World},
      Machine.evaluate none fuel' es frame w = (o', w') → o' ≠ .outOfFuel →
        (o, w₂) = (o', w') := by
    intro fuel' o' w' h' ho'
    rw [← h, ← h', evaluate_eq_run, evaluate_eq_run]
    refine run_unique hend ?_
    rw [← evaluate_eq_run, h']
    exact ho'
  rcases hr : evaluateAll fuel es frame w with ⟨v | g | _, w₁⟩
  · obtain ⟨fuel', w', hm, hstore⟩ := evaluate_done_of_evaluateAll_done hr
    cases hsame hm (by simp)
    exact .inl ⟨v, w₁, rfl, rfl, hstore⟩
  · obtain ⟨fuel', f, w', hm, rfl, hstore⟩ := evaluate_failed_of_evaluateAll_failed hr
    cases hsame hm (by simp)
    exact .inr ⟨f, w₁, rfl, rfl, hstore⟩
  · exact absurd (evaluate_outOfFuel_of_evaluateAll_outOfFuel hr) hend

end Agreement

/-- **Agreement of the two evaluators**, for every program, frame and world. One gives a value and
leaves a store behind if and only if the other does. One fails if and only if the other does, with
the same fault up to the count of the parts of a malformed conditional, which the message of the
machine ends in, and with the same store at that moment. And one runs for ever if and only if the
other does.

The machine runs without a log. The direct evaluator takes no steps that it could show to one, and
whether a log breaks a run off is up to the log. -/
theorem evaluate_agrees_with_evaluateAll (es : List Expr) (frame : FrameId) (w : World) :
    (∀ v S, (∃ fuel w', Machine.evaluate none fuel es frame w = (.done v, w') ∧ w'.store = S) ↔
      ∃ depth w', evaluateAll depth es frame w = (.done v, w') ∧ w'.store = S) ∧
    (∀ g S, (∃ fuel f w', Machine.evaluate none fuel es frame w = (.failed f, w') ∧
        reword f = g ∧ w'.store = S) ↔
      ∃ depth w', evaluateAll depth es frame w = (.failed g, w') ∧ w'.store = S) ∧
    (∀ f, reword f = f ∨ ∃ n, f = .program (.arity (.conditional (some n))) ∧
      reword f = .program (.arity (.conditional none)) ∧
      f.message = (reword f).message ++ (", got " ++ Numeral.text n ++ " arguments")) ∧
    ((∀ fuel, (Machine.evaluate none fuel es frame w).1 = .outOfFuel) ↔
      ∀ depth, (evaluateAll depth es frame w).1 = .outOfFuel) := by
  refine ⟨fun v S ↦ ⟨?_, ?_⟩, fun g S ↦ ⟨?_, ?_⟩, reword_cases, ?_, ?_⟩
  · rintro ⟨fuel, w₂, h, rfl⟩
    rcases evaluateAll_of_evaluate h (by simp) with ⟨v', w₁, hd, ho, hs⟩ | ⟨f, w₁, hd, ho, hs⟩
    · cases ho
      exact ⟨fuel, w₁, hd, hs.symm⟩
    · cases ho
  · rintro ⟨depth, w₁, h, rfl⟩
    exact evaluate_done_of_evaluateAll_done h
  · rintro ⟨fuel, f, w₂, h, rfl, rfl⟩
    rcases evaluateAll_of_evaluate h (by simp) with ⟨v', w₁, hd, ho, hs⟩ | ⟨f', w₁, hd, ho, hs⟩
    · cases ho
    · cases ho
      exact ⟨fuel, w₁, hd, hs.symm⟩
  · rintro ⟨depth, w₁, h, rfl⟩
    exact evaluate_failed_of_evaluateAll_failed h
  · intro hm depth
    rcases hr : evaluateAll depth es frame w with ⟨v | g | _, w₁⟩
    · obtain ⟨fuel, w₂, h, -⟩ := evaluate_done_of_evaluateAll_done hr
      have := hm fuel
      rw [h] at this
      cases this
    · obtain ⟨fuel, f, w₂, h, -, -⟩ := evaluate_failed_of_evaluateAll_failed hr
      have := hm fuel
      rw [h] at this
      cases this
    · rfl
  · intro hd fuel
    rcases hr : evaluateAll fuel es frame w with ⟨v | g | _, w₁⟩
    · have := hd fuel
      rw [hr] at this
      cases this
    · have := hd fuel
      rw [hr] at this
      cases this
    · exact evaluate_outOfFuel_of_evaluateAll_outOfFuel hr

end Interleave

import Interleave.Proofs.Machine
import Interleave.Proofs.Step

/-!
# Where a program can write

A program defines names in its own frame, and in the frames that its calls of closures make. It can
read all frames that are in reach, and call closures that were made in them, but it leaves the
frames that it finds as they are (`evaluate_writes_own_frames_only`).

## The invariant

Steps carry the frame they work in. Not every frame in a queue is one that can be written to: a name
may be looked up from any frame, and the frame of a closure is only the outer frame of the frames
that its calls make. `Step.definesIn?` is the frame in which a step defines names, itself or through
the steps that it puts in front. Steps hand this frame on, and a call replaces it by a new one.

## Calls on record

What a program leaves in the frames that its calls make can be told as well, if it is known which
calls there were. `Machine.closureCalls` lists them with their arguments, in the order of the run. A
list of frames that were made can then be compared with it one by one: each is the frame of one
call, lies in the frame of the closure that was called, and begins with its parameters.
-/

namespace Interleave

/-! ## The frames that steps define names in -/

/-- The frame in which a step, or what it is replaced by, defines names. -/
def Step.definesIn? : Step → Option FrameId
  | .evaluate _ f | .branch _ _ f | .define _ f => some f
  | .literal _ | .reference .. | .join _ | .apply .. | .closure .. => none

/-- The step defines names in frames with the property only. -/
def Step.WritesIn (own : FrameId → Prop) (st : Step) : Prop :=
  ∀ f, st.definesIn? = some f → own f

namespace Machine

section Steps

variable {own : FrameId → Prop} {st : Step} {v : Value} {q : Queue} {w w' : World}

theorem Proceeds.writesIn {e : Expr} {frame : FrameId} (h : Proceeds v st e frame)
    (hst : st.WritesIn own) : own frame := by
  cases h with
  | evaluate => exact hst _ rfl
  | consequent => exact hst _ rfl
  | alternative => exact hst _ rfl

theorem writesIn_ofProgram {frame : FrameId} (hframe : own frame) (es : List Expr) :
    ∀ s ∈ Queue.ofProgram es frame, s.WritesIn own := by
  intro s hs f hf
  obtain ⟨e, -, rfl⟩ := List.mem_map.mp hs
  cases hf
  exact hframe

theorem writesIn_callSteps {frame : FrameId} (hframe : own frame) (c : CallId) (es : List Expr) :
    ∀ s ∈ callSteps frame c es, s.WritesIn own := by
  intro s hs f hf
  rcases List.mem_append.mp hs with hs | hs
  · obtain ⟨e, -, hs⟩ := List.mem_flatMap.mp hs
    rcases List.mem_cons.mp hs with rfl | hs
    · cases hf
      exact hframe
    · rw [List.mem_singleton.mp hs] at hf
      cases hf
  · rw [List.mem_singleton.mp hs] at hf
    cases hf

theorem writesIn_formSteps {frame : FrameId} (hframe : own frame) (fm : Form) :
    ∀ s ∈ formSteps frame fm, s.WritesIn own := by
  intro s hs f hf
  cases fm with
  | conditional c t e =>
    rcases List.mem_cons.mp hs with rfl | hs
    · cases hf
      exact hframe
    · rw [List.mem_singleton.mp hs] at hf
      cases hf
      exact hframe
  | definition x e =>
    rcases List.mem_cons.mp hs with rfl | hs
    · cases hf
      exact hframe
    · rw [List.mem_singleton.mp hs] at hf
      cases hf
      exact hframe
  | lambda params body =>
    rw [List.mem_singleton.mp hs] at hf
    cases hf

/-- **Steps hand on the frames that they write to.** Only a call of a closure brings in another
frame, and that is a new one. -/
theorem step_writesIn {v' : Value} {q' : Queue} (hnew : own w.frames.size)
    (hst : st.WritesIn own) (hq : ∀ s ∈ q, s.WritesIn own)
    (h : step st v q w = (.ok (v', q'), w')) : ∀ s ∈ q', s.WritesIn own := by
  have hfront : ∀ {qs : List Step}, (∀ s ∈ qs, s.WritesIn own) → ∀ s ∈ qs ++ q, s.WritesIn own := by
    intro qs hqs s hs
    rcases List.mem_append.mp hs with hs | hs
    · exact hqs s hs
    · exact hq s hs
  have hatom : ∀ {s : Step}, s.definesIn? = none → ∀ s' ∈ s :: q, s'.WritesIn own := by
    intro s hs
    refine @hfront [s] fun s' hs' f hf ↦ ?_
    rw [List.mem_singleton.mp hs', hs] at hf
    cases hf
  cases stepped_of_step h with
  | number => exact hatom rfl
  | string => exact hatom rfl
  | name => exact hatom rfl
  | call hproceeds _ => exact hfront (writesIn_callSteps (hproceeds.writesIn hst) _ _)
  | form hproceeds _ _ => exact hfront (writesIn_formSteps (hproceeds.writesIn hst) _)
  | entered => exact hfront (writesIn_ofProgram hnew _)
  | nothing | literal | found | joined | primitive | defined | closure => exact hq

end Steps

/-! ## Calls of closures -/

/-- The call of a closure that a step begins, if it begins one: the closure and its arguments. -/
def enteredCall? (st : Step) (w : World) : Option (Closure × List Value) :=
  match st with
  | .apply c _ =>
    match w.collected c with
    | .closure cl :: args => if args.length = cl.params.length then some (cl, args) else none
    | _ => none
  | _ => none

/-- The calls of closures that a run makes, in order. -/
def closureCalls (log : Option Log) :
    (fuel : Nat) → Value → Queue → World → List (Closure × List Value)
  | _, _, [], _ => []
  | 0, _, _ :: _, _ => []
  | fuel + 1, current, s :: q, w =>
    match w.trace log (.step s current q.length) with
    | .error _ => []
    | .ok x =>
      (enteredCall? s x).toList ++
        match step s current q x with
        | (.ok (v, q'), w') => closureCalls log fuel v q' w'
        | (.error _, _) => []

end Machine

/-! ## What becomes of the frames -/

/-- From one world to the other, frames with the property only gained bindings at their ends, the
other frames stayed as they were, and every call in a list made a frame, in this order. -/
structure World.Confined (own : FrameId → Prop) (calls : List (Closure × List Value))
    (w w' : World) : Prop where
  /-- What may not be written to is as it was. -/
  same : ∀ {f : FrameId} {F : Frame}, w.frames[f]? = some F → ¬own f → w'.frames[f]? = some F
  /-- Frames keep their outer frames and their bindings, in order. -/
  gains : ∀ {f : FrameId} {F : Frame}, w.frames[f]? = some F → ∃ added,
    w'.frames[f]? = some { F with bindings := F.bindings ++ added }
  /-- There are as many new frames as calls. -/
  size : w'.frames.size = w.frames.size + calls.length
  /-- The frame of a call lies in the frame of the closure and begins with the parameters. -/
  made : ∀ {i : Nat} {cl : Closure} {args : List Value}, calls[i]? = some (cl, args) → ∃ added,
    w'.frames[w.frames.size + i]?
      = some ⟨some cl.frame, Bindings.ofPairs (cl.params.zip args) ++ added⟩

namespace World.Confined

variable {own : FrameId → Prop} {calls calls' : List (Closure × List Value)} {w x w' : World}

theorem of_frames_eq (h : w'.frames = w.frames) : World.Confined own [] w w' where
  same hf _ := h ▸ hf
  gains hf := ⟨[], by rw [h, List.append_nil]; exact hf⟩
  size := by rw [h, List.length_nil, Nat.add_zero]
  made hi := by cases hi

theorem trans (h : World.Confined own calls w x) (h' : World.Confined own calls' x w') :
    World.Confined own (calls ++ calls') w w' where
  same hf hown := h'.same (h.same hf hown) hown
  gains hf := by
    obtain ⟨added, hx⟩ := h.gains hf
    obtain ⟨added', hw'⟩ := h'.gains hx
    exact ⟨added ++ added', by rw [hw', List.append_assoc]⟩
  size := by rw [h'.size, h.size, List.length_append, Nat.add_assoc]
  made {i cl args} hi := by
    rcases Nat.lt_or_ge i calls.length with hlt | hle
    · rw [List.getElem?_append_left hlt] at hi
      obtain ⟨added, hx⟩ := h.made hi
      obtain ⟨added', hw'⟩ := h'.gains hx
      exact ⟨added ++ added', by rw [hw', List.append_assoc]⟩
    · rw [List.getElem?_append_right hle] at hi
      obtain ⟨added, hw'⟩ := h'.made hi
      have hplace : x.frames.size + (i - calls.length) = w.frames.size + i := by
        rw [h.size]
        omega
      exact ⟨added, hplace ▸ hw'⟩

theorem newFrame (cl : Closure) (args : List Value) :
    World.Confined own [(cl, args)] w
      (w.newFrame (some cl.frame) (Bindings.ofPairs (cl.params.zip args))).2 where
  same {f F} hf _ := by
    obtain ⟨hlt, -⟩ := Array.getElem?_eq_some_iff.mp hf
    rw [World.newFrame, Array.getElem?_push, if_neg (Nat.ne_of_lt hlt), hf]
  gains {f F} hf := by
    obtain ⟨hlt, -⟩ := Array.getElem?_eq_some_iff.mp hf
    exact ⟨[], by rw [World.newFrame, Array.getElem?_push, if_neg (Nat.ne_of_lt hlt), hf,
      List.append_nil]⟩
  size := Array.size_push _
  made {i cl' args'} hi := by
    cases i with
    | zero =>
      cases hi
      exact ⟨[], by rw [List.append_nil]; exact Array.getElem?_push_size⟩
    | succ i => cases hi

theorem bind {f : FrameId} (hf : own f) (y : String) (v : Value) :
    World.Confined own [] w (w.bind f y v) where
  same {g F} hg hown := by
    have hne : f ≠ g := by
      rintro rfl
      exact hown hf
    rw [World.bind, Array.getElem?_modify, if_neg hne, hg]
  gains {g F} hg := by
    rw [World.bind, Array.getElem?_modify, hg]
    by_cases hfg : f = g
    · exact ⟨[(y, v)], by rw [if_pos hfg]; rfl⟩
    · exact ⟨[], by rw [if_neg hfg, List.append_nil]⟩
  size := Array.size_modify
  made hi := by cases hi

end World.Confined

namespace Machine

variable {own : FrameId → Prop} {st : Step} {v : Value} {q : Queue} {w w' : World}

/-- **What a step does to the frames**, whether it fails or not. -/
theorem step_confined {r : Except Fault (Value × Queue)} (hst : st.WritesIn own)
    (h : step st v q w = (r, w')) :
    World.Confined own (enteredCall? st w).toList w w' := by
  cases stepped_of_step h with
  | entered happly hc hargs =>
    simp only [happly, enteredCall?, hc, hargs, if_true, Option.toList_some]
    exact .newFrame _ _
  | @defined x frame hdefine hx =>
    subst hdefine
    have hbind : World.Confined own [] w (w.bind frame x v) := .bind (hst _ rfl) x v
    exact hbind.trans (.of_frames_eq rfl)
  | miscounted happly hc hargs =>
    have hcall : enteredCall? st w = none := by
      simp only [happly, enteredCall?, hc, hargs, if_false]
    rw [hcall]
    exact .of_frames_eq rfl
  | primitive happly hc hcall =>
    have hnone : enteredCall? st w = none := by simp only [happly, enteredCall?, hc]
    rw [hnone]
    obtain ⟨-, rfl⟩ := call_ok hcall
    rw [Primitive.effect.eq_def]
    split <;> exact .of_frames_eq rfl
  | refused happly hc _ =>
    have hnone : enteredCall? st w = none := by simp only [happly, enteredCall?, hc]
    rw [hnone]
    exact .of_frames_eq rfl
  | emptyCall happly hc =>
    have hnone : enteredCall? st w = none := by simp only [happly, enteredCall?, hc]
    rw [hnone]
    exact .of_frames_eq rfl
  | @notFunction c frame fn args happly hc hprimitive hclosure =>
    have hnone : enteredCall? st w = none := by
      simp only [happly, enteredCall?, hc]
      cases fn with
      | closure cl => exact absurd rfl (hclosure cl)
      | int | bool | str | undefined | primitive => rfl
    rw [hnone]
    exact .of_frames_eq rfl
  -- all other steps leave the frames alone and enter no call
  | number hproceeds | string hproceeds | name hproceeds | call hproceeds _ | form hproceeds _ _
  | malformed hproceeds _ _ => cases hproceeds <;> exact .of_frames_eq rfl
  | nothing hst | literal hst | found hst _ | unbound hst _ | joined hst | duplicate hst _
  | closure hst => subst hst; exact .of_frames_eq rfl

/-- Where all frames yet to be made may be written to, whole runs hand the frames on. -/
theorem Steps.writesIn {n : Nat} {c c' : Config} (h : Steps n c c')
    (hnew : ∀ f, c.world.frames.size ≤ f → own f) (hq : ∀ s ∈ c.queue, s.WritesIn own) :
    ∀ s ∈ c'.queue, s.WritesIn own := by
  induction h with
  | refl => exact hq
  | @head n st v v' q q' w w' c first _ ih =>
    have hst := hq st List.mem_cons_self
    have hle : w.frames.size ≤ w'.frames.size := by
      rw [(step_confined hst first).size]
      exact Nat.le_add_right _ _
    refine ih (fun f hf ↦ hnew f (Nat.le_trans hle hf)) ?_
    exact step_writesIn (hnew _ (Nat.le_refl _)) hst
      (fun s hs ↦ hq s (List.mem_cons_of_mem _ hs)) first

/-- **What a run does to the frames**, whether it ends, fails or is cut off. -/
theorem run_confined {log : Option Log} {fuel : Nat} {o : Outcome Value}
    (hnew : ∀ f, w.frames.size ≤ f → own f) (hq : ∀ s ∈ q, s.WritesIn own)
    (h : run log fuel v q w = (o, w')) :
    World.Confined own (closureCalls log fuel v q w) w w' := by
  induction fuel generalizing v q w with
  | zero =>
    cases q with
    | nil => cases h; exact .of_frames_eq rfl
    | cons st q => cases h; exact .of_frames_eq rfl
  | succ fuel ih =>
    cases q with
    | nil => cases h; exact .of_frames_eq rfl
    | cons st q =>
      have hst := hq st List.mem_cons_self
      rw [run] at h
      rcases htake : takeStep log st v q w with ⟨r, y⟩
      rw [htake] at h
      rw [closureCalls]
      rcases takeStep_cases htake with ⟨b, htrace, rfl, rfl⟩ | ⟨x, htrace, hstep⟩
      · cases h
        rw [htrace]
        exact .of_frames_eq rfl
      simp only [htrace, hstep]
      -- the note of a traced step concerns the journal only
      obtain ⟨journal, rfl⟩ := World.exists_journal_of_trace htrace
      have hnote : World.Confined own [] w { w with journal } := .of_frames_eq rfl
      have hfirst := hnote.trans (step_confined hst hstep)
      rw [List.nil_append] at hfirst
      rcases r with f | ⟨v', q'⟩
      · cases h
        rwa [List.append_nil]
      · have hsize : w.frames.size ≤ y.frames.size := by
          rw [hfirst.size]
          exact Nat.le_add_right _ _
        refine hfirst.trans (ih (fun f hf ↦ hnew f (Nat.le_trans hsize hf)) ?_ h)
        exact step_writesIn (w := { w with journal }) (hnew _ (Nat.le_refl _)) hst
          (fun s hs ↦ hq s (List.mem_cons_of_mem _ hs)) hstep

/-- **Programs write to frames of their own only.** Let a program run in a frame for any number of
steps, whatever the world holds, and whether it ends, fails or is cut off. All other frames that
there were have the same bindings in the same order and the same outer frames as before. The frame
of the program has gained bindings at its end, and nothing else about it has changed. All other
bindings are in frames that were made meanwhile, one for each call of a closure: it lies in the
frame in which the closure was made, binds the parameters first, and has gained bindings since. -/
theorem evaluate_writes_own_frames_only (log : Option Log) (fuel : Nat) (program : List Expr)
    (own : FrameId) (w : World) :
    let calls := closureCalls log fuel .undefined (Queue.ofProgram program own) w
    let w' := (evaluate log fuel program own w).2
    (∀ f, f < w.frames.size → f ≠ own → w'.frames[f]? = w.frames[f]?) ∧
      (∀ F, w.frames[own]? = some F → ∃ added,
        w'.frames[own]? = some { F with bindings := F.bindings ++ added }) ∧
      w'.frames.size = w.frames.size + calls.length ∧
      ∀ i cl args, calls[i]? = some (cl, args) → ∃ added, w'.frames[w.frames.size + i]?
        = some ⟨some cl.frame, Bindings.ofPairs (cl.params.zip args) ++ added⟩ := by
  intro calls w'
  have hconfined : World.Confined (fun f ↦ f = own ∨ w.frames.size ≤ f) calls w w' :=
    run_confined (fun _ hf ↦ .inr hf) (writesIn_ofProgram (.inl rfl) program) rfl
  refine ⟨fun f hlt hne ↦ ?_, fun F hF ↦ hconfined.gains hF, hconfined.size,
    fun i cl args hi ↦ hconfined.made hi⟩
  have hF := Array.getElem?_eq_getElem hlt
  have hold : ¬(f = own ∨ w.frames.size ≤ f) := by omega
  rw [hconfined.same hF hold, hF]

/-- A world in which the global frame binds a closure that defines a name when it is called, and
with a second frame inside the global one. -/
def lentClosure : World :=
  let definition : Expr := .compound [.reference "define", .reference "f", .compound
    [.reference "lambda", .compound [.reference "x"],
      .compound [.reference "define", .reference "y", .reference "x"], .reference "y"]]
  ((evaluate none 20 [definition] World.globalFrame World.fresh).2.newFrame
    (some World.globalFrame) []).2

/-- A program that defines a name by a call of the closure, and then calls it wrongly. -/
def borrower : List Expr :=
  [.compound [.reference "define", .reference "z", .compound [.reference "f", .number 5]],
    .compound [.reference "f"]]

theorem evaluate_writes_own_frames_only_borrower :
    let w' := (evaluate none 40 borrower 1 lentClosure).2
    (evaluate none 40 borrower 1 lentClosure).1 = .failed (.program (.arity (.closure 1 0))) ∧
      w'.frames[World.globalFrame]? = lentClosure.frames[World.globalFrame]? ∧
      (∃ added, w'.frames[1]? = some ⟨some World.globalFrame, added⟩) ∧
      w'.frames.size = 3 ∧
      ∃ added, w'.frames[2]? = some ⟨some World.globalFrame, ("x", .int 5) :: added⟩ := by
  obtain ⟨hothers, hown, hsize, hmade⟩ :=
    evaluate_writes_own_frames_only none 40 borrower 1 lentClosure
  have hcalls : closureCalls none 40 .undefined (Queue.ofProgram borrower 1) lentClosure
      = [(⟨0, ["x"], [.compound [.reference "define", .reference "y", .reference "x"],
        .reference "y"], World.globalFrame⟩, [.int 5])] := by decide +kernel
  rw [hcalls] at hsize hmade
  exact ⟨by decide +kernel, hothers World.globalFrame (by decide +kernel) (by decide),
    hown _ (by decide +kernel : lentClosure.frames[1]? = some ⟨some World.globalFrame, []⟩),
    hsize, hmade 0 _ _ rfl⟩

end Machine

end Interleave

import Interleave.Proofs.Direct
import Interleave.Proofs.History

/-!
# The attempts that evaluators make

Programs define names in two ways: by a definition, and by the call of a closure, which defines the
parameters in a frame of its own. `Machine.runAttempts` and `Direct.attempts` list these attempts in
the order in which the evaluators make them, with the recursion of the evaluators themselves, so
also where evaluation fails or is cut off.

The lists are the histories of the store (`Machine.run_history`, `Direct.evaluate_leads`).

## Two lists for two evaluators

The machine makes its attempts step by step, so its list follows the run: the attempts of the step
that is taken, in the world in which it is taken, and then those of the rest. The direct evaluator
makes them in the middle of its recursion. Its list follows that recursion, with `Direct.afterwards`
for what is attempted only if the part before it gave a result.

Both lists record what came of each attempt, so they have to be computed with the worlds at hand,
and are not read off the program. That the store changes by them and in no other way is shown by
induction on the fuel for the machine and on the depth for the direct evaluator, with `Direct.Leads`
as what is carried through: the worlds stay intact, and the value that is given refers to nothing
that is not there.
-/

namespace Interleave

/-! ## Calls -/

section Congr

variable {w w' : World}

theorem World.attempts_congr (h : w'.frames = w.frames) (f : FrameId) (bs : Bindings) :
    w'.attempts f bs = w.attempts f bs := by
  induction bs generalizing w w' with
  | nil => rfl
  | cons b bs ih =>
    obtain ⟨x, v⟩ := b
    rw [attempts, attempts]
    cases hx : w.binds f x with
    | true => rw [define_of_binds hx, define_of_binds ((binds_congr h).trans hx)]
    | false =>
      rw [define_of_not_binds hx, define_of_not_binds ((binds_congr h).trans hx)]
      exact congrArg _ (ih (by rw [bind, bind, h]))

theorem World.frameAttempts_congr (h : w'.frames = w.frames) (outer : Option FrameId)
    (bs : Bindings) : w'.frameAttempts outer bs = w.frameAttempts outer bs := by
  rw [frameAttempts, frameAttempts, h]
  exact attempts_congr (by rw [newFrame, newFrame, h]) _ bs

end Congr

namespace Machine

/-- The attempts that a call of a closure makes: one for each parameter, in a new frame. -/
def bindAttempts (cl : Closure) (args : List Value) (w : World) : List Attempt :=
  if args.length = cl.params.length then
    w.frameAttempts (some cl.frame) (Bindings.ofPairs (cl.params.zip args))
  else []

theorem bindArguments_history (cl : Closure) (args : List Value) {w : World}
    (hcl : cl.frame < w.frames.size) :
    w.History (bindAttempts cl args w) (bindArguments cl args w).2 := by
  rw [bindAttempts, bindArguments]
  split
  · exact .frameWith (fun g hg ↦ Option.some.inj hg ▸ hcl) (Bindings.nodup_ofPairs _)
  · exact .refl w

/-! ## The queue machine -/

/-- The attempts that a step makes, with the current value. -/
def stepAttempts (st : Step) (v : Value) (w : World) : List Attempt :=
  match st with
  | .define x f => w.attempts f [(x, v)]
  | .apply c _ =>
    match w.collected c with
    | .closure cl :: args => bindAttempts cl args w
    | _ => []
  | .evaluate .. | .literal _ | .reference .. | .join _ | .branch .. | .closure .. => []

def runAttempts (log : Option Log) : (fuel : Nat) → Value → Queue → World → List Attempt
  | _, _, [], _ => []
  | 0, _, _ :: _, _ => []
  | fuel + 1, current, s :: q, w =>
    match w.trace log (.step s current q.length) with
    | .error _ => []
    | .ok x =>
      stepAttempts s current x ++
        match step s current q x with
        | (.ok (v, q'), w') => runAttempts log fuel v q' w'
        | (.error _, _) => []

section Steps

variable {st : Step} {v : Value} {q : Queue} {w w' : World}

theorem stepAttempts_journal (st : Step) (v : Value) (w : World) (journal : Array Note) :
    stepAttempts st v { w with journal } = stepAttempts st v w := by
  have hframes : World.frames { w with journal } = w.frames := rfl
  have hbind : ∀ cl args, bindAttempts cl args { w with journal } = bindAttempts cl args w := by
    intro cl args
    rw [bindAttempts, bindAttempts]
    split
    · exact World.frameAttempts_congr hframes _ _
    · rfl
  have hcollected : ∀ c, World.collected { w with journal } c = w.collected c := fun _ ↦ rfl
  cases st with
  | define x f => exact World.attempts_congr hframes f _
  | apply c f => simp only [stepAttempts, hcollected, hbind]
  | evaluate | literal | reference | join | branch | closure => rfl

theorem Proceeds.stepAttempts_eq {e : Expr} {frame : FrameId} (h : Proceeds v st e frame) :
    stepAttempts st v w = [] := by
  cases h with
  | evaluate => rfl
  | consequent => rfl
  | alternative => rfl

theorem stepAttempts_define (x : String) (f : FrameId) (v : Value) (w : World) :
    stepAttempts (.define x f) v w = [⟨f, x, v, (w.define f x v).1⟩] := by
  rw [stepAttempts, World.attempts]
  rcases w.define f x v with ⟨e | ⟨⟩, w₁⟩ <;> rfl

theorem stepAttempts_apply {c : CallId} {frame : FrameId} {fn : Value} {args : List Value}
    (hc : w.collected c = fn :: args) (hfn : ∀ cl, fn ≠ .closure cl) :
    stepAttempts (.apply c frame) v w = [] := by
  rw [stepAttempts, hc]
  split
  · rename_i heq
    cases heq
    exact absurd rfl (hfn _)
  · rfl

/-- **A step makes its attempts**, whether it fails or not, and nothing else happens to frames. -/
theorem step_history {r : Except Fault (Value × Queue)} (hst : st.Intact w) (hw : w.Intact)
    (h : step st v q w = (r, w')) : w.History (stepAttempts st v w) w' := by
  cases stepped_of_step h with
  | number hproceeds | string hproceeds | name hproceeds =>
    rw [hproceeds.stepAttempts_eq]
    exact .refl w
  | call hproceeds | form hproceeds | malformed hproceeds =>
    rw [hproceeds.stepAttempts_eq]
    exact .same rfl (Nat.le_refl _)
  | nothing heq | literal heq | found heq | unbound heq =>
    rw [heq]
    exact .refl w
  | joined heq =>
    rw [heq]
    exact .same rfl (Nat.le_refl _)
  | closure heq =>
    rw [heq]
    exact .same rfl (Nat.le_succ _)
  | emptyCall heq hc =>
    rw [heq, stepAttempts, hc]
    exact .refl w
  | primitive heq hc hcall =>
    obtain ⟨hframes, hclosures, -, -⟩ := call_intact hw hcall
    rw [heq, stepAttempts_apply hc (by simp)]
    exact .same hframes (Nat.le_of_eq hclosures.symm)
  | refused heq hc =>
    rw [heq, stepAttempts_apply hc (by simp)]
    exact .refl w
  | notFunction heq hc _ hclosure =>
    rw [heq, stepAttempts_apply hc hclosure]
    exact .refl w
  -- the frame of the call is made empty, and then the parameters are defined in it
  | @entered c frame cl args heq hc hargs =>
    have hvalues := hc ▸ hw.collected c
    have hcl : cl.frame < w.frames.size := (hvalues _ List.mem_cons_self).2
    have hbind := bindArguments_history cl args hcl
    rw [bindArguments, if_pos hargs] at hbind
    rw [heq, stepAttempts, hc]
    exact hbind
  | @miscounted c frame cl args heq hc hargs =>
    rw [heq, stepAttempts, hc]
    simp only [bindAttempts, if_neg hargs]
    exact .refl w
  | @defined x frame heq hx =>
    subst heq
    have hdefine := World.History.attempt hst x v
    rw [← stepAttempts_define, World.define_of_not_binds hx] at hdefine
    exact hdefine.trans_same rfl (Nat.le_refl _)
  | @duplicate x frame heq hx =>
    subst heq
    have hdefine := World.History.attempt hst x v
    rwa [← stepAttempts_define, World.define_of_binds hx] at hdefine

theorem run_history {log : Option Log} {fuel : Nat} {o : Outcome Value} (hv : v.Intact w)
    (hq : ∀ s ∈ q, s.Intact w) (hw : w.Intact) (h : run log fuel v q w = (o, w')) :
    w.History (runAttempts log fuel v q w) w' := by
  induction fuel generalizing v q w with
  | zero =>
    cases q with
    | nil => cases h; exact .refl _
    | cons st q => cases h; exact .refl _
  | succ fuel ih =>
    cases q with
    | nil => cases h; exact .refl _
    | cons st q =>
      rw [run] at h
      rcases htake : takeStep log st v q w with ⟨r, w₁⟩
      rw [htake] at h
      rw [runAttempts]
      rcases takeStep_cases htake with ⟨b, htrace, rfl, rfl⟩ | ⟨x, htrace, hstep⟩
      · cases h
        rw [htrace]
        exact .refl _
      simp only [htrace, hstep]
      -- the note of a traced step concerns the journal only
      obtain ⟨journal, rfl⟩ := World.exists_journal_of_trace htrace
      have hsame : w.History [] { w with journal } := .same rfl (Nat.le_refl _)
      have hnoted : World.Intact { w with journal } := hw.congr rfl rfl (Nat.le_refl _)
      have hst := (hq st List.mem_cons_self).mono hsame.grown
      have hrest := fun s hs ↦ (hq s (List.mem_cons_of_mem _ hs)).mono hsame.grown
      have hhistory := hsame.trans (step_history hst hnoted hstep)
      rcases r with f | ⟨v₁, q₁⟩
      · cases h
        rwa [List.append_nil]
      · obtain ⟨-, hw₁, hok⟩ := step_intact hst (hv.mono hsame.grown) hrest hnoted hstep
        obtain ⟨hv₁, hq₁⟩ := hok _ _ rfl
        exact hhistory.trans (ih hv₁ hq₁ hw₁ h)

def evaluateAttempts (log : Option Log) (fuel : Nat) (es : List Expr) (frame : FrameId)
    (w : World) : List Attempt :=
  runAttempts log fuel .undefined (Queue.ofProgram es frame) w

theorem evaluate_history (log : Option Log) (fuel : Nat) (es : List Expr) {frame : FrameId}
    (hframe : frame < w.frames.size) (hw : w.Intact) :
    w.History (evaluateAttempts log fuel es frame w) (evaluate log fuel es frame w).2 :=
  run_history (v := .undefined) trivial (intact_ofProgram hframe es) hw rfl

end Steps

end Machine

/-! ## The direct evaluator -/

namespace Direct

/-- The attempts made after a computation, if it gave a result. -/
def afterwards {α : Type} (r : Outcome α × World) (k : α → World → List Attempt) : List Attempt :=
  match r with
  | (.done a, w) => k a w
  | (.failed _, _) | (.outOfFuel, _) => []

/-- The attempts made when expressions are evaluated from left to right. -/
def eachAttempts (evaluate : Expr → World → Outcome Value × World)
    (attempts : Expr → World → List Attempt) : List Expr → World → List Attempt
  | [], _ => []
  | e :: es, w =>
    attempts e w ++ afterwards (evaluate e w) fun _ w' ↦ eachAttempts evaluate attempts es w'

/-- The attempts that a call makes with the values of its elements, if expressions make these. -/
def applyAttempts (depth : Nat) (attempts : Expr → FrameId → World → List Attempt) :
    List Value → World → List Attempt
  | .closure c :: args, w =>
    Machine.bindAttempts c args w ++
      match Machine.bindArguments c args w with
      | (.ok inner, w') =>
        eachAttempts (fun e w ↦ evaluate depth e inner w) (fun e w ↦ attempts e inner w) c.body w'
      | (.error _, _) => []
  | _, _ => []

def attempts : (depth : Nat) → Expr → FrameId → World → List Attempt
  | 0, _, _, _ => []
  | depth + 1, e, frame, w =>
    match e with
    | .number _ | .string _ | .reference _ => []
    | .compound es =>
      match Expr.specialForm? es with
      | some (form, parts) =>
        match Form.ofParts form parts with
        | .error _ | .ok (.lambda ..) => []
        | .ok (.conditional c t e) =>
          attempts depth c frame w ++ afterwards (evaluate depth c frame w) fun v w' ↦
            if v.isFalse then (e.map (attempts depth · frame w')).getD []
            else attempts depth t frame w'
        | .ok (.definition x e) =>
          attempts depth e frame w ++ afterwards (evaluate depth e frame w) fun v w' ↦
            w'.attempts frame [(x, v)]
      | none =>
        eachAttempts (fun e w ↦ evaluate depth e frame w) (fun e w ↦ attempts depth e frame w) es w
          ++ afterwards (valuesOf (fun e w ↦ evaluate depth e frame w) es w) fun vs w' ↦
            applyAttempts depth (attempts depth) vs w'

/-- From an intact world the computation led to an intact one by these attempts, and what it gave
has the property. -/
structure Leads {α : Type} (P : World → α → Prop) (as : List Attempt) (w : World)
    (r : Outcome α × World) : Prop where
  history : w.History as r.2
  intact : r.2.Intact
  result : ∀ a, r.1 = .done a → P r.2 a

section Leads

variable {α β : Type} {P : World → α → Prop} {Q : World → β → Prop} {as : List Attempt}
  {w w' : World} {frame : FrameId}

abbrev ValueLeads := Leads fun w v ↦ Value.Intact w v

theorem Leads.done {a : α} (hw : w.Intact) (ha : P w a) : Leads P [] w (.done a, w) :=
  ⟨.refl w, hw, by rintro _ ⟨⟩; exact ha⟩

theorem Leads.failed {f : Fault} (hw : w.Intact) : Leads P [] w (.failed f, w) :=
  ⟨.refl w, hw, by simp⟩

theorem Leads.andThen {r : Outcome α × World} {k : α → World → Outcome β × World}
    {attempts : α → World → List Attempt} (h : Leads P as w r)
    (hk : ∀ a w', P w' a → w'.Intact → w.Grown w' → Leads Q (attempts a w') w' (k a w')) :
    Leads Q (as ++ afterwards r attempts) w (Direct.andThen r k) := by
  obtain ⟨o, w'⟩ := r
  cases o with
  | done a =>
    have hafter := hk a w' (h.result a rfl) h.intact h.history.grown
    exact ⟨h.history.trans hafter.history, hafter.intact, hafter.result⟩
  | failed f => exact ⟨(List.append_nil as).symm ▸ h.history, h.intact, by simp [Direct.andThen]⟩
  | outOfFuel => exact ⟨(List.append_nil as).symm ▸ h.history, h.intact, by simp [Direct.andThen]⟩

theorem afterwards_nil (r : Outcome α × World) : afterwards r (fun _ _ ↦ []) = [] := by
  obtain ⟨_ | _ | _, w⟩ := r <;> rfl

variable {ev : Expr → World → Outcome Value × World} {attempts : Expr → World → List Attempt}
  (hev : ∀ e w, frame < w.frames.size → w.Intact → ValueLeads (attempts e w) w (ev e w))

include hev

theorem valuesOf_leads (es : List Expr) (hframe : frame < w.frames.size) (hw : w.Intact) :
    Leads (fun w vs ↦ ∀ v ∈ vs, Value.Intact w v) (eachAttempts ev attempts es w) w
      (valuesOf ev es w) := by
  induction es generalizing w with
  | nil => exact .done hw (List.forall_mem_nil _)
  | cons e es ih =>
    rw [valuesOf_cons]
    refine (hev e w hframe hw).andThen fun v w₁ hv hw₁ hgrown ↦ ?_
    have hrest := ih (Nat.lt_of_lt_of_le hframe hgrown.frames) hw₁
    rw [← List.append_nil (eachAttempts ev attempts es w₁), ← afterwards_nil (valuesOf ev es w₁)]
    exact hrest.andThen fun vs w₂ hvs hw₂ hgrown₂ ↦
      .done hw₂ (List.forall_mem_cons.mpr ⟨hv.mono hgrown₂, hvs⟩)

theorem lastOf_leads (es : List Expr) {v : Value} (hv : v.Intact w) (hframe : frame < w.frames.size)
    (hw : w.Intact) : ValueLeads (eachAttempts ev attempts es w) w (lastOf ev v es w) := by
  induction es generalizing v w with
  | nil => exact .done hw hv
  | cons e es ih =>
    rw [lastOf_cons]
    exact (hev e w hframe hw).andThen fun u w₁ hu hw₁ hgrown ↦
      ih hu (Nat.lt_of_lt_of_le hframe hgrown.frames) hw₁

end Leads

variable {w : World} {frame : FrameId}

theorem settle_call_leads (p : Primitive) (args : List Value) (hw : w.Intact) :
    ValueLeads [] w (settle (p.call args w)) := by
  rcases hcall : p.call args w with ⟨f | u, w'⟩
  · obtain ⟨rfl, -⟩ := Primitive.call_eq_error hcall
    exact .failed hw
  · obtain ⟨hframes, hclosures, hw', hu⟩ := Machine.call_intact hw hcall
    exact ⟨.same hframes (Nat.le_of_eq hclosures.symm), hw', by rintro _ ⟨⟩; exact hu⟩

theorem define_leads (x : String) {v : Value} (hv : v.Intact w) (hframe : frame < w.frames.size)
    (hw : w.Intact) :
    ValueLeads (w.attempts frame [(x, v)]) w
      (settle ((w.define frame x v).1.map fun _ ↦ .undefined, (w.define frame x v).2)) := by
  have hhistory := World.History.defineAll hframe [(x, v)]
  rw [World.defineAll] at hhistory
  cases hx : w.binds frame x with
  | true =>
    rw [World.define_of_binds hx] at hhistory ⊢
    exact ⟨hhistory, hw, by simp [settle, Except.map]⟩
  | false =>
    rw [World.define_of_not_binds hx] at hhistory ⊢
    exact ⟨hhistory, hw.bind frame x hv, by rintro _ ⟨⟩; trivial⟩

theorem applyAll_leads {depth : Nat} {attempts : Expr → FrameId → World → List Attempt}
    (hev : ∀ e frame w, frame < w.frames.size → w.Intact →
      ValueLeads (attempts e frame w) w (evaluate depth e frame w))
    {vs : List Value} (hvs : ∀ v ∈ vs, v.Intact w) (hw : w.Intact) :
    ValueLeads (applyAttempts depth attempts vs w) w (applyAll depth vs w) := by
  cases vs with
  | nil => exact .failed hw
  | cons fn args =>
    cases fn with
    | primitive p => exact settle_call_leads p args hw
    | closure c =>
      have hc : c.frame < w.frames.size := (hvs _ List.mem_cons_self).2
      have hargs := fun v hv ↦ hvs v (List.mem_cons_of_mem _ hv)
      have hbind := Machine.bindArguments_history c args hc
      rw [applyAttempts, applyAll]
      by_cases hlength : args.length = c.params.length
      · simp only [Machine.bindArguments, if_pos hlength] at hbind ⊢
        have hcall := hw.callFrame hc c.params hargs
        have hinner : w.frames.size < (w.newFrame (some c.frame)
            (Bindings.ofPairs (c.params.zip args))).2.frames.size := by
          rw [World.newFrame, Array.size_push]
          exact Nat.lt_succ_self _
        have hbody :=
          lastOf_leads (fun e w ↦ hev e _ w) c.body (v := .undefined) trivial hinner hcall
        exact ⟨hbind.trans hbody.history, hbody.intact, hbody.result⟩
      · simp only [Machine.bindArguments, if_neg hlength] at hbind ⊢
        rw [List.append_nil]
        exact ⟨hbind, hw, by simp⟩
    | int | bool | str | undefined => exact .failed hw

/-- **Direct evaluation makes its attempts**, whether it ends, fails or is cut off, and nothing else
happens to frames. -/
theorem evaluate_leads (depth : Nat) (e : Expr) (hframe : frame < w.frames.size) (hw : w.Intact) :
    ValueLeads (attempts depth e frame w) w (evaluate depth e frame w) := by
  induction depth generalizing e frame w with
  | zero => exact ⟨.refl w, hw, by simp [evaluate]⟩
  | succ depth ih =>
    -- what is evaluated later works in the same frame, which is still there
    have hlater : ∀ {w' : World}, w.Grown w' → frame < w'.frames.size :=
      fun hgrown ↦ Nat.lt_of_lt_of_le hframe hgrown.frames
    cases e with
    | number n => exact .done hw trivial
    | string t => exact .done hw trivial
    | reference x =>
      cases hx : w.lookup frame x with
      | error f =>
        simp only [evaluate, hx]
        exact .failed hw
      | ok v =>
        simp only [evaluate, hx]
        exact .done hw (hw.lookup hx)
    | compound es =>
      cases hform : Expr.specialForm? es with
      | none =>
        rw [evaluate_call hform, attempts]
        simp only [hform]
        exact (valuesOf_leads (fun e w ↦ ih e) es hframe hw).andThen fun vs w₁ hvs hw₁ _ ↦
          applyAll_leads (fun e frame w ↦ ih e) hvs hw₁
      | some kp =>
        obtain ⟨k, parts⟩ := kp
        cases hparts : Form.ofParts k parts with
        | error f =>
          rw [evaluate_malformed hform hparts, attempts]
          simp only [hform, hparts]
          exact .failed hw
        | ok fm =>
          cases fm with
          | conditional c t a =>
            rw [evaluate_conditional hform hparts, attempts]
            simp only [hform, hparts]
            -- the condition first, and then the branch in the world that it leaves
            refine (ih c hframe hw).andThen fun v w₁ hv hw₁ hgrown ↦ ?_
            by_cases hfalse : v.isFalse = true
            · cases a with
              | none =>
                simp only [evaluateBranch, if_pos hfalse]
                exact .done hw₁ trivial
              | some a =>
                simp only [evaluateBranch, if_pos hfalse]
                exact ih a (hlater hgrown) hw₁
            · simp only [evaluateBranch, if_neg hfalse]
              exact ih t (hlater hgrown) hw₁
          | definition x e =>
            rw [evaluate_definition hform hparts, attempts]
            simp only [hform, hparts]
            exact (ih e hframe hw).andThen fun v w₁ hv hw₁ hgrown ↦
              define_leads x hv (hlater hgrown) hw₁
          | lambda params body =>
            rw [evaluate_lambda hform hparts, attempts]
            simp only [hform, hparts]
            exact ⟨.same rfl (Nat.le_succ _), hw.congr rfl rfl (Nat.le_succ _),
              by rintro _ ⟨⟩; exact ⟨Nat.lt_succ_self _, hframe⟩⟩

/-- The attempts made when expressions are evaluated one after the other. -/
def attemptsAll (depth : Nat) (es : List Expr) (frame : FrameId) (w : World) : List Attempt :=
  eachAttempts (fun e w ↦ evaluate depth e frame w) (fun e w ↦ attempts depth e frame w) es w

theorem evaluateAll_leads (depth : Nat) (es : List Expr) (hframe : frame < w.frames.size)
    (hw : w.Intact) :
    ValueLeads (attemptsAll depth es frame w) w (evaluateAll depth es frame w) :=
  lastOf_leads (fun e _ ↦ evaluate_leads depth e) es (v := .undefined) trivial hframe hw

end Direct

end Interleave

import Interleave.Proofs.Onlookers

/-!
# How many steps a program takes

A program without special forms, in which nothing but primitives is called, takes a number of steps
that can be read off its expressions: three for every node of an expression, less one for the whole
of it. An atom takes two steps, one that looks what it is and one that gives its value. A compound
takes one step to begin the call and one to apply the function, and between them every element takes
its own steps and one more that joins its value to the record of the call.

That is a fact about the beginning of a queue, whatever is queued behind it
(`Machine.steps_evaluate`). The number does not depend on the values, and they matter only in so far
as no step may fail and no closure may be called. So the run is assumed to come to its end
(`Machine.Config.Smooth`), and each step of it is then known to succeed.

A thread that is alone takes the steps of the machine one by one, a pass for each
(`Session.passes_alone`). So the same number is what its session counts.
-/

namespace Interleave

namespace Expr

/-! ## Sizes -/

mutual

/-- How many nodes an expression has, atoms and compounds. -/
def size : Expr → Nat
  | .compound es => sizeAll es + 1
  | _ => 1

def sizeAll : List Expr → Nat
  | [] => 0
  | e :: es => size e + sizeAll es

end

mutual

/-- Whether no compound in the expression is a special form. -/
def hasNoForms : Expr → Bool
  | .compound es => (specialForm? es).isNone && hasNoFormsAll es
  | _ => true

/-- Whether no compound in the expressions is a special form. -/
def hasNoFormsAll : List Expr → Bool
  | [] => true
  | e :: es => hasNoForms e && hasNoFormsAll es

end

theorem size_pos (e : Expr) : 0 < e.size := by
  match e with
  | .number _ | .string _ | .reference _ => exact Nat.one_pos
  | .compound es =>
    rw [size]
    exact Nat.succ_pos _

/-- How many steps it takes to evaluate expressions one after the other: for each of them three
steps a node, less one. -/
def stepCount : List Expr → Nat
  | [] => 0
  | e :: es => 3 * e.size - 1 + stepCount es

end Expr

namespace Machine

/-! ## Runs that call primitives only -/

/-- Every value that is applied on the way from the configuration is a primitive. -/
def Config.CallsPrimitives (c : Config) : Prop :=
  ∀ (n : Nat) (v : Value) (call : CallId) (frame : FrameId) (q : Queue) (w : World) (fn : Value)
    (args : List Value), Steps n c ⟨v, .apply call frame :: q, w⟩ →
      w.collected call = fn :: args → ∃ p, fn = .primitive p

/-- Whether a step, if it applies a value, applies a primitive. -/
def appliesPrimitive (w : World) : Step → Bool
  | .apply call _ =>
    match w.collected call with
    | [] | .primitive _ :: _ => true
    | _ :: _ => false
  | _ => true

/-- Whether a run ends after at most `fuel` steps that apply primitives only. -/
def Config.callsPrimitives : (fuel : Nat) → Config → Bool
  | _, ⟨_, [], _⟩ => true
  | 0, ⟨_, _ :: _, _⟩ => false
  | fuel + 1, ⟨v, st :: q, w⟩ =>
    appliesPrimitive w st &&
      match step st v q w with
      | (.ok (v', q'), w') => callsPrimitives fuel ⟨v', q', w'⟩
      | (.error _, _) => true

theorem Config.callsPrimitives_sound (fuel : Nat) {c : Config}
    (h : c.callsPrimitives fuel = true) : c.CallsPrimitives := by
  intro n v call frame q w fn args hsteps hc
  induction fuel generalizing c n with
  | zero =>
    cases hsteps with
    | refl => cases h
    | head => cases h
  | succ fuel ih =>
    cases hsteps with
    | refl =>
      rw [callsPrimitives, Bool.and_eq_true, appliesPrimitive, hc] at h
      cases fn with
      | primitive p => exact ⟨p, rfl⟩
      | _ => cases h.1
    | head first rest =>
      rw [callsPrimitives, first, Bool.and_eq_true] at h
      exact ih h.2 _ rest

/-- The run that starts in the configuration comes to its end and calls primitives only. -/
structure Config.Smooth (c : Config) : Prop where
  ends : ∃ n v w, Steps n c ⟨v, [], w⟩
  callees : c.CallsPrimitives

/-- A run that comes to its end passes through wherever its steps lead. -/
theorem Config.Smooth.of_steps {c d : Config} {n : Nat} (h : c.Smooth) (hsteps : Steps n c d) :
    d.Smooth := by
  refine ⟨?_, fun m v call frame q w fn args hd hc ↦ ?_⟩
  · obtain ⟨m, v, w, hend⟩ := h.ends
    rcases Nat.le_total n m with hle | hle
    · obtain ⟨k, rfl⟩ := Nat.exists_eq_add_of_le hle
      obtain ⟨d', hd', hrest⟩ := hend.split
      rw [hd'.unique hsteps] at hrest
      exact ⟨k, v, w, hrest⟩
    · -- there is no step to take behind the end
      obtain ⟨k, rfl⟩ := Nat.exists_eq_add_of_le hle
      obtain ⟨d', hd', hrest⟩ := hsteps.split
      rw [hd'.unique hend] at hrest
      cases hrest
      exact ⟨0, v, w, .refl _⟩
  · exact h.callees (n + m) v call frame q w fn args (hsteps.trans hd) hc

theorem Config.Smooth.exists_step {st : Step} {v : Value} {q : Queue} {w : World}
    (h : Config.Smooth ⟨v, st :: q, w⟩) :
    ∃ v' q' w', step st v q w = (.ok (v', q'), w') := by
  obtain ⟨n, u, x, hend⟩ := h.ends
  cases hend with
  | head first _ => exact ⟨_, _, _, first⟩

section Count

variable {frame : FrameId} {v : Value} {q : Queue} {w : World}

theorem Config.Smooth.step_reference {x : String}
    (h : Config.Smooth ⟨v, .reference x frame :: q, w⟩) :
    ∃ v' w', Steps 1 ⟨v, .reference x frame :: q, w⟩ ⟨v', q, w'⟩ := by
  obtain ⟨v', q', w', hstep⟩ := h.exists_step
  cases stepped_of_step hstep with
  | found => exact ⟨_, _, .one hstep⟩
  | number hst | string hst | name hst | call hst | form hst => cases hst
  | nothing hst | literal hst | joined hst | primitive hst | entered hst | defined hst
  | closure hst => cases hst

theorem Config.Smooth.step_apply {c : CallId} (h : Config.Smooth ⟨v, .apply c frame :: q, w⟩) :
    ∃ v' w', Steps 1 ⟨v, .apply c frame :: q, w⟩ ⟨v', q, w'⟩ := by
  obtain ⟨v', q', w', hstep⟩ := h.exists_step
  cases stepped_of_step hstep with
  | primitive => exact ⟨_, _, .one hstep⟩
  | entered hst hc =>
    cases hst
    obtain ⟨p, hp⟩ := h.callees 0 v c frame q w _ _ (.refl _) hc
    cases hp
  | number hst | string hst | name hst | call hst | form hst => cases hst
  | nothing hst | literal hst | found hst | joined hst | defined hst | closure hst => cases hst

mutual

/-- **The steps of an expression**, whatever is queued behind it. -/
theorem steps_evaluate (e : Expr) (he : e.hasNoForms = true) {v : Value} {q : Queue} {w : World}
    (h : Config.Smooth ⟨v, .evaluate e frame :: q, w⟩) :
    ∃ v' w', Steps (3 * e.size - 1) ⟨v, .evaluate e frame :: q, w⟩ ⟨v', q, w'⟩ := by
  match e with
  | .number n => exact ⟨_, _, .head rfl (.one rfl)⟩
  | .string s => exact ⟨_, _, .head rfl (.one rfl)⟩
  | .reference x =>
    have hfirst : Steps 1 ⟨v, .evaluate (.reference x) frame :: q, w⟩
        ⟨.undefined, .reference x frame :: q, w⟩ := .one rfl
    obtain ⟨v', w', hlookup⟩ := (h.of_steps hfirst).step_reference
    exact ⟨v', w', hfirst.trans hlookup⟩
  | .compound es =>
    rw [Expr.hasNoForms, Bool.and_eq_true, Option.isNone_iff_eq_none] at he
    have hbegin : Steps 1 ⟨v, .evaluate (.compound es) frame :: q, w⟩
        ⟨.undefined, callSteps frame w.calls.size es ++ q, (w.newCall []).2⟩ := by
      refine .one ?_
      rw [step, proceed, expand, he.1]
      rfl
    obtain ⟨u, x, helements⟩ := steps_callSteps es he.2 (h.of_steps hbegin)
    have hgathered := hbegin.trans helements
    obtain ⟨v', w', happly⟩ := (h.of_steps hgathered).step_apply
    have hcount : 3 * (Expr.compound es).size - 1 = 1 + 3 * Expr.sizeAll es + 1 := by
      rw [Expr.size]
      omega
    rw [hcount]
    exact ⟨v', w', hgathered.trans happly⟩

/-- The elements of a call take their steps, and one more each that joins its value to the record
of the call. Then there is the function to apply. -/
theorem steps_callSteps (es : List Expr) (hes : Expr.hasNoFormsAll es = true) {c : CallId}
    {v : Value} {q : Queue} {w : World}
    (h : Config.Smooth ⟨v, callSteps frame c es ++ q, w⟩) :
    ∃ v' w', Steps (3 * Expr.sizeAll es) ⟨v, callSteps frame c es ++ q, w⟩
      ⟨v', .apply c frame :: q, w'⟩ := by
  match es with
  | [] => exact ⟨v, w, .refl _⟩
  | e :: es =>
    rw [Expr.hasNoFormsAll, Bool.and_eq_true] at hes
    obtain ⟨u, x, hfirst⟩ := steps_evaluate e hes.1 h
    have hjoin : Steps 1 ⟨u, .join c :: (callSteps frame c es ++ q), x⟩
        ⟨u, callSteps frame c es ++ q, x.collect c u⟩ := .one rfl
    have hjoined := hfirst.trans hjoin
    obtain ⟨v', w', hothers⟩ := steps_callSteps es hes.2 (h.of_steps hjoined)
    have hpos := e.size_pos
    have hcount : 3 * Expr.sizeAll (e :: es) = 3 * e.size - 1 + 1 + 3 * Expr.sizeAll es := by
      rw [Expr.sizeAll]
      omega
    rw [hcount]
    exact ⟨v', w', hjoined.trans hothers⟩

end

/-- **The steps of a program**, whatever is queued behind it. -/
theorem steps_ofProgram {es : List Expr} (hes : ∀ e ∈ es, e.hasNoForms = true)
    (h : Config.Smooth ⟨v, Queue.ofProgram es frame ++ q, w⟩) :
    ∃ v' w', Steps (Expr.stepCount es) ⟨v, Queue.ofProgram es frame ++ q, w⟩ ⟨v', q, w'⟩ := by
  induction es generalizing v w with
  | nil => exact ⟨v, w, .refl _⟩
  | cons e es ih =>
    rw [List.forall_mem_cons] at hes
    obtain ⟨u, x, hfirst⟩ := steps_evaluate e hes.1 h
    obtain ⟨v', w', hothers⟩ := ih hes.2 (h.of_steps hfirst)
    rw [Expr.stepCount]
    exact ⟨v', w', hfirst.trans hothers⟩

end Count

/-! ## Runs and their steps -/

theorem exists_step_of_alike {st : Step} {v : Value} {q : Queue} {w w' w₁ : World}
    {r : Except Fault (Value × Queue)} (hw : w.Alike w') (h : step st v q w = (r, w₁)) :
    ∃ w₁', w₁.Alike w₁' ∧ step st v q w' = (r, w₁') := by
  obtain ⟨hr, hw₁⟩ := step_alike st v q hw
  rw [h] at hr hw₁
  exact ⟨_, hw₁, Prod.ext hr.symm rfl⟩

/-- The step of a run that is traced is the step of one that is not. -/
theorem exists_step_of_takeStep {log : Option Log} {st : Step} {v v₁ : Value} {q q₁ : Queue}
    {w w' w₁ : World} (hw : w.Alike w') (h : takeStep log st v q w = (.ok (v₁, q₁), w₁)) :
    ∃ w₁', w₁.Alike w₁' ∧ step st v q w' = (.ok (v₁, q₁), w₁') := by
  rcases takeStep_cases h with ⟨b, -, hr, -⟩ | ⟨x, htrace, hstep⟩
  · cases hr
  · obtain ⟨journal, rfl⟩ := World.exists_journal_of_trace htrace
    have hx : World.Alike { w with journal } w' := hw
    exact exists_step_of_alike hx hstep

/-- A run that comes to its end takes a number of steps, whether they are traced or not: so much
fuel is enough for it, and less is not. -/
theorem exists_steps_of_run {log : Option Log} {fuel : Nat} {v u : Value} {q : Queue}
    {w w' x : World} (hw : w.Alike w') (h : run log fuel v q w = (.done u, x)) :
    ∃ n x', Steps n ⟨v, q, w'⟩ ⟨u, [], x'⟩ ∧
      ∀ fuel, (run log fuel v q w).1 = if n ≤ fuel then .done u else .outOfFuel := by
  induction fuel generalizing v q w w' with
  | zero =>
    cases q with
    | nil =>
      cases h
      exact ⟨0, w', .refl _, fun fuel ↦ by rw [run_nil, if_pos (Nat.zero_le _)]⟩
    | cons st q => cases h
  | succ fuel ih =>
    cases q with
    | nil =>
      cases h
      exact ⟨0, w', .refl _, fun fuel ↦ by rw [run_nil, if_pos (Nat.zero_le _)]⟩
    | cons st q =>
      rcases htake : takeStep log st v q w with ⟨f | ⟨v₁, q₁⟩, w₁⟩
      · rw [run_of_takeStep_error htake] at h
        cases h
      obtain ⟨w₁', hw₁, hstep⟩ := exists_step_of_takeStep hw htake
      rw [run_of_takeStep_ok htake] at h
      obtain ⟨n, x', hsteps, hrun⟩ := ih hw₁ h
      refine ⟨n + 1, x', .head hstep hsteps, fun fuel ↦ ?_⟩
      cases fuel with
      | zero => rfl
      | succ fuel =>
        rw [run_of_takeStep_ok htake, hrun]
        simp only [Nat.add_le_add_iff_right]

end Machine

/-! ## A thread that is alone -/

namespace Session

/-- A pass is over when the first visit leaves nobody to be visited. -/
theorem pass_of_visit {sup : Supervision} {p : Progress} {s s' : Session}
    (hvisit : s.visit sup none {} = .next p s') (hp : s'.active.size ≤ p.visited) :
    s.pass sup 2 none = (.done p.executed, { s' with active := p.kept }) := by
  have hover : s'.visit sup none p = .finished p.executed { s' with active := p.kept } := by
    rw [visit, Array.getElem?_eq_none hp]
  rw [pass, passFrom_succ_of_next hvisit, passFrom_succ_of_finished hover]

/-- A thread that is alone takes the steps of the machine, in passes of one step each, and is
retired with the last of them. -/
theorem passes_alone {sup : Supervision} (hsup : sup.IsLenient) {c d : Machine.Config}
    {n : Nat} (hsteps : Machine.Steps n c d) (hd : d.queue = []) {s : Session} {id : Nat}
    {t : Thread} (hactive : s.active = #[id]) (ht : s.threads[id]? = some t)
    (hc : t.isCancelled = false)
    (hcurrent : t.current = c.current) (hqueue : t.queue = c.queue)
    (hworld : c.world.Alike s.world) :
    ∃ s', Passes sup s n s' ∧ s'.active = #[] ∧ s'.retired = s.retired.push id ∧
      s'.failed = s.failed ∧ s'.threads[id]? = some
        { t with current := d.current, queue := [], steps := t.steps + n, isRetired := true } := by
  have hid : s.active[({} : Progress).visited]? = some id := by
    rw [hactive]
    rfl
  have hdone : s.isDone = false := by
    rw [isDone, hactive]
    rfl
  induction hsteps generalizing s t with
  | refl c =>
    -- there is nothing to do, and the thread is retired without a step
    have hidle : s.isIdle id = true := by
      rw [isIdle, ht, Option.all_some, hqueue, hd]
      exact Bool.or_true _
    have hvisit : s.visit sup none {} = .next (Progress.skip {}) (s.retire id) := by
      rw [visit, hid]
      simp only [Option.any_none, Bool.false_eq_true, if_false, hidle, if_true]
    have hpass := pass_of_visit hvisit (Nat.le_of_eq (congrArg Array.size hactive))
    refine ⟨_, .cons hdone hpass (.refl _), rfl, rfl, rfl, ?_⟩
    rw [getElem?_threads_retire, if_pos rfl, ht, Option.map_some, ← hcurrent, ← hd, ← hqueue]
    rfl
  | @head n st v v' q q' w w' d first rest ih =>
    have hlt : id < s.threads.size := (Array.getElem?_eq_some_iff.mp ht).1
    have hturn : w.Alike (sup.turnWorld id st s.world) := by
      obtain ⟨journal, hj⟩ := sup.turnWorld_eq id st s.world
      rw [hj]
      exact hworld
    obtain ⟨x, hx, hstep⟩ := Machine.exists_step_of_alike hturn first
    have ready : s.Ready id t st q := ⟨ht, hc, hqueue⟩
    have hvisit : s.visit sup none {} = _ := visit_of_ready hid rfl ready (hsup st)
    rw [hcurrent, hstep] at hvisit
    cases q' with
    | nil =>
      cases rest
      have hpass := pass_of_visit hvisit (Nat.le_of_eq (congrArg Array.size hactive))
      have hpasses := Passes.cons hdone hpass (.refl _)
      refine ⟨_, hpasses, rfl, rfl, rfl, ?_⟩
      rw [getElem?_threads_retire, if_pos rfl, getElem?_threads_replace hlt, if_pos rfl]
      rfl
    | cons st' q' =>
      have hpass := pass_of_visit hvisit (Nat.le_of_eq (congrArg Array.size hactive))
      have ht' := getElem?_threads_replace hlt
        { t with current := v', queue := st' :: q', steps := t.steps + 1 } x id
      rw [if_pos rfl] at ht'
      obtain ⟨s', hpasses, hend, hretired, hfailed, hthread⟩ :=
        @ih hd { s.replace id _ x with active := #[id] } _ rfl ht' hc rfl rfl hx rfl rfl
      rw [Nat.add_right_comm] at hthread
      refine ⟨s', ?_, hend, hretired, hfailed, hthread⟩
      rw [Nat.add_comm]
      exact .cons hdone hpass hpasses

/-- A run of a thread that is made and has no company takes the steps of its program. -/
theorem run_spawn_alone {sup : Supervision} (hsup : sup.IsLenient) {s : Session}
    {es : List Expr} {frame : FrameId} {n : Nat} {v : Value} {w : World} (hactive : s.active = #[])
    (hsteps : Machine.Steps n (.ofProgram es frame s.world) ⟨v, [], w⟩) :
    ∃ fuel₀ s', (∀ fuel, fuel₀ ≤ fuel → (s.spawn es frame).run sup fuel none = (.done n, s')) ∧
      s'.active = #[] ∧ s'.retired = s.retired.push s.threads.size ∧ s'.failed = s.failed ∧
      s'.threads[s.threads.size]? = some
        { id := s.threads.size, queue := [], current := v, isRetired := true, steps := n } := by
  have hactive' : (s.spawn es frame).active = #[s.threads.size] := by
    rw [spawn, hactive]
    rfl
  obtain ⟨s', hpasses, hend, hretired, hfailed, hthread⟩ :=
    passes_alone hsup hsteps rfl hactive' Array.getElem?_push_size rfl rfl rfl rfl
  obtain ⟨fuel₀, hrun⟩ := hpasses.run_none (by rw [isDone, hend]; rfl) 0
  rw [Nat.zero_add] at hrun hthread
  refine ⟨fuel₀, s', fun fuel hfuel ↦ ?_, hend, hretired, hfailed, hthread⟩
  rw [run, (runFrom_mono hfuel (by rw [hrun]; simp)).1, hrun]

end Session

/-! ## Programs that call primitives only -/

/-- **Programs without special forms that call primitives only take three steps for every node**
of their expressions, less one for each expression. Traced or not, an evaluation that ends does so
with so much fuel and with no less, and a thread that is made for the program and has no company is
retired after so many steps, whoever watches over it, as long as no log breaks off. -/
theorem primitive_programs_take_three_steps_a_node {log : Option Log} {s : Session} {es : List Expr}
    {frame : FrameId} (hes : ∀ e ∈ es, e.hasNoForms = true)
    (hends : ∃ fuel v w, Machine.evaluate log fuel es frame s.world = (.done v, w))
    (hcallees : (Machine.Config.ofProgram es frame s.world).CallsPrimitives) :
    ∃ v, (∀ fuel, (Machine.evaluate log fuel es frame s.world).1
        = if Expr.stepCount es ≤ fuel then .done v else .outOfFuel) ∧
      (s.active = #[] → ∀ sup : Supervision, sup.IsLenient → ∃ fuel₀ s',
        (∀ fuel, fuel₀ ≤ fuel →
          (s.spawn es frame).run sup fuel none = (.done (Expr.stepCount es), s')) ∧
        s'.active = #[] ∧ s'.retired = s.retired.push s.threads.size ∧ s'.failed = s.failed ∧
        s'.threads[s.threads.size]? = some
          { id := s.threads.size, queue := [], current := v, isRetired := true,
            steps := Expr.stepCount es }) := by
  obtain ⟨fuel, v, w, hdone⟩ := hends
  obtain ⟨n, x, hsteps, hfuel⟩ := Machine.exists_steps_of_run rfl hdone
  have hsmooth : Machine.Config.Smooth ⟨.undefined, Queue.ofProgram es frame ++ [], s.world⟩ := by
    rw [List.append_nil]
    exact ⟨⟨n, v, x, hsteps⟩, hcallees⟩
  obtain ⟨v', w', hcount⟩ := Machine.steps_ofProgram hes hsmooth
  rw [List.append_nil] at hcount
  obtain ⟨rfl, -⟩ := hsteps.last_unique hcount (Machine.isLast_of_queue_eq_nil rfl)
    (Machine.isLast_of_queue_eq_nil rfl)
  exact ⟨v, hfuel, fun hactive sup hsup ↦ Session.run_spawn_alone hsup hactive hsteps⟩

/-- Calls inside a call, and a name. -/
def nestedCalls : List Expr :=
  [.compound [.reference "print", .compound [.reference "+", .number 1,
    .compound [.reference "*", .number 2, .number 3]], .string "is seven"], .reference "#t"]

theorem primitive_programs_take_three_steps_a_node_nestedCalls :
    nestedCalls.map Expr.size = [10, 1] ∧ Expr.stepCount nestedCalls = 31 ∧ ∃ v,
      (∀ fuel, (Machine.evaluate (some .strict) fuel nestedCalls World.globalFrame
          Session.fresh.world).1
        = if Expr.stepCount nestedCalls ≤ fuel then .done v else .outOfFuel) ∧
      ∃ fuel₀ s', (∀ fuel, fuel₀ ≤ fuel →
        (Session.fresh.spawn nestedCalls World.globalFrame).run {} fuel none
          = (.done (Expr.stepCount nestedCalls), s')) ∧
        s'.threads[0]? = some
          { id := 0, queue := [], current := v, isRetired := true,
            steps := Expr.stepCount nestedCalls } := by
  have hforms : ∀ e ∈ nestedCalls, e.hasNoForms = true := by decide +kernel
  have hdone : ∃ fuel v w, Machine.evaluate (some .strict) fuel nestedCalls World.globalFrame
      Session.fresh.world = (.done v, w) := by
    have hvalue : (Machine.evaluate (some .strict) 31 nestedCalls World.globalFrame
        Session.fresh.world).1 = .done (.bool true) := by decide +kernel
    refine ⟨31, .bool true, (Machine.evaluate (some .strict) 31 nestedCalls World.globalFrame
      Session.fresh.world).2, ?_⟩
    rw [← hvalue]
  have hcallees : (Machine.Config.ofProgram nestedCalls World.globalFrame
      Session.fresh.world).CallsPrimitives :=
    Machine.Config.callsPrimitives_sound 31 (by decide +kernel)
  obtain ⟨v, hfuel, hrun⟩ := primitive_programs_take_three_steps_a_node hforms hdone hcallees
  obtain ⟨fuel₀, s', hrun, -, -, -, hthread⟩ := hrun rfl {} .default
  exact ⟨by decide +kernel, by decide +kernel, v, hfuel, fuel₀, s', hrun, hthread⟩

end Interleave

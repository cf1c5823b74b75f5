import Interleave.Proofs.Composition

/-!
# Tail calls

The call of a closure puts its body in front of the queue and leaves nothing behind for the caller.
So when the last thing that a body does is another call, then at that call the queue is what it was
when the body was entered, and a loop that is written as such calls runs in a queue that does not
grow.

Which application belongs to a call in tail position cannot be seen from a queue, in which the same
expressions may wait many times over. So steps are marked. The step that evaluates the last
expression of a body is marked with that expression; when a marked step goes on with an expression,
the mark passes to the step that completes it, which is the application of a call and the branch of
a conditional, and all other steps are plain. Marks change nothing: without them a marked run is a
run (`Machine.Follows.of_steps`).

The invariant is `Machine.TailAt`: at most one step is marked, and what stands behind it is the
queue in which the closure was called.
-/

namespace Interleave

/-! ## Tail position -/

namespace Expr

/-- A call: a compound that is no special form. -/
def IsCall (e : Expr) : Prop :=
  ∃ es, e = .compound es ∧ specialForm? es = none

def IsConditional (e c t : Expr) (a : Option Expr) : Prop :=
  ∃ es k parts, e = .compound es ∧ specialForm? es = some (k, parts) ∧
    Form.ofParts k parts = .ok (.conditional c t a)

/-- The second expression is in tail position of the first: it is the first itself, or in tail
position of one of the two alternatives of a conditional. -/
inductive InTail : Expr → Expr → Prop where
  | self (e : Expr) : InTail e e
  | consequent {e c t e' : Expr} {a : Option Expr} (h : e.IsConditional c t a) (ht : InTail t e') :
    InTail e e'
  | alternative {e c t a e' : Expr} (h : e.IsConditional c t (some a)) (ha : InTail a e') :
    InTail e e'

theorem InTail.trans {e e' e'' : Expr} (h : InTail e e') (h' : InTail e' e'') : InTail e e'' := by
  induction h with
  | self => exact h'
  | consequent hc _ ih => exact .consequent hc (ih h')
  | alternative hc _ ih => exact .alternative hc (ih h')

end Expr

/-! ## Marked steps -/

namespace Machine

/-- A step to be taken, and the expression in tail position that it completes, if it does. -/
structure Marked where
  /-- The step. -/
  step : Step
  /-- The expression in tail position. -/
  tail : Option Expr

def plain (st : Step) : Marked := ⟨st, none⟩

def erase (q : List Marked) : Queue := q.map Marked.step

@[simp] theorem erase_cons (st : Marked) (q : List Marked) :
    erase (st :: q) = st.step :: erase q := rfl

@[simp] theorem erase_append (q r : List Marked) : erase (q ++ r) = erase q ++ erase r :=
  List.map_append

@[simp] theorem erase_map_plain (q : Queue) : erase (q.map plain) = q := by
  simp [erase, Function.comp_def, plain]

/-- The step is the last one of a call or of a conditional. -/
def Completes : Step → Bool
  | .apply .. | .branch .. => true
  | .evaluate .. | .literal .. | .reference .. | .join .. | .define .. | .closure .. => false

def next? (v : Value) : Step → Option Expr
  | .evaluate e _ => some e
  | .branch t a _ => if v.isFalse then a else some t
  | .literal .. | .reference .. | .join .. | .apply .. | .define .. | .closure .. => none

theorem Proceeds.next? {v : Value} {st : Step} {e : Expr} {frame : FrameId}
    (h : Proceeds v st e frame) : Machine.next? v st = some e := by
  cases h with
  | evaluate => rfl
  | consequent hv => simp [Machine.next?, hv]
  | alternative hv => simp [Machine.next?, hv]

/-- Marks the steps that a step puts in front of the queue. -/
def inherit (st : Marked) (v : Value) (front : Queue) : List Marked :=
  front.map fun s ↦ ⟨s, if Completes s then st.tail.bind fun _ ↦ next? v st.step else none⟩

@[simp] theorem erase_inherit (st : Marked) (v : Value) (front : Queue) :
    erase (inherit st v front) = front := by
  simp [erase, inherit, Function.comp_def]

/-- A step of a marked queue. Others may change the world between two steps, so each is taken in a
world of its own. -/
inductive Advances : Value × List Marked → Value × List Marked → Prop where
  | step {st : Marked} {v v' : Value} {q : List Marked} {front : Queue} {w w' : World}
    (h : Machine.step st.step v [] w = (.ok (v', front), w')) :
    Advances (v, st :: q) (v', inherit st v front ++ q)

/-- So many steps of a marked queue. -/
inductive Follows : Value × List Marked → Value × List Marked → Prop where
  | refl (a : Value × List Marked) : Follows a a
  | head {a b c : Value × List Marked} (first : Advances a b) (rest : Follows b c) : Follows a c

theorem Advances.of_step {st : Marked} {v v' : Value} {m : List Marked} {q' : Queue} {w w' : World}
    (h : Machine.step st.step v (erase m) w = (.ok (v', q'), w')) :
    ∃ m', Advances (v, st :: m) (v', m') ∧ erase m' = q' := by
  have happend := step_append [] (erase m) w st.step v
  rw [List.nil_append, h] at happend
  rcases hstep : Machine.step st.step v [] w with ⟨f | ⟨u, front⟩, w₁⟩
  · rw [hstep] at happend
    cases happend
  · rw [hstep] at happend
    cases happend
    exact ⟨_, .step hstep, by simp⟩

theorem Follows.of_steps {n : Nat} {c c' : Config} (h : Steps n c c') {m : List Marked}
    (hm : erase m = c.queue) :
    ∃ m', Follows (c.current, m) (c'.current, m') ∧ erase m' = c'.queue := by
  induction h generalizing m with
  | refl c => exact ⟨m, .refl _, hm⟩
  | head first rest ih =>
    obtain ⟨st, m, rfl⟩ : ∃ st m₁, m = st :: m₁ := by
      apply List.exists_cons_of_ne_nil
      rintro rfl
      cases hm
    cases hm
    obtain ⟨m₁, hadvance, hm₁⟩ := Advances.of_step first
    obtain ⟨m', hfollows, hm'⟩ := ih hm₁
    exact ⟨m', .head hadvance hfollows, hm'⟩

/-! ## Where the mark is -/

/-- How a marked step stands to the expression that it is marked with. -/
inductive Stands : Step → Expr → Prop where
  | evaluate (e : Expr) (frame : FrameId) : Stands (.evaluate e frame) e
  | branch {e c t : Expr} {a : Option Expr} (h : e.IsConditional c t a) (frame : FrameId) :
    Stands (.branch t a frame) e
  | apply {e : Expr} (h : e.IsCall) (c : CallId) (frame : FrameId) : Stands (.apply c frame) e

/-- At most one step is marked. Its expression is in tail position of the last one of the body, and
behind it is the queue in which the closure was called. -/
inductive TailAt (last : Expr) (K : Queue) : List Marked → Prop where
  /-- The mark is still there. -/
  | marked (front : Queue) {st : Step} {e : Expr} (hst : Stands st e) (he : last.InTail e) :
    TailAt last K (front.map plain ++ ⟨st, some e⟩ :: K.map plain)
  /-- The last expression is finished, or has been left by its tail call. -/
  | left (q : Queue) : TailAt last K (q.map plain)

section Invariant

variable {last : Expr} {K : Queue} {st : Step} {v v' : Value} {e : Expr} {frame : FrameId}
  {front : Queue} {w w' : World}

theorem inherit_plain (st : Step) (v : Value) (front : Queue) :
    inherit (plain st) v front = front.map plain := by
  simp [inherit, plain]

theorem inherit_of_not_completes {m : Marked} (h : ∀ s ∈ front, Completes s = false) :
    inherit m v front = front.map plain := by
  apply List.map_congr_left
  intro s hs
  rw [h s hs]
  rfl

theorem inherit_snoc (hnext : next? v st = some e) {tail : Expr} {last : Step}
    (h : ∀ s ∈ front, Completes s = false) (hlast : Completes last = true) :
    inherit ⟨st, some tail⟩ v (front ++ [last]) = front.map plain ++ [⟨last, some e⟩] := by
  rw [inherit, List.map_append]
  congr 1
  · exact inherit_of_not_completes h
  · simp [hlast, hnext]

theorem Proceeds.step_eq {q : Queue} (hst : Proceeds v st e frame) :
    Machine.step st v q w = proceed e frame q w := by
  cases hst with
  | evaluate => rfl
  | consequent hv => rw [step.eq_def]; simp [hv]
  | alternative hv => rw [step, if_pos hv]

theorem tailAt_of_not_completes {m : Marked} (h : ∀ s ∈ front, Completes s = false) :
    TailAt last K (inherit m v front ++ K.map plain) := by
  rw [inherit_of_not_completes h, ← List.map_append]
  exact .left _

theorem tailAt_snoc {tail : Expr} {final : Step} (front : Queue) (hst : Proceeds v st e frame)
    (he : last.InTail e) (h : ∀ s ∈ front, Completes s = false) (hfinal : Completes final = true)
    (hstands : Stands final e) :
    TailAt last K (inherit ⟨st, some tail⟩ v (front ++ [final]) ++ K.map plain) := by
  rw [inherit_snoc hst.next? h hfinal, List.append_assoc]
  exact .marked front hstands he

/-- Where a marked step goes on with an expression in tail position, the mark goes to the step that
completes the expression. -/
theorem tailAt_of_proceeds {tail : Expr} (hst : Proceeds v st e frame) (he : last.InTail e)
    (h : step st v [] w = (.ok (v', front), w')) :
    TailAt last K (inherit ⟨st, some tail⟩ v front ++ K.map plain) := by
  rw [hst.step_eq] at h
  cases e with
  | number | string | reference =>
    cases h
    exact tailAt_of_not_completes (by simp [Completes])
  | compound es =>
    cases hform : Expr.specialForm? es with
    | none =>
      simp only [proceed, expand, hform, List.append_nil] at h
      cases h
      -- of the steps of a call only the last, which applies, completes the expression
      have hothers : ∀ s ∈ es.flatMap fun e ↦ [Step.evaluate e frame, .join (w.newCall []).1],
          Completes s = false := by
        intro s hs
        simp only [List.mem_flatMap, List.mem_cons, List.not_mem_nil, or_false] at hs
        obtain ⟨e, -, rfl | rfl⟩ := hs <;> rfl
      exact tailAt_snoc _ hst he hothers rfl (.apply ⟨es, rfl, hform⟩ _ frame)
    | some kp =>
      obtain ⟨k, parts⟩ := kp
      simp only [proceed, expand, hform, List.append_nil] at h
      cases hparts : Form.ofParts k parts with
      | error f =>
        rw [hparts] at h
        cases h
      | ok fm =>
        rw [hparts] at h
        cases h
        cases fm with
        | conditional c t a =>
          exact tailAt_snoc [.evaluate c frame] hst he (by simp [Completes]) rfl
            (.branch ⟨es, k, parts, rfl, hform, hparts⟩ frame)
        | definition x e => exact tailAt_of_not_completes (by simp [formSteps, Completes])
        | lambda params body => exact tailAt_of_not_completes (by simp [formSteps, Completes])

theorem tailAt_of_stands (hst : Stands st e) (he : last.InTail e)
    (h : step st v [] w = (.ok (v', front), w')) :
    TailAt last K (inherit ⟨st, some e⟩ v front ++ K.map plain) := by
  cases hst with
  | evaluate => exact tailAt_of_proceeds (.evaluate ..) he h
  | @branch _ c t a hcond frame =>
    cases hv : v.isFalse with
    | false =>
      exact tailAt_of_proceeds (.consequent hv) (he.trans (.consequent hcond (.self t))) h
    | true =>
      cases a with
      | some a =>
        exact tailAt_of_proceeds (.alternative hv) (he.trans (.alternative hcond (.self a))) h
      | none =>
        rw [step, if_pos hv] at h
        cases h
        exact .left K
  | apply hcall c frame =>
    -- The call leaves the body: the closure that it enters has a last expression of its own.
    have hnext : inherit ⟨.apply c frame, some e⟩ v front = front.map plain := by
      simp [inherit, next?, plain]
    rw [hnext, ← List.map_append]
    exact .left _

theorem Advances.tailAt {a b : Value × List Marked} (h : Advances a b)
    (ha : TailAt last K a.2) : TailAt last K b.2 := by
  obtain ⟨h⟩ := h
  rename_i st v v' q front w w'
  dsimp only at ha ⊢
  generalize hm : st :: q = m at ha
  cases ha with
  | left q₀ =>
    cases q₀ with
    | nil => cases hm
    | cons s q₁ =>
      cases hm
      rw [inherit_plain, ← List.map_append]
      exact .left _
  | marked waiting hst he =>
    cases waiting with
    | nil =>
      cases hm
      exact tailAt_of_stands hst he h
    | cons s waiting =>
      rw [List.map_cons, List.cons_append] at hm
      obtain ⟨rfl, rfl⟩ := List.cons.inj hm
      rw [inherit_plain, ← List.append_assoc, ← List.map_append]
      exact .marked _ hst he

theorem Follows.tailAt {a b : Value × List Marked} (h : Follows a b)
    (ha : TailAt last K a.2) : TailAt last K b.2 := by
  induction h with
  | refl => exact ha
  | head first _ ih => exact ih (first.tailAt ha)

end Invariant

/-! ## The body of a closure -/

/-- The queue in which a body has been put in front: its last expression is marked. -/
def entry (init : List Expr) (last : Expr) (frame : FrameId) (K : Queue) : List Marked :=
  (Queue.ofProgram init frame).map plain ++ ⟨.evaluate last frame, some last⟩ :: K.map plain

theorem erase_entry (init : List Expr) (last : Expr) (frame : FrameId) (K : Queue) :
    erase (entry init last frame K) = Queue.ofProgram (init ++ [last]) frame ++ K := by
  rw [entry, erase_append, erase_map_plain, erase_cons, erase_map_plain, Queue.ofProgram_append,
    List.append_assoc]
  rfl

/-- The next step calls a closure, with arguments of which there are as many as parameters, and
with a queue behind it. -/
def Config.Invokes (c : Config) (cl : Closure) (K : Queue) : Prop :=
  ∃ call frame args, c.queue = .apply call frame :: K ∧
    c.world.collected call = .closure cl :: args ∧ args.length = cl.params.length

/-- A call of a closure puts its body in front, with the last expression at the end. -/
theorem Config.Invokes.steps {c : Config} {cl : Closure} {K : Queue} (h : c.Invokes cl K)
    {init : List Expr} {last : Expr} (hbody : cl.body = init ++ [last]) :
    ∃ w', Steps 1 c ⟨.undefined, erase (entry init last c.world.frames.size K), w'⟩ := by
  obtain ⟨call, frame, args, hq, hcollected, hargs⟩ := h
  obtain ⟨v, q, w⟩ := c
  cases hq
  have hstep : step (.apply call frame) v K w
      = (.ok (.undefined, Queue.ofProgram cl.body w.frames.size ++ K),
        (w.newFrame (some cl.frame) (Bindings.ofPairs (cl.params.zip args))).2) := by
    rw [step, show w.collected call = .closure cl :: args from hcollected]
    simp only [apply, bindArguments, if_pos hargs]
    rfl
  rw [erase_entry, ← hbody]
  exact ⟨_, .one hstep⟩

/-- At the application of a call in tail position the queue is that of the caller. -/
theorem Follows.erase_eq {init : List Expr} {last e : Expr} {frame frame' : FrameId} {K : Queue}
    {v : Value} {call : CallId} {q : List Marked}
    (h : Follows (.undefined, entry init last frame K) (v, ⟨.apply call frame', some e⟩ :: q)) :
    last.InTail e ∧ e.IsCall ∧ erase q = K := by
  have hentry : TailAt last K (entry init last frame K) :=
    .marked _ (.evaluate last frame) (.self last)
  have htail := h.tailAt hentry
  generalize hm : (v, (⟨.apply call frame', some e⟩ : Marked) :: q).2 = m at htail
  cases htail with
  | left q₀ =>
    cases q₀ with
    | nil => cases hm
    | cons => cases hm
  | marked waiting hst he =>
    cases waiting with
    | nil =>
      cases hm
      cases hst with
      | apply hcall => exact ⟨he, hcall, erase_map_plain K⟩
    | cons => cases hm

/-- A chain of so many tail calls: each configuration calls a closure, and the next one is reached
in the body of that closure, at the application of a call in tail position. -/
inductive TailCalls : Nat → Config → Config → Prop where
  | none {c : Config} {cl : Closure} {K : Queue} (h : c.Invokes cl K) : TailCalls 0 c c
  | next {n : Nat} {c c' c'' : Config} {cl : Closure} {K : Queue} {init : List Expr} {last e : Expr}
    {call : CallId} {frame : FrameId} {q : List Marked}
    (h : c.Invokes cl K) (hbody : cl.body = init ++ [last])
    (hrun : Follows (.undefined, entry init last c.world.frames.size K)
      (c'.current, ⟨.apply call frame, some e⟩ :: q))
    (hqueue : c'.queue = .apply call frame :: erase q) (rest : TailCalls n c' c'') :
    TailCalls (n + 1) c c''

theorem Config.Invokes.queue_eq {c : Config} {cl cl' : Closure} {K K' : Queue}
    (h : c.Invokes cl K) (h' : c.Invokes cl' K') : K' = K := by
  obtain ⟨_, _, _, hq, -⟩ := h
  obtain ⟨_, _, _, hq', -⟩ := h'
  rw [hq] at hq'
  exact (List.cons.inj hq').2.symm

theorem TailCalls.invokes_first {n : Nat} {c c' : Config} (h : TailCalls n c c') :
    ∃ cl K, c.Invokes cl K := by
  cases h with
  | none h => exact ⟨_, _, h⟩
  | next h => exact ⟨_, _, h⟩

theorem TailCalls.invokes {n : Nat} {c c' : Config} (h : TailCalls n c c') {cl : Closure}
    {K : Queue} (hc : c.Invokes cl K) : ∃ cl', c'.Invokes cl' K := by
  induction h generalizing cl with
  | none => exact ⟨cl, hc⟩
  | next h hbody hrun hqueue rest ih =>
    obtain ⟨-, -, hK⟩ := hrun.erase_eq
    obtain ⟨cl₁, K₁, h₁⟩ := rest.invokes_first
    have hK₁ : K₁ = K := by
      obtain ⟨_, _, _, hq₁, -⟩ := h₁
      rw [hqueue] at hq₁
      rw [h.queue_eq hc, ← hK]
      exact (List.cons.inj hq₁).2.symm
    exact ih (hK₁ ▸ h₁)

end Machine

/-- **Tail calls find the queue of their caller.** Marks can be kept along every run. Where a
closure is called with a queue behind, its body comes next, and at the application of a call in tail
position of its last expression that same queue is left, neither more nor less. So it is also left
at each of a chain of tail calls, however long. -/
theorem tail_calls_find_the_queue_of_their_caller :
    (∀ (n : Nat) (c c' : Machine.Config) (m : List Machine.Marked),
      Machine.Steps n c c' → Machine.erase m = c.queue →
        ∃ m', Machine.Follows (c.current, m) (c'.current, m') ∧ Machine.erase m' = c'.queue) ∧
    (∀ (c : Machine.Config) (cl : Closure) (K : Queue) (init : List Expr) (last : Expr),
      c.Invokes cl K → cl.body = init ++ [last] →
        (∃ w', Machine.Steps 1 c
          ⟨.undefined, Machine.erase (Machine.entry init last c.world.frames.size K), w'⟩) ∧
        ∀ (v : Value) (call : CallId) (frame : FrameId) (e : Expr) (q : List Machine.Marked),
          Machine.Follows (.undefined, Machine.entry init last c.world.frames.size K)
            (v, ⟨.apply call frame, some e⟩ :: q) →
          last.InTail e ∧ e.IsCall ∧ Machine.erase q = K) ∧
    ∀ (n : Nat) (c c' : Machine.Config) (cl : Closure) (K : Queue), Machine.TailCalls n c c' →
      c.Invokes cl K → ∃ cl', c'.Invokes cl' K := by
  refine ⟨fun n c c' m h hm ↦ Machine.Follows.of_steps h hm, ?_, ?_⟩
  · intro c cl K init last h hbody
    exact ⟨h.steps hbody, fun v call frame e q hrun ↦ hrun.erase_eq⟩
  · intro n c c' cl K h hc
    exact h.invokes hc

/-! ## A closure that spins -/

/-- A closure without parameters that calls itself by name. -/
def spin : Closure := ⟨0, [], [.compound [.reference "spin"]], 0⟩

/-- The closure calls itself for the given time, with one step waiting behind. The frames of the
earlier calls and the records of all calls are there. -/
def spinAt (n : Nat) : Machine.Config where
  current := .closure spin
  queue := [.apply n n, .literal (.int 7)]
  world := {
    frames := (⟨none, [("spin", .closure spin)]⟩ :: List.replicate n ⟨some 0, []⟩).toArray
    calls := (List.replicate (n + 1) [.closure spin]).toArray
    closures := 1 }

/-- The body of the spinning closure leads to the application of its only expression. -/
theorem follows_spin {w : World} {frame : FrameId} (K : Queue)
    (h : w.lookup frame "spin" = .ok (.closure spin)) :
    Machine.Follows (.undefined, Machine.entry [] (.compound [.reference "spin"]) frame K)
      (.closure spin, ⟨.apply w.calls.size frame, some (.compound [.reference "spin"])⟩ ::
        K.map Machine.plain) := by
  have hlookup : Machine.step (.reference "spin" frame) .undefined [] w
      = (.ok (.closure spin, []), w) := by
    rw [Machine.step, h]
    rfl
  exact .head (.step (w := w) rfl) (.head (.step (w := w) rfl) (.head (.step hlookup)
    (.head (.step (w := w) rfl) (.refl _))))

theorem invokes_spinAt (n : Nat) : (spinAt n).Invokes spin [.literal (.int 7)] :=
  ⟨n, n, [], rfl, by simp [spinAt, World.collected], rfl⟩

theorem lookup_spinAt {w : World} {n : Nat} (h : w.frames = (spinAt (n + 1)).world.frames) :
    w.lookup (n + 1) "spin" = .ok (.closure spin) := by
  have hglobal : w.frames[0]? = some ⟨none, [("spin", .closure spin)]⟩ := by rw [h]; rfl
  have hinner : w.frames[n + 1]? = some ⟨some 0, []⟩ := by rw [h]; simp [spinAt]
  have hfound : w.find? 0 "spin" = some 0 := by
    rw [World.find?]
    simp [World.binds, hglobal, Frame.binds, Frame.value?]
  have hfind : w.find? (n + 1) "spin" = some 0 := by
    rw [World.find?]
    simp [World.binds, hinner, hfound, Frame.binds, Frame.value?]
  rw [World.lookup, hfind]
  simp [hglobal, Frame.value?]

theorem tailCalls_spinAt (n k : Nat) : Machine.TailCalls n (spinAt k) (spinAt (k + n)) := by
  induction n generalizing k with
  | zero => exact .none (invokes_spinAt k)
  | succ n ih =>
    -- In the body the frame of the call is there already, and the record of the next call is not.
    let w : World := { (spinAt (k + 1)).world with calls := (spinAt k).world.calls }
    have hrun := follows_spin [.literal (.int 7)] (lookup_spinAt (w := w) (n := k) rfl)
    have hcalls : w.calls.size = k + 1 := by simp [w, spinAt]
    have hframes : (spinAt k).world.frames.size = k + 1 := by simp [spinAt]
    rw [hcalls, ← hframes] at hrun
    have hnext : k + (n + 1) = k + 1 + n := by omega
    rw [hnext]
    refine .next (invokes_spinAt k) rfl hrun ?_ (ih (k + 1))
    rw [hframes]
    rfl

theorem tail_calls_find_the_queue_of_their_caller_spin :
    Machine.TailCalls 1000 (spinAt 0) (spinAt 1000) ∧
      ∃ cl, (spinAt 1000).Invokes cl [.literal (.int 7)] := by
  have hchain := tailCalls_spinAt 1000 0
  rw [Nat.zero_add] at hchain
  exact ⟨hchain,
    tail_calls_find_the_queue_of_their_caller.2.2 _ _ _ _ _ hchain (invokes_spinAt 0)⟩

end Interleave

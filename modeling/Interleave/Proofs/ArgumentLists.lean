import Interleave.Proofs.Interleaving

/-!
# Private records of calls

The steps of a call share a record by its position, in which the values of the elements are
collected. Nothing in the machine keeps other steps from the record. That none of them touches it is
an invariant, whatever the threads do and in whatever order (`Session.Tidy`): each record that is
mentioned in some queue belongs to one call, which waits in one place of one queue.

## The parts of a call

When its elements are evaluated one after the other, the steps of a call are in one of three states.

* An element is next: the queue begins with the steps of the elements that are left, and with the
  application at their end (`Machine.callSteps`).
* An element is being evaluated: its steps are in front, and the first step of the call behind them
  joins its value.
* An element has a value, which is joined next.

`Gathered`, `Evaluating` and `HasValue` are these states with their history: which moves led from
the beginning of the call to here, which element was evaluated in which of them, and with what
value. So a record that is applied is known to hold the values of the elements, in order.
-/

namespace Interleave

/-! ## Steps that mention a record -/

namespace Step

/-- The record that a step joins a value to, or applies. -/
def record? : Step → Option CallId
  | join c | apply c _ => some c
  | evaluate .. | literal .. | reference .. | branch .. | define .. | closure .. => none

def applied? : Step → Option CallId
  | apply c _ => some c
  | evaluate .. | literal .. | reference .. | join .. | branch .. | define .. | closure .. => none

end Step

namespace Machine

/-- Some step of the queue mentions the record. -/
def Mentions (q : Queue) (c : CallId) : Prop := ∃ st ∈ q, st.record? = some c

def applied (q : Queue) : List CallId := q.filterMap Step.applied?

variable {q r : Queue} {st : Step} {c d : CallId} {f : FrameId} {es : List Expr}

theorem mentions_cons : Mentions (st :: q) c ↔ st.record? = some c ∨ Mentions q c := by
  simp [Mentions]

theorem mentions_append : Mentions (q ++ r) c ↔ Mentions q c ∨ Mentions r c := by
  simp only [Mentions, List.mem_append, or_and_right, exists_or]

theorem callSteps_cons (e : Expr) (es : List Expr) :
    callSteps f c (e :: es) = .evaluate e f :: .join c :: callSteps f c es := rfl

theorem mentions_callSteps : Mentions (callSteps f c es) d ↔ d = c := by
  induction es with
  | nil => simp [callSteps, Mentions, Step.record?, eq_comm]
  | cons e es ih => simp [callSteps_cons, mentions_cons, ih, Step.record?, eq_comm]

theorem not_mentions_nil : ¬Mentions [] c := by
  rintro ⟨st, hst, -⟩
  cases hst

theorem mentions_of_plain (hst : st.record? = none) (h : Mentions (st :: q) c) : Mentions q c := by
  rw [mentions_cons, hst] at h
  exact h.resolve_left (by simp)

theorem mentions_join_callSteps :
    Mentions (.join c :: callSteps f c es ++ q) d ↔ d = c ∨ Mentions q d := by
  rw [List.cons_append, mentions_cons, mentions_append, mentions_callSteps, ← or_assoc]
  exact or_congr_left (or_iff_right_of_imp fun h ↦ (Option.some.inj h).symm)

theorem not_mentions_join_callSteps (h : d ≠ c) : ¬Mentions (.join c :: callSteps f c es) d := by
  rw [mentions_cons, mentions_callSteps]
  rintro (hd | hd)
  · exact h (Option.some.inj hd).symm
  · exact h hd

theorem applied_append : applied (q ++ r) = applied q ++ applied r := List.filterMap_append

theorem applied_cons : applied (st :: q) = applied [st] ++ applied q := by
  rw [← applied_append, List.singleton_append]

theorem mem_applied_cons (h : c ∈ applied q) : c ∈ applied (st :: q) := by
  rw [applied_cons]
  exact List.mem_append_right _ h

theorem applied_callSteps : applied (callSteps f c es) = [c] := by
  induction es with
  | nil => rfl
  | cons e es ih => exact ih

theorem applied_eq_nil (h : ∀ st ∈ q, st.record? = none) : applied q = [] := by
  rw [applied, List.filterMap_eq_nil_iff]
  intro st hst
  cases st with
  | apply c f => cases h _ hst
  | evaluate | literal | reference | join | branch | define | closure => rfl

theorem applied_cons_of_plain (hst : st.record? = none) : applied (st :: q) = applied q := by
  rw [applied_cons, applied_eq_nil (by simpa using hst), List.nil_append]

theorem applied_join_callSteps : applied (.join c :: callSteps f c es ++ q) = c :: applied q := by
  rw [applied_append]
  exact congrArg (· ++ applied q) applied_callSteps

theorem mentions_of_mem_applied (h : c ∈ applied q) : Mentions q c := by
  obtain ⟨st, hst, hc⟩ := List.mem_filterMap.1 h
  refine ⟨st, hst, ?_⟩
  cases st with
  | apply => exact hc
  | evaluate | literal | reference | join | branch | define | closure => cases hc

theorem record?_ofProgram (es : List Expr) (f : FrameId) :
    ∀ st ∈ Queue.ofProgram es f, st.record? = none := by
  intro st hst
  obtain ⟨e, -, rfl⟩ := List.mem_map.1 hst
  rfl

theorem record?_formSteps (f : FrameId) (fm : Form) :
    ∀ st ∈ formSteps f fm, st.record? = none := by
  intro st hst
  cases fm <;> simp only [formSteps, List.mem_cons, List.not_mem_nil, or_false] at hst
  · obtain rfl | rfl := hst <;> rfl
  · obtain rfl | rfl := hst <;> rfl
  · subst hst
    rfl

/-- A step leaves the records that the queue applies, or adds a new one. -/
theorem applied_of_step {v v' : Value} {q' : Queue} {w w' : World}
    (h : step st v q w = (.ok (v', q'), w')) :
    applied q' = applied q ∨ applied q' = w.calls.size :: applied q := by
  cases stepped_of_step h with
  | number | string | name => exact .inl rfl
  | nothing | literal | found | joined | primitive | defined | closure => exact .inl rfl
  | call =>
    right
    rw [applied_append, applied_callSteps]
    rfl
  | form =>
    left
    rw [applied_append, applied_eq_nil (record?_formSteps _ _), List.nil_append]
  | entered =>
    left
    rw [applied_append, applied_eq_nil (record?_ofProgram _ _), List.nil_append]

end Machine

/-! ## The history of a call -/

namespace Session

open Machine

/-- From the first session on, the thread has been evaluating an expression, before other steps: it
began there, and it always had steps in front of those others. -/
inductive Evaluating (i : Nat) (e : Expr) (f : FrameId) (K : Queue) : Session → Session → Prop where
  | start {s : Session} {v : Value} (h : s.Has i v (.evaluate e f :: K)) : Evaluating i e f K s s
  | move {p s s' : Session} {v : Value} {q : Queue} (h : Evaluating i e f K p s)
    (hmove : Moves s s') (hhas : s'.Has i v (q ++ K)) (hq : q ≠ []) : Evaluating i e f K p s'

/-- The evaluation of the expression that began in the first session has given a value, and the
thread has not gone on since. -/
inductive HasValue (i : Nat) (e : Expr) (f : FrameId) (K : Queue) (v : Value) :
    Session → Session → Prop where
  | done {p s s' : Session} (h : Evaluating i e f K p s) (hmove : Moves s s')
    (hhas : s'.Has i v K) : HasValue i e f K v p s'
  | wait {p s s' : Session} (h : HasValue i e f K v p s) (hmove : Moves s s')
    (hhas : s'.Has i v K) : HasValue i e f K v p s'

/-- The thread has begun a call with the given elements and record, has evaluated those that are not
left one after the other, and has joined their values. The call is before other steps. -/
inductive Gathered (i : Nat) (c : CallId) (es : List Expr) (f : FrameId) (K : Queue) :
    (left : List Expr) → (values : List Value) → Session → Prop where
  /-- A step of the thread goes on with the call, and the record is the next one. -/
  | begin {s s' : Session} {v : Value} {st : Step} (hhas : s.Has i v (st :: K))
    (hst : Proceeds v st (.compound es) f) (hform : Expr.specialForm? es = none)
    (hc : c = s.world.calls.size) (hmove : Moves s s')
    (hhas' : s'.Has i .undefined (callSteps f c es ++ K)) : Gathered i c es f K es [] s'
  /-- Others move. -/
  | wait {s s' : Session} {v : Value} {left : List Expr} {vs : List Value}
    (h : Gathered i c es f K left vs s) (hmove : Moves s s')
    (hhas : s'.Has i v (callSteps f c left ++ K)) : Gathered i c es f K left vs s'
  /-- The next element has been evaluated, and its value is joined. -/
  | join {p s s' : Session} {v : Value} {e : Expr} {left : List Expr} {vs : List Value}
    (h : Gathered i c es f K (e :: left) vs p)
    (hvalue : HasValue i e f (.join c :: callSteps f c left ++ K) v p s) (hmove : Moves s s')
    (hhas : s'.Has i v (callSteps f c left ++ K)) : Gathered i c es f K left (vs ++ [v]) s'

theorem Gathered.length_add {i : Nat} {c : CallId} {es left : List Expr} {f : FrameId} {K : Queue}
    {vs : List Value} {s : Session} (h : Gathered i c es f K left vs s) :
    vs.length + left.length = es.length := by
  induction h with
  | begin => exact Nat.zero_add _
  | wait _ _ _ ih => exact ih
  | join _ _ _ _ ih =>
    rw [List.length_append, List.length_singleton, ← ih, List.length_cons]
    omega

/-! ## Queues that are tidy -/

/-- What waits in the queue of a thread behind its next step: steps that mention no record, and
calls of which an element is being evaluated. -/
inductive Behind (s : Session) (i : Nat) : Queue → Prop where
  | nil : Behind s i []
  | plain {st : Step} {q : Queue} (hst : st.record? = none) (h : Behind s i q) :
    Behind s i (st :: q)
  | call {c : CallId} {es left : List Expr} {f : FrameId} {e : Expr} {vs : List Value}
    {p : Session} {q : Queue} (hgathered : Gathered i c es f q (e :: left) vs p)
    (hevaluating : Evaluating i e f (.join c :: callSteps f c left ++ q) p s)
    (hvs : s.world.calls[c]? = some vs) (h : Behind s i q) :
    Behind s i (.join c :: callSteps f c left ++ q)

/-- The whole queue of a thread with its current value. A call in front has a value to join, or an
element to evaluate, or is complete. -/
inductive Whole (s : Session) (i : Nat) (v : Value) : Queue → Prop where
  | nil : Whole s i v []
  | plain {st : Step} {q : Queue} (hst : st.record? = none) (h : Behind s i q) :
    Whole s i v (st :: q)
  | join {c : CallId} {es left : List Expr} {f : FrameId} {e : Expr} {vs : List Value}
    {p : Session} {q : Queue} (hgathered : Gathered i c es f q (e :: left) vs p)
    (hvalue : HasValue i e f (.join c :: callSteps f c left ++ q) v p s)
    (hvs : s.world.calls[c]? = some vs) (h : Behind s i q) :
    Whole s i v (.join c :: callSteps f c left ++ q)
  | call {c : CallId} {es left : List Expr} {f : FrameId} {vs : List Value} {q : Queue}
    (hgathered : Gathered i c es f q left vs s) (hvs : s.world.calls[c]? = some vs)
    (h : Behind s i q) : Whole s i v (callSteps f c left ++ q)

section Queues

variable {s s' : Session} {i : Nat} {v : Value} {q front : Queue} {c : CallId}

/-- The move leaves the records that the queue applies as they are. -/
def Spares (s s' : Session) (q : Queue) : Prop :=
  ∀ c ∈ applied q, s'.world.calls[c]? = s.world.calls[c]?

theorem Spares.append (front : Queue) (h : Spares s s' (front ++ q)) :
    Spares s s' front ∧ Spares s s' q := by
  rw [Spares, applied_append] at h
  exact ⟨fun c hc ↦ h c (List.mem_append_left _ hc), fun c hc ↦ h c (List.mem_append_right _ hc)⟩

theorem Spares.record {f : FrameId} {left : List Expr}
    (h : Spares s s' (callSteps f c left ++ q)) : s'.world.calls[c]? = s.world.calls[c]? :=
  (h.append _).1 c (by rw [applied_callSteps]; exact List.mem_singleton_self c)

theorem Spares.call {f : FrameId} {left : List Expr}
    (h : Spares s s' (.join c :: callSteps f c left ++ q)) :
    s'.world.calls[c]? = s.world.calls[c]? ∧ Spares s s' q := by
  have hcall : Spares s s' (callSteps f c left ++ q) := (h.append [.join c]).2
  exact ⟨hcall.record, (hcall.append _).2⟩

/-- What waits behind other steps goes on waiting while there are such steps. -/
theorem Behind.move (front : Queue) (h : Behind s i q) (hmove : Moves s s')
    (hhas : s'.Has i v (front ++ q)) (hfront : front ≠ []) (hspares : Spares s s' q) :
    Behind s' i q := by
  induction h generalizing front with
  | nil => exact .nil
  | @plain st q hst h ih =>
    refine .plain hst (ih (front ++ [st]) ?_ (by simp) (hspares.append [st]).2)
    rwa [List.append_assoc]
  | @call c es left f e vs p q hgathered hevaluating hvs h ih =>
    obtain ⟨hrecord, hrest⟩ := hspares.call
    refine .call hgathered (hevaluating.move hmove hhas hfront) (hrecord.trans hvs)
      (ih (front ++ .join c :: callSteps f c left) ?_ (by simp) hrest)
    rwa [List.append_assoc]

/-- What waits behind other steps comes to the front when those are done. -/
theorem Behind.whole (h : Behind s i q) (hmove : Moves s s') (hhas : s'.Has i v q)
    (hspares : Spares s s' q) : Whole s' i v q := by
  cases h with
  | nil => exact .nil
  | @plain st q hst h =>
    exact .plain hst (h.move [st] hmove hhas (by simp) (hspares.append [st]).2)
  | @call c es left f e vs p q hgathered hevaluating hvs h =>
    obtain ⟨hrecord, hrest⟩ := hspares.call
    exact .join hgathered (.done hevaluating hmove hhas) (hrecord.trans hvs)
      (h.move (.join c :: callSteps f c left) hmove hhas (by simp) hrest)

theorem Behind.prepend (hfront : ∀ st ∈ front, st.record? = none) (h : Behind s i q) :
    Behind s i (front ++ q) := by
  induction front with
  | nil => exact h
  | cons st front ih =>
    have hrest := ih fun st' hst' ↦ hfront st' (List.mem_cons_of_mem _ hst')
    exact .plain (hfront st List.mem_cons_self) hrest

theorem Behind.whole_append (front : Queue) (h : Behind s i q) (hmove : Moves s s')
    (hhas : s'.Has i v (front ++ q)) (hspares : Spares s s' q)
    (hfront : ∀ st ∈ front, st.record? = none) : Whole s' i v (front ++ q) := by
  cases front with
  | nil => exact h.whole hmove hhas hspares
  | cons st front =>
    refine .plain (hfront st List.mem_cons_self) (.prepend ?_ ?_)
    · exact fun st' hst' ↦ hfront st' (List.mem_cons_of_mem _ hst')
    · exact h.move _ hmove hhas (List.cons_ne_nil _ _) hspares

/-- The move of another thread changes nothing for this one, as long as it spares its records. -/
theorem Whole.wait (h : Whole s i v q) (hmove : Moves s s') (hhas : s'.Has i v q)
    (hspares : Spares s s' q) : Whole s' i v q := by
  cases h with
  | nil => exact .nil
  | @plain st q hst h =>
    exact .plain hst (h.move [st] hmove hhas (by simp) (hspares.append [st]).2)
  | @join c es left f e vs p q hgathered hvalue hvs h =>
    obtain ⟨hrecord, hrest⟩ := hspares.call
    exact .join hgathered (hvalue.wait hmove hhas) (hrecord.trans hvs)
      (h.move (.join c :: callSteps f c left) hmove hhas (by simp) hrest)
  | @call c es left f vs q hgathered hvs h =>
    exact .call (hgathered.wait hmove hhas) (hspares.record.trans hvs)
      (h.move _ hmove hhas callSteps_ne_nil (hspares.append _).2)

theorem record_of_call {d : CallId} {vs : List Value}
    (hrest : Mentions q c → c ∈ applied q ∧ c < s.world.calls.size)
    (hvs : s.world.calls[d]? = some vs) (hc : c = d ∨ Mentions q c) :
    c ∈ d :: applied q ∧ c < s.world.calls.size := by
  rw [List.mem_cons]
  obtain rfl | hc := hc
  · exact ⟨.inl rfl, (Array.getElem?_eq_some_iff.1 hvs).1⟩
  · exact (hrest hc).imp_left .inr

/-- Every record that is mentioned is applied in the end, and has been made. -/
theorem Behind.record (h : Behind s i q) (hc : Mentions q c) :
    c ∈ applied q ∧ c < s.world.calls.size := by
  induction h with
  | nil => exact absurd hc not_mentions_nil
  | plain hst h ih =>
    rw [applied_cons_of_plain hst]
    exact ih (mentions_of_plain hst hc)
  | call hgathered hevaluating hvs h ih =>
    rw [applied_join_callSteps]
    exact record_of_call ih hvs (mentions_join_callSteps.1 hc)

theorem Whole.record (h : Whole s i v q) (hc : Mentions q c) :
    c ∈ applied q ∧ c < s.world.calls.size := by
  cases h with
  | nil => exact absurd hc not_mentions_nil
  | plain hst h =>
    rw [applied_cons_of_plain hst]
    exact h.record (mentions_of_plain hst hc)
  | join hgathered hvalue hvs h =>
    rw [applied_join_callSteps]
    exact record_of_call h.record hvs (mentions_join_callSteps.1 hc)
  | call hgathered hvs h =>
    rw [mentions_append, mentions_callSteps] at hc
    rw [applied_append, applied_callSteps]
    exact record_of_call h.record hvs hc

theorem Behind.lt (h : Behind s i q) (hc : c ∈ applied q) : c < s.world.calls.size :=
  (h.record (mentions_of_mem_applied hc)).2

theorem Whole.lt (h : Whole s i v q) (hc : c ∈ applied q) : c < s.world.calls.size :=
  (h.record (mentions_of_mem_applied hc)).2

/-- A step changes no record but the one that it joins a value to. -/
theorem calls_of_step {st : Step} {r : Except Fault (Value × Queue)} {w w' : World}
    (h : Machine.step st v q w = (r, w')) (hc : c < w.calls.size) (hst : st ≠ .join c) :
    w'.calls[c]? = w.calls[c]? := by
  have hget := Array.getElem?_eq_getElem hc
  obtain hsame | ⟨hjoin, -⟩ := (step_effect h).call hget
  · rw [hsame, hget]
  · exact absurd hjoin hst

/-! ## What a step makes of a tidy queue -/

section Steps

variable {st : Step} {v' : Value} {q' : Queue}

theorem Behind.step (h : Behind s i q) (hst : st.record? = none) (hhas : s.Has i v (st :: q))
    (hmove : Moves s s') (hstep : Machine.step st v q s.world = (.ok (v', q'), s'.world))
    (hhas' : s'.Has i v' q') : Whole s' i v' q' := by
  have hspares : Spares s s' q := by
    intro c hc
    refine calls_of_step hstep (h.lt hc) ?_
    rintro rfl
    cases hst
  generalize hw : s'.world = w' at hstep
  cases stepped_of_step hstep with
  | number | string | name =>
    exact h.whole_append [_] hmove hhas' hspares (by simp [Step.record?])
  | call hproceeds hform =>
    have hrecord : s'.world.calls[s.world.calls.size]? = some [] := by
      rw [hw]
      exact Array.getElem?_push_size
    exact .call (.begin hhas hproceeds hform rfl hmove hhas') hrecord
      (h.move _ hmove hhas' callSteps_ne_nil hspares)
  | form => exact h.whole_append _ hmove hhas' hspares (record?_formSteps _ _)
  | nothing | literal | found | defined | closure => exact h.whole hmove hhas' hspares
  | joined hst' | primitive hst' | entered hst' =>
    subst hst'
    cases hst

theorem Behind.step_join {es left : List Expr} {f : FrameId} {e : Expr} {vs : List Value}
    {p : Session} (h : Behind s i q) (hgathered : Gathered i c es f q (e :: left) vs p)
    (hvalue : HasValue i e f (.join c :: callSteps f c left ++ q) v p s)
    (hvs : s.world.calls[c]? = some vs) (hc : c ∉ applied q) (hmove : Moves s s')
    (hstep : Machine.step (.join c) v (callSteps f c left ++ q) s.world = (.ok (v', q'), s'.world))
    (hhas' : s'.Has i v' q') : Whole s' i v' q' := by
  have hspares : Spares s s' q := by
    intro d hd
    refine calls_of_step hstep (h.lt hd) ?_
    intro hjoin
    cases hjoin
    exact hc hd
  rw [Machine.step] at hstep
  have hw : s'.world = s.world.collect c v := (congrArg Prod.snd hstep).symm
  cases congrArg Prod.fst hstep
  have hrecord : s'.world.calls[c]? = some (vs ++ [v]) := by
    rw [hw, World.collect, Array.getElem?_modify, if_pos rfl, hvs]
    rfl
  exact .call (hgathered.join hvalue hmove hhas') hrecord
    (h.move _ hmove hhas' callSteps_ne_nil hspares)

theorem Behind.step_apply {f : FrameId} (h : Behind s i q) (hmove : Moves s s')
    (hstep : Machine.step (.apply c f) v q s.world = (.ok (v', q'), s'.world))
    (hhas' : s'.Has i v' q') : Whole s' i v' q' := by
  have hspares : Spares s s' q := fun d hd ↦ calls_of_step hstep (h.lt hd) Step.noConfusion
  generalize hw : s'.world = w' at hstep
  cases stepped_of_step hstep with
  | primitive => exact h.whole hmove hhas' hspares
  | entered => exact h.whole_append _ hmove hhas' hspares (record?_ofProgram _ _)
  | number hst | string hst | name hst | call hst | form hst => cases hst
  | nothing hst | literal hst | found hst | joined hst | defined hst | closure hst => cases hst

/-- **A step leaves a tidy queue.** -/
theorem Whole.step (h : Whole s i v (st :: q)) (hhas : s.Has i v (st :: q))
    (hnodup : (applied (st :: q)).Nodup) (hmove : Moves s s')
    (hstep : Machine.step st v q s.world = (.ok (v', q'), s'.world)) (hhas' : s'.Has i v' q') :
    Whole s' i v' q' := by
  generalize hm : st :: q = m at h
  cases h with
  | nil => cases hm
  | plain hst h =>
    cases hm
    exact h.step hst hhas hmove hstep hhas'
  | join hgathered hvalue hvs h =>
    obtain ⟨rfl, rfl⟩ := List.cons.inj hm
    rw [hm, applied_join_callSteps, List.nodup_cons] at hnodup
    exact h.step_join hgathered hvalue hvs hnodup.1 hmove hstep hhas'
  | @call c es left f vs q₀ hgathered hvs h =>
    cases left with
    | nil =>
      obtain ⟨rfl, rfl⟩ := List.cons.inj hm
      exact h.step_apply hmove hstep hhas'
    | cons e left =>
      -- The next element is an expression like any other, before the rest of the call.
      obtain ⟨rfl, rfl⟩ := List.cons.inj hm
      have hbehind : Behind s i (.join c :: callSteps f c left ++ q₀) :=
        .call hgathered (.start hhas) hvs h
      exact hbehind.step rfl hhas hmove hstep hhas'

end Steps

end Queues

/-! ## Sessions that are tidy -/

/-- All queues are tidy, and no record is applied twice. -/
structure Tidy (s : Session) : Prop where
  /-- Each queue is made of plain steps and of calls. -/
  whole : ∀ {i : Nat} {v : Value} {q : Queue}, s.Has i v q → Whole s i v q
  /-- No queue applies a record twice. -/
  nodup : ∀ {i : Nat} {v : Value} {q : Queue}, s.Has i v q → (applied q).Nodup
  /-- No two queues apply the same record. -/
  disjoint : ∀ {i j : Nat} {u v : Value} {q r : Queue}, i ≠ j → s.Has i u q → s.Has j v r →
    ∀ c ∈ applied q, c ∉ applied r

section Tidy

variable {s s' : Session}

theorem whole_ofProgram (i : Nat) (v : Value) (program : List Expr) (frame : FrameId) :
    Whole s i v (Queue.ofProgram program frame) := by
  cases program with
  | nil => exact .nil
  | cons e program =>
    have hbehind := Behind.prepend (s := s) (i := i) (record?_ofProgram program frame) .nil
    rw [List.append_nil] at hbehind
    exact .plain rfl hbehind

/-- When no thread takes a step, every queue stays tidy, and programs that begin are tidy. -/
theorem Tidy.quiet (h : Tidy s) (hmove : Moves s s')
    (hworld : ∃ journal, s'.world = { s.world with journal })
    (hthreads : ∀ j v q, s'.Has j v q →
      s.Has j v q ∨ ∃ program frame, q = Queue.ofProgram program frame) : Tidy s' := by
  obtain ⟨journal, hw⟩ := hworld
  have hold : ∀ {j v q c}, s'.Has j v q → c ∈ applied q → s.Has j v q := by
    intro j v q c hhas hc
    obtain hold | ⟨program, frame, rfl⟩ := hthreads j v q hhas
    · exact hold
    · rw [applied_eq_nil (record?_ofProgram program frame)] at hc
      cases hc
  refine ⟨fun {i v q} hhas ↦ ?_, fun {i v q} hhas ↦ ?_, fun hne hi hj c hci hcj ↦ ?_⟩
  · obtain hbefore | ⟨program, frame, rfl⟩ := hthreads i v q hhas
    · refine (h.whole hbefore).wait hmove hhas ?_
      intro c _
      rw [hw]
    · exact whole_ofProgram i v program frame
  · obtain hbefore | ⟨program, frame, rfl⟩ := hthreads i v q hhas
    · exact h.nodup hbefore
    · rw [applied_eq_nil (record?_ofProgram program frame)]
      exact List.nodup_nil
  · exact h.disjoint hne (hold hi hci) (hold hj hcj) c hci hcj

/-- A step of one thread keeps its queue tidy and does not touch the records of the others. -/
theorem Tidy.step (h : Tidy s) (hmove : Moves s s') {i : Nat} {v v' : Value} {st : Step}
    {q q' : Queue} (hhas : s.Has i v (st :: q))
    (hstep : Machine.step st v q s.world = (.ok (v', q'), s'.world)) (hhas' : s'.Has i v' q')
    (hothers : ∀ j, j ≠ i → ∀ u r, s'.Has j u r ↔ s.Has j u r) : Tidy s' := by
  have hwhole := h.whole hhas
  have hold : ∀ {c}, c ∈ applied q' → c ∈ applied (st :: q) ∨ c = s.world.calls.size := by
    intro c hc
    obtain heq | heq := applied_of_step hstep <;> rw [heq] at hc
    · exact .inl (mem_applied_cons hc)
    · obtain rfl | hc := List.mem_cons.1 hc
      · exact .inr rfl
      · exact .inl (mem_applied_cons hc)
  -- A record of another thread is old, and not the one of this thread.
  have hapart : ∀ {j u r c}, j ≠ i → s.Has j u r → c ∈ applied r → c ∉ applied q' := by
    intro j u r c hne hj hc hc'
    obtain hc' | rfl := hold hc'
    · exact h.disjoint hne hj hhas c hc hc'
    · exact Nat.lt_irrefl _ ((h.whole hj).lt hc)
  refine ⟨fun {j u r} hj ↦ ?_, fun {j u r} hj ↦ ?_, fun {j k u u' r r'} hne hj hk c hcj hck ↦ ?_⟩
  · by_cases hji : j = i
    · subst hji
      obtain ⟨rfl, rfl⟩ := hhas'.unique hj
      exact hwhole.step hhas (h.nodup hhas) hmove hstep hhas'
    · have hbefore := (hothers j hji u r).1 hj
      refine (h.whole hbefore).wait hmove hj fun c hc ↦ ?_
      refine calls_of_step hstep ((h.whole hbefore).lt hc) ?_
      rintro rfl
      exact h.disjoint hji hbefore hhas c hc (hwhole.record (mentions_cons.2 (.inl rfl))).1
  · by_cases hji : j = i
    · subst hji
      obtain ⟨rfl, rfl⟩ := hhas'.unique hj
      have hnodup : (applied q).Nodup := by
        have hboth := h.nodup hhas
        rw [applied_cons] at hboth
        exact (List.nodup_append.1 hboth).2.1
      obtain heq | heq := applied_of_step hstep <;> rw [heq]
      · exact hnodup
      · refine List.nodup_cons.2 ⟨fun hc ↦ ?_, hnodup⟩
        exact Nat.lt_irrefl _ (hwhole.lt (mem_applied_cons hc))
    · exact h.nodup ((hothers j hji u r).1 hj)
  · by_cases hji : j = i
    · subst hji
      obtain ⟨rfl, rfl⟩ := hhas'.unique hj
      exact hapart hne.symm ((hothers k hne.symm u' r').1 hk) hck hcj
    · by_cases hki : k = i
      · subst hki
        obtain ⟨rfl, rfl⟩ := hhas'.unique hk
        exact hapart hne ((hothers j hne u r).1 hj) hcj hck
      · exact h.disjoint hne ((hothers j hji u r).1 hj) ((hothers k hki u' r').1 hk) c hcj hck

/-- **Every move keeps a session tidy.** -/
theorem Tidy.move (h : Tidy s) (hmove : Moves s s') : Tidy s' := by
  obtain ⟨hworld, hthreads⟩ | ⟨i, v, st, q, v', q', hhas, hstep, hhas', hothers⟩ := hmove.cases
  · exact h.quiet hmove hworld hthreads
  · exact h.step hmove hhas hstep hhas' hothers

/-- A session without threads is tidy, and so is whatever comes of it. -/
theorem Runs.tidy {w : World} (h : Runs { world := w } s) : Tidy s := by
  induction h with
  | refl =>
    have hnone : ∀ {i v q}, ¬Has { world := w } i v q := by
      rintro i v q ⟨t, ht, -⟩
      cases ht
    exact ⟨fun hhas ↦ absurd hhas hnone, fun hhas ↦ absurd hhas hnone,
      fun _ hhas ↦ absurd hhas hnone⟩
  | snoc _ last ih => exact ih.move last

end Tidy

/-! ## Where a record is mentioned -/

/-- How far a call has come, with the elements that are left and the values that are joined: an
element is next, or the value of one is awaited by a step that joins it. -/
inductive Partway (s : Session) (i : Nat) (c : CallId) (es : List Expr) (f : FrameId) (K : Queue) :
    (joins : Queue) → (left : List Expr) → (values : List Value) → Prop where
  | next {left : List Expr} {vs : List Value} (h : Gathered i c es f K left vs s) :
    Partway s i c es f K [] left vs
  | evaluating {e : Expr} {left : List Expr} {vs : List Value} {p : Session}
    (h : Gathered i c es f K (e :: left) vs p)
    (he : Evaluating i e f (.join c :: callSteps f c left ++ K) p s) :
    Partway s i c es f K [.join c] left vs
  | value {e : Expr} {left : List Expr} {vs : List Value} {p : Session} {v : Value}
    (h : Gathered i c es f K (e :: left) vs p)
    (hv : HasValue i e f (.join c :: callSteps f c left ++ K) v p s) :
    Partway s i c es f K [.join c] left vs

section Places

variable {s : Session} {i : Nat} {v : Value} {c : CallId} {es left : List Expr} {f : FrameId}
  {q front joins K : Queue} {vs : List Value}

theorem Gathered.suffix (h : Gathered i c es f K left vs s) : left <:+ es := by
  induction h with
  | begin => exact List.suffix_refl _
  | wait _ _ _ ih => exact ih
  | join _ _ _ _ ih => exact (List.suffix_cons _ _).trans ih

theorem Partway.suffix (h : Partway s i c es f K joins left vs) : left <:+ es := by
  cases h with
  | next h => exact h.suffix
  | evaluating h => exact (List.suffix_cons _ _).trans h.suffix
  | value h => exact (List.suffix_cons _ _).trans h.suffix

/-- The values joined, the one awaited and the elements left are as many as the elements. -/
theorem Partway.length_add (h : Partway s i c es f K joins left vs) :
    vs.length + (joins.length + left.length) = es.length := by
  cases h with
  | next h => rw [← h.length_add, List.length_nil, Nat.zero_add]
  | evaluating h => rw [← h.length_add, Nat.add_comm [Step.join c].length]; rfl
  | value h => rw [← h.length_add, Nat.add_comm [Step.join c].length]; rfl

/-- A call stands in a queue, and nothing else there mentions its record. -/
structure Place (s : Session) (i : Nat) (c : CallId) (q front joins K : Queue) (f : FrameId)
    (es left : List Expr) : Prop where
  queue : q = front ++ joins ++ callSteps f c left ++ K
  /-- Where no value is awaited, the call is first. -/
  first : joins = [.join c] ∨ joins = [] ∧ front = []
  front_free : ¬Mentions front c
  rest_free : ¬Mentions K c
  partway : Partway s i c es f K joins left (s.world.collected c)

theorem Place.prepend {front' : Queue} (h : Place s i c q front [.join c] K f es left)
    (hfree : ¬Mentions front' c) :
    Place s i c (front' ++ q) (front' ++ front) [.join c] K f es left where
  queue := by rw [h.queue]; simp only [List.append_assoc]
  first := .inl rfl
  front_free := by rw [mentions_append]; exact fun hc ↦ hc.elim hfree h.front_free
  rest_free := h.rest_free
  partway := h.partway

theorem collected_of_record (h : s.world.calls[c]? = some vs) : s.world.collected c = vs := by
  rw [World.collected, h, Option.getD_some]

theorem Behind.place (h : Behind s i K) (hfree : c ∉ applied K)
    (hvs : s.world.calls[c]? = some vs) (hjoins : joins = [.join c] ∨ joins = [])
    (hpartway : Partway s i c es f K joins left vs) :
    Place s i c (joins ++ callSteps f c left ++ K) [] joins K f es left where
  queue := rfl
  first := hjoins.imp_right (⟨·, rfl⟩)
  front_free := not_mentions_nil
  rest_free := fun hK ↦ hfree (h.record hK).1
  partway := by rwa [collected_of_record hvs]

theorem Behind.exists_place (h : Behind s i q) (hnodup : (applied q).Nodup) (hc : Mentions q c) :
    ∃ front K f es left, Place s i c q front [.join c] K f es left := by
  induction h with
  | nil => exact absurd hc not_mentions_nil
  | @plain st q hst h ih =>
    rw [applied_cons_of_plain hst] at hnodup
    obtain ⟨front, K, f, es, left, hplace⟩ := ih hnodup (mentions_of_plain hst hc)
    have hfree : ¬Mentions [st] c := fun hst' ↦ not_mentions_nil (mentions_of_plain hst hst')
    exact ⟨_, K, f, es, left, hplace.prepend hfree⟩
  | @call d es left f e vs p q hgathered hevaluating hvs h ih =>
    rw [applied_join_callSteps, List.nodup_cons] at hnodup
    by_cases hdc : c = d
    · subst hdc
      exact ⟨[], q, f, es, left,
        h.place hnodup.1 hvs (.inl rfl) (.evaluating hgathered hevaluating)⟩
    · have hq : Mentions q c := (mentions_join_callSteps.1 hc).resolve_left hdc
      obtain ⟨front, K, f', es', left', hplace⟩ := ih hnodup.2 hq
      exact ⟨_, K, f', es', left', hplace.prepend (not_mentions_join_callSteps hdc)⟩

/-- Every record that is mentioned is the record of one call in the queue. -/
theorem Whole.exists_place (h : Whole s i v q) (hnodup : (applied q).Nodup) (hc : Mentions q c) :
    ∃ front joins K f es left, Place s i c q front joins K f es left := by
  cases h with
  | nil => exact absurd hc not_mentions_nil
  | @plain st q hst h =>
    rw [applied_cons_of_plain hst] at hnodup
    obtain ⟨front, K, f, es, left, hplace⟩ := h.exists_place hnodup (mentions_of_plain hst hc)
    have hfree : ¬Mentions [st] c := fun hst' ↦ not_mentions_nil (mentions_of_plain hst hst')
    exact ⟨_, _, K, f, es, left, hplace.prepend hfree⟩
  | @join d es left f e vs p q hgathered hvalue hvs h =>
    rw [applied_join_callSteps, List.nodup_cons] at hnodup
    by_cases hdc : c = d
    · subst hdc
      exact ⟨[], _, q, f, es, left, h.place hnodup.1 hvs (.inl rfl) (.value hgathered hvalue)⟩
    · have hq : Mentions q c := (mentions_join_callSteps.1 hc).resolve_left hdc
      obtain ⟨front, K, f', es', left', hplace⟩ := h.exists_place hnodup.2 hq
      exact ⟨_, _, K, f', es', left', hplace.prepend (not_mentions_join_callSteps hdc)⟩
  | @call d es left f vs q hgathered hvs h =>
    rw [applied_append, applied_callSteps, List.singleton_append, List.nodup_cons] at hnodup
    rw [mentions_append, mentions_callSteps] at hc
    by_cases hdc : c = d
    · subst hdc
      exact ⟨[], _, q, f, es, left, h.place hnodup.1 hvs (.inr rfl) (.next hgathered)⟩
    · obtain ⟨front, K, f', es', left', hplace⟩ := h.exists_place hnodup.2 (hc.resolve_left hdc)
      exact ⟨_, _, K, f', es', left', hplace.prepend (mt mentions_callSteps.1 hdc)⟩

theorem count_join_callSteps : (callSteps f c left).count (.join c) = left.length := by
  induction left with
  | nil => rfl
  | cons e left ih =>
    rw [callSteps_cons, List.count_cons_of_ne (by simp), List.count_cons_self, ih, List.length_cons]

/-- The steps that join a value to the record are those of the call. -/
theorem Place.count_join (h : Place s i c q front joins K f es left) :
    q.count (.join c) = joins.length + left.length := by
  have hfront : front.count (.join c) = 0 :=
    List.count_eq_zero.2 fun hmem ↦ h.front_free ⟨_, hmem, rfl⟩
  have hK : K.count (.join c) = 0 := List.count_eq_zero.2 fun hmem ↦ h.rest_free ⟨_, hmem, rfl⟩
  have hjoins : joins.count (.join c) = joins.length := by
    obtain hj | ⟨hj, -⟩ := h.first <;> rw [hj]
    · exact List.count_cons_self
    · rfl
  rw [h.queue, List.count_append, List.count_append, List.count_append, hfront, hK, hjoins,
    count_join_callSteps, Nat.zero_add, Nat.add_zero]

theorem Place.count_applied (h : Place s i c q front joins K f es left) :
    (applied q).count c = 1 := by
  have hzero : ∀ {r : Queue}, ¬Mentions r c → (applied r).count c = 0 := fun hr ↦
    List.count_eq_zero.2 fun hmem ↦ hr (mentions_of_mem_applied hmem)
  have hjoins : applied joins = [] := by
    obtain hj | ⟨hj, -⟩ := h.first <;> rw [hj] <;> rfl
  rw [h.queue, applied_append, applied_append, applied_append, hjoins, applied_callSteps,
    List.append_nil, List.count_append, List.count_append, hzero h.front_free, hzero h.rest_free]
  exact congrArg (0 + · + 0) List.count_cons_self

theorem Whole.gathered (h : Whole s i v (.apply c f :: K)) :
    ∃ es, Gathered i c es f K [] (s.world.collected c) s := by
  generalize hm : Step.apply c f :: K = m at h
  cases h with
  | nil => cases hm
  | plain hst =>
    cases hm
    cases hst
  | join => cases (List.cons.inj hm).1
  | @call d es left f' vs q hgathered hvs =>
    cases left with
    | nil =>
      cases hm
      rw [collected_of_record hvs]
      exact ⟨es, hgathered⟩
    | cons e left => cases (List.cons.inj hm).1

end Places

end Session

/-- **Records of calls are private.** Let threads be made and take steps in any order, each of them
up to the first step that fails. Then a record that is mentioned in a queue is applied by one step
of it and mentioned in no other queue. In its queue it is mentioned only by the steps of one call:
perhaps a step that joins the value of the element under evaluation, then for each element that is
left the step that evaluates it and the one that joins its value, and then the application. The
values collected and the joins pending are as many as the elements of the call.

So when a record is applied, it holds the values of all elements, in order, and is empty only if
there are none. Runs of the session are among these orders. -/
theorem argument_lists_are_private {w : World} {s : Session} (h : Session.Runs { world := w } s) :
    (∀ (i : Nat) (v : Value) (q : Queue) (c : CallId), s.Has i v q → Machine.Mentions q c →
      (Machine.applied q).count c = 1 ∧
      (∀ (j : Nat) (u : Value) (r : Queue), j ≠ i → s.Has j u r → ¬Machine.Mentions r c) ∧
      ∃ front joins K f es left,
        q = front ++ joins ++ Machine.callSteps f c left ++ K ∧
        (joins = [.join c] ∨ joins = [] ∧ front = []) ∧
        ¬Machine.Mentions front c ∧ ¬Machine.Mentions K c ∧ left <:+ es ∧
        (s.world.collected c).length + q.count (.join c) = es.length ∧
        s.Partway i c es f K joins left (s.world.collected c)) ∧
    (∀ (i : Nat) (v : Value) (c : CallId) (f : FrameId) (K : Queue), s.Has i v (.apply c f :: K) →
      ∃ es, Session.Gathered i c es f K [] (s.world.collected c) s ∧
        (s.world.collected c = [] ↔ es = [])) ∧
    ∀ (sup : Supervision) (fuel : Nat) (budget : Option Int) (n : Nat) (s' : Session),
      s.run sup fuel budget = (.done n, s') → Session.Runs { world := w } s' := by
  have htidy := h.tidy
  refine ⟨fun i v q c hhas hc ↦ ?_, fun i v c f K hhas ↦ ?_, ?_⟩
  · have hwhole := htidy.whole hhas
    obtain ⟨front, joins, K, f, es, left, hplace⟩ := hwhole.exists_place (htidy.nodup hhas) hc
    refine ⟨hplace.count_applied, fun j u r hne hj hr ↦ ?_, front, joins, K, f, es, left,
      hplace.queue, hplace.first, hplace.front_free, hplace.rest_free, hplace.partway.suffix, ?_,
      hplace.partway⟩
    · exact htidy.disjoint hne hj hhas c ((htidy.whole hj).record hr).1 (hwhole.record hc).1
    · rw [hplace.count_join, hplace.partway.length_add]
  · obtain ⟨es, hgathered⟩ := (htidy.whole hhas).gathered
    have hlength := hgathered.length_add
    refine ⟨es, hgathered, ?_⟩
    rw [← List.length_eq_zero_iff, ← List.length_eq_zero_iff, ← hlength]
    rfl
  · intro sup fuel budget n s' hrun
    exact h.trans (Session.runs_run hrun)

/-- Two threads that each evaluate one call inside another. -/
def twoSums : Session :=
  let sum : Expr := .compound [.reference "+", .number 1,
    .compound [.reference "*", .number 2, .number 3]]
  (Session.fresh.spawn [sum] World.globalFrame).spawn [sum] World.globalFrame

/-- Turn by turn both threads have come to apply the inner call. -/
def twoSumsApplying : Session := (twoSums.run {} 100 (some 34)).2

/-- The inner record is complete. The outer one has a value to come, and the other thread does not
mention it. -/
theorem argument_lists_are_private_twoSums :
    (∃ es, Session.Gathered 0 2 es 0 [.join 0, .apply 0 0] []
        [.primitive .mul, .int 2, .int 3] twoSumsApplying) ∧
      (∀ (u : Value) (r : Queue), twoSumsApplying.Has 1 u r → ¬Machine.Mentions r 0) ∧
      ∃ joins K f es left, (twoSumsApplying.world.collected 0).length + 1 = es.length ∧
        twoSumsApplying.Partway 0 0 es f K joins left (twoSumsApplying.world.collected 0) := by
  have hrun : twoSums.run {} 100 (some 34) = (.done 34, twoSumsApplying) :=
    Prod.ext (by decide +kernel) rfl
  have hspawned : Session.Runs { world := World.fresh } twoSums :=
    (Session.Moves.spawn Session.fresh _ _).runs.trans (Session.Moves.spawn _ _ _).runs
  have hqueue : twoSumsApplying.threads[0]?.map Thread.queue
      = some [.apply 2 0, .join 0, .apply 0 0] := by
    decide +kernel
  obtain ⟨t, ht, hq⟩ := Option.map_eq_some_iff.1 hqueue
  have hhas : twoSumsApplying.Has 0 t.current [.apply 2 0, .join 0, .apply 0 0] :=
    ⟨t, ht, rfl, hq⟩
  have hvalues : twoSumsApplying.world.collected 2 = [.primitive .mul, .int 2, .int 3] := by
    decide +kernel
  obtain ⟨hrecords, happlied, -⟩ :=
    argument_lists_are_private (hspawned.trans (Session.runs_run hrun))
  obtain ⟨es, hgathered, -⟩ := happlied _ _ _ _ _ hhas
  obtain ⟨-, hothers, _, joins, K, f, es', left, -, -, -, -, -, hcount, hpartway⟩ :=
    hrecords _ _ _ 0 hhas ⟨.join 0, by simp, rfl⟩
  exact ⟨⟨es, hvalues ▸ hgathered⟩, fun u r hr ↦ hothers 1 u r (by decide) hr,
    joins, K, f, es', left, hcount, hpartway⟩

end Interleave

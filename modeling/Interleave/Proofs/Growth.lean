import Interleave.Proofs.Attempts
import Interleave.Proofs.Session
import Interleave.Session.Program

/-!
# The store only grows

All that can be done to a session, from the empty one on, is a sequence of acts: frames are made and
names defined in them, threads are made, cancelled and given their turns one by one or in passes and
runs, and programs are evaluated apart from the threads. Acts may fail and stay half done.
`Act.perform` is what an act does, and `Act.attempts` are the attempts to define names that are made
by it.

`Session.store_only_grows` says what the attempts tell of the store: what frames hold, that frames
lie in older frames, that of the attempts to define a name in a frame the first succeeds and no
other, and how the values of names can change.

## One lemma for each act

For every act it is shown that it leads from an intact session to an intact one by its attempts
(`Session.Leads`), also if it fails half way. Sequences of acts follow by induction, and what a
history leaves of the store is known from `World.History`. An act is allowed if the frames and the
closures that it names exist (`Act.Allowed`); there is no other way for an embedding program to name
one. A handler makes threads in frames that exist for the same reason (`Supervision.SpawnsInside`).
-/

namespace Interleave

/-! ## Intact sessions -/

/-- What a thread holds refers to nothing that is not there. -/
def Machine.HeldIntact (w : World) (v : Value) (q : Queue) : Prop :=
  v.Intact w ∧ ∀ st ∈ q, st.Intact w

theorem Machine.HeldIntact.mono {w w' : World} {v : Value} {q : Queue} (hw : w.Grown w')
    (h : HeldIntact w v q) : HeldIntact w' v q :=
  ⟨h.1.mono hw, fun st hst ↦ (h.2 st hst).mono hw⟩

theorem Machine.intact_isInvariant : IsInvariant World.Intact HeldIntact where
  worldNoted hw := hw.congr rfl rfl (Nat.le_refl _)
  threadNoted h := h.mono (.of_eq rfl rfl)
  emptied h := ⟨h.1, List.forall_mem_nil _⟩
  world hw h hstep := by
    obtain ⟨hst, hq⟩ := List.forall_mem_cons.mp h.2
    exact (step_intact hst h.1 hq hw hstep).2.1
  own hw h hstep := by
    obtain ⟨hst, hq⟩ := List.forall_mem_cons.mp h.2
    exact (step_intact hst h.1 hq hw hstep).2.2 _ _ rfl
  others hw h hstep hother := by
    obtain ⟨hst, hq⟩ := List.forall_mem_cons.mp h.2
    exact hother.mono (step_intact hst h.1 hq hw hstep).1

/-- Nothing in a session refers to what is not there. -/
def Session.Intact (s : Session) : Prop :=
  s.Holds World.Intact Machine.HeldIntact

/-- From one session these attempts led to the other, which is intact. -/
structure Session.Leads (as : List Attempt) (s s' : Session) : Prop where
  intact : s'.Intact
  history : s.world.History as s'.world

namespace Session.Leads

variable {as as' : List Attempt} {s s' s'' : Session} {id : Nat}

theorem refl (hs : s.Intact) : Leads [] s s := ⟨hs, .refl _⟩

theorem trans (h : Leads as s s') (h' : Leads as' s' s'') : Leads (as ++ as') s s'' :=
  ⟨h'.intact, h.history.trans h'.history⟩

theorem quiet (h : Leads as s s') (hquiet : s'.Quiet s'') : Leads as s s'' := by
  refine ⟨h.intact.quiet Machine.intact_isInvariant hquiet, ?_⟩
  obtain ⟨journal, hworld⟩ := hquiet.world
  exact h.history.trans_same (by rw [hworld]) (Nat.le_of_eq (by rw [hworld]))

/-- The threads stay what they are while something else happens to the world. -/
theorem ofWorld (hs : s.Intact) {w : World} (hw : w.Intact) (h : s.world.History as w) :
    Leads as s { s with world := w } :=
  ⟨⟨hw, fun ht ↦ (hs.thread ht).mono h.grown⟩, h⟩

theorem spawn (h : Leads as s s') (program : List Expr) {frame : FrameId}
    (hframe : frame < s'.world.frames.size) : Leads as s (s'.spawn program frame) := by
  have hgrown : s'.world.Grown (s'.spawn program frame).world := .of_eq rfl rfl
  refine ⟨⟨h.intact.world.congr rfl rfl (Nat.le_refl _), fun {i t} ht ↦ ?_⟩,
    h.history.trans_same rfl (Nat.le_refl _)⟩
  rw [Session.spawn, Array.getElem?_push] at ht
  split at ht
  · cases ht
    exact ⟨trivial, Machine.intact_ofProgram (Nat.lt_of_lt_of_le hframe hgrown.frames) program⟩
  · exact (h.intact.thread ht).mono hgrown

end Session.Leads

/-- Those who are told of a failure make threads in frames that exist only. -/
def Supervision.SpawnsInside (sup : Supervision) : Prop :=
  ∀ h, sup.handler = some h → ∀ s id e program frame,
    .spawn program frame ∈ (h s id e).reactions → frame < s.world.frames.size

namespace Session

/-! ## Turns -/

section Turns

variable {as : List Attempt} {s s' s'' : Session} {sup : Supervision} {id : Nat}

theorem Leads.reactAll (h : Leads as s s') {rs : List Reaction}
    (hrs : ∀ program frame, .spawn program frame ∈ rs → frame < s'.world.frames.size) :
    Leads as s (rs.foldl react s') := by
  induction rs generalizing s' with
  | nil => exact h
  | cons r rs ih =>
    have hlater := fun program frame hmem ↦ hrs program frame (List.mem_cons_of_mem _ hmem)
    cases r with
    | cancel id => exact ih (h.quiet (.cancel s' id)) hlater
    | spawn program frame => exact ih (h.spawn program (hrs _ _ List.mem_cons_self)) hlater

theorem Leads.tell (hsup : sup.SpawnsInside) (h : Leads as s s') {e : ProgramError}
    {o : Option Fault} (htell : Session.tell sup.handler id e s' = (o, s'')) : Leads as s s'' := by
  cases hh : sup.handler with
  | none =>
    rw [hh] at htell
    cases htell
    exact h.quiet (.note s' _)
  | some handler =>
    have hframes := hsup handler hh s' id e
    rw [hh, Session.tell] at htell
    cases htell
    exact (h.quiet (.note s' _)).reactAll hframes

variable {t t' : Thread} {st : Step} {q : Queue} {r : Except Fault (Value × Queue)} {w : World}
  {journal : Array Note}

/-- What a thread holds, in the world in which it takes a step. -/
theorem Intact.held (hs : s.Intact) (ht : s.threads[id]? = some t) (hq : t.queue = st :: q)
    (journal : Array Note) : Machine.HeldIntact { s.world with journal } t.current (st :: q) :=
  Machine.intact_isInvariant.threadNoted (hq ▸ hs.thread ht)

theorem Intact.noted (hs : s.Intact) (journal : Array Note) :
    World.Intact { s.world with journal } :=
  Machine.intact_isInvariant.worldNoted hs.world

/-- A step of a thread leads where its attempts lead, whatever becomes of the thread. -/
theorem Intact.leads_step (hs : s.Intact) (ht : s.threads[id]? = some t) (hq : t.queue = st :: q)
    (hstep : Machine.step st t.current q { s.world with journal } = (r, w))
    (ht' : Machine.HeldIntact w t'.current t'.queue) :
    Leads (Machine.stepAttempts st t.current s.world) s (s.replace id t' w) := by
  have hheld := hs.held ht hq journal
  have hinvariant := Machine.intact_isInvariant
  refine ⟨.replace (hinvariant.world (hs.noted journal) hheld hstep) ht' fun hu ↦ ?_, ?_⟩
  · exact hinvariant.others (hs.noted journal) hheld hstep (hinvariant.threadNoted (hs.thread hu))
  · have hsame : s.world.History [] { s.world with journal } := .same rfl (Nat.le_refl _)
    have hhistory := Machine.step_history (hheld.2 st List.mem_cons_self) (hs.noted journal) hstep
    rw [Machine.stepAttempts_journal] at hhistory
    exact hsame.trans hhistory

theorem Intact.leads_ok (hs : s.Intact) (ht : s.threads[id]? = some t) (hq : t.queue = st :: q)
    {v : Value} {q' : Queue}
    (hstep : Machine.step st t.current q { s.world with journal } = (.ok (v, q'), w)) :
    Leads (Machine.stepAttempts st t.current s.world) s
      (s.replace id { t with current := v, queue := q', steps := t.steps + 1 } w) :=
  hs.leads_step ht hq hstep
    (Machine.intact_isInvariant.own (hs.noted journal) (hs.held ht hq journal) hstep)

theorem Intact.leads_error (hs : s.Intact) (ht : s.threads[id]? = some t) (hq : t.queue = st :: q)
    {f : Fault} (hstep : Machine.step st t.current q { s.world with journal } = (.error f, w))
    {q' : Queue} (hq' : ∀ x ∈ q', x ∈ q) (error : Option ProgramError) :
    Leads (Machine.stepAttempts st t.current s.world) s
      (s.replace id { t with queue := q', error } w) := by
  have hheld := hs.held ht hq journal
  refine hs.leads_step ht hq hstep
    (Machine.intact_isInvariant.others (hs.noted journal) hheld hstep ⟨hheld.1, fun x hx ↦ ?_⟩)
  exact hheld.2 x (List.mem_cons_of_mem _ (hq' x hx))

/-- The attempts made by the next step of a thread. -/
def turnAttempts (s : Session) (id : Nat) : List Attempt :=
  match s.threads[id]? with
  | none => []
  | some t =>
    match t.queue with
    | [] => []
    | st :: _ => Machine.stepAttempts st t.current s.world

theorem turnAttempts_eq (ht : s.threads[id]? = some t) (hq : t.queue = st :: q) :
    s.turnAttempts id = Machine.stepAttempts st t.current s.world := by
  simp only [turnAttempts, ht, hq]

theorem Intact.leads_stepThread (hs : s.Intact) (id : Nat) :
    Leads (s.turnAttempts id) s (s.stepThread id).2 := by
  rw [stepThread]
  cases ht : s.threads[id]? with
  | none =>
    rw [turnAttempts, ht]
    exact .refl hs
  | some t =>
    cases hq : t.queue with
    | nil =>
      simp only [turnAttempts, ht, Thread.step, hq]
      exact ⟨.replace hs.world (hs.thread ht) hs.thread, .refl _⟩
    | cons st q =>
      rw [turnAttempts_eq ht hq]
      simp only [Thread.step, hq]
      rcases hstep : Machine.step st t.current q s.world with ⟨f | ⟨v, q'⟩, w⟩
      · exact hs.leads_error ht hq hstep (fun _ hx ↦ hx) t.error
      · exact hs.leads_ok ht hq hstep

end Turns

end Session

/-! ## Visits, passes and runs -/

def Visit.session : Visit → Session
  | .next _ s | .finished _ s | .broken _ s => s

namespace Session

section Runs

variable {sup : Supervision} {budget : Option Int} {s : Session}

/-- The attempts made in a visit. There are none if the log breaks off. -/
def visitAttempts (sup : Supervision) (budget : Option Int) (p : Progress) (s : Session) :
    List Attempt :=
  match s.active[p.visited]? with
  | none => []
  | some id =>
    if budget.any (· ≤ (p.executed : Int)) || s.isIdle id then []
    else
      match s.traceTurn sup.log id with
      | .ok _ => s.turnAttempts id
      | .error _ => []

theorem visitAttempts_of_ready {p : Progress} {id : Nat} {t : Thread} {st : Step} {q : Queue}
    (hid : s.active[p.visited]? = some id)
    (hbudget : budget.any (· ≤ (p.executed : Int)) = false) (ready : s.Ready id t st q)
    (hlog : sup.refusal? st = none) :
    s.visitAttempts sup budget p = Machine.stepAttempts st t.current s.world := by
  simp only [visitAttempts, hid, hbudget, isIdle_of_ready ready, Bool.or_self, Bool.false_eq_true,
    if_false, traceTurn_of_ready ready, hlog, turnAttempts_eq ready.thread ready.queue]

/-- **A visit leads where its attempts lead**, also if a fault ends the pass in it. -/
theorem Intact.leads_visit (hs : s.Intact) (hsup : sup.SpawnsInside) (budget : Option Int)
    (p : Progress) : Leads (s.visitAttempts sup budget p) s (s.visit sup budget p).session := by
  -- a thread whose step failed, before anybody is told
  have hfail : ∀ {id t st q e w}, s.Ready id t st q →
      Machine.step st t.current q (sup.turnWorld id st s.world) = (.error (.program e), w) →
      Leads (Machine.stepAttempts st t.current s.world) s
        ((s.replace id { t with queue := q } w).fail id e) := by
    intro id t st q e w ready hstep
    obtain ⟨journal, hworld⟩ := sup.turnWorld_eq id st s.world
    rw [hworld] at hstep
    exact (hs.leads_error ready.thread ready.queue hstep (List.forall_mem_nil _) (some e)).quiet
      (.fail e ⟨rfl, rfl, rfl, rfl⟩)
  cases hvisit : s.visit sup budget p
  all_goals cases visited_of_visit hvisit
  case next.idle id hid hbudget hidle =>
    simp only [visitAttempts, hid, hidle, Bool.or_true, if_true]
    exact (Leads.refl hs).quiet (.retire s id)
  case next.kept id t st q q' v w hid hbudget ready hstep hq hlog =>
    obtain ⟨journal, hworld⟩ := sup.turnWorld_eq id st s.world
    rw [hworld] at hstep
    rw [visitAttempts_of_ready hid hbudget ready hlog]
    exact hs.leads_ok ready.thread ready.queue hstep
  case next.ended id t st q v w hid hbudget ready hstep hlog =>
    obtain ⟨journal, hworld⟩ := sup.turnWorld_eq id st s.world
    rw [hworld] at hstep
    rw [visitAttempts_of_ready hid hbudget ready hlog]
    exact (hs.leads_ok ready.thread ready.queue hstep).quiet (.retire _ id)
  case next.failed id t st q e w hid hbudget ready hstep hlog htell =>
    rw [visitAttempts_of_ready hid hbudget ready hlog]
    exact (hfail ready hstep).tell hsup htell
  case finished.allVisited hid =>
    rw [visitAttempts, hid]
    exact ⟨⟨hs.world, hs.thread⟩, .refl _⟩
  case finished.cut id hid hbudget =>
    simp only [visitAttempts, hid, hbudget, Bool.true_or, if_true]
    exact ⟨⟨hs.world, hs.thread⟩, .refl _⟩
  case broken.raised id t st q e w hid hbudget ready hstep hlog htell =>
    rw [visitAttempts_of_ready hid hbudget ready hlog]
    exact (hfail ready hstep).tell hsup htell
  case broken.brokenDown id t st q b w hid hbudget ready hstep hlog =>
    obtain ⟨journal, hworld⟩ := sup.turnWorld_eq id st s.world
    rw [hworld] at hstep
    rw [visitAttempts_of_ready hid hbudget ready hlog]
    exact hs.leads_error ready.thread ready.queue hstep (fun _ hx ↦ hx) t.error
  case broken.unlogged id t st q b hid hbudget ready hlog =>
    simp only [visitAttempts, hid, hbudget, isIdle_of_ready ready, Bool.or_self,
      Bool.false_eq_true, if_false, traceTurn_of_ready ready, hlog]
    exact .refl hs

/-- The attempts made from some point of a pass on. -/
def passAttempts (sup : Supervision) (budget : Option Int) :
    (fuel : Nat) → Progress → Session → List Attempt
  | 0, _, _ => []
  | fuel + 1, p, s =>
    s.visitAttempts sup budget p ++
      match s.visit sup budget p with
      | .next p' s' => passAttempts sup budget fuel p' s'
      | .finished .. | .broken .. => []

theorem Intact.leads_passFrom (hs : s.Intact) (hsup : sup.SpawnsInside) (budget : Option Int)
    (fuel : Nat) (p : Progress) :
    Leads (s.passAttempts sup budget fuel p) s (s.passFrom sup budget fuel p).2 := by
  induction fuel generalizing p s with
  | zero => exact .refl hs
  | succ fuel ih =>
    have hvisit := hs.leads_visit hsup budget p
    rw [passAttempts, passFrom]
    cases hv : s.visit sup budget p with
    | next p' s' =>
      rw [hv] at hvisit
      exact hvisit.trans (ih hvisit.intact p')
    | finished n s' =>
      rw [hv] at hvisit
      exact (List.append_nil _).symm ▸ hvisit
    | broken f s' =>
      rw [hv] at hvisit
      exact (List.append_nil _).symm ▸ hvisit

/-- The attempts made by a run after `executed` steps. -/
def runAttempts (sup : Supervision) (budget : Option Int) :
    (fuel executed : Nat) → Session → List Attempt
  | 0, _, _ => []
  | fuel + 1, executed, s =>
    let left := budget.map (· - (executed : Int))
    if s.isDone || left.any (· ≤ 0) then []
    else
      passAttempts sup left fuel {} s ++
        match s.pass sup fuel left with
        | (.done n, s') => runAttempts sup budget fuel (executed + n) s'
        | _ => []

theorem Intact.leads_runFrom (hs : s.Intact) (hsup : sup.SpawnsInside) (budget : Option Int)
    (fuel executed : Nat) :
    Leads (s.runAttempts sup budget fuel executed) s (s.runFrom sup budget fuel executed).2 := by
  induction fuel generalizing executed s with
  | zero => exact .refl hs
  | succ fuel ih =>
    rw [runAttempts, runFrom]
    by_cases hover : s.isDone || (budget.map (· - (executed : Int))).any (· ≤ 0)
    · simp only [hover, if_true]
      exact .refl hs
    · simp only [hover, Bool.false_eq_true, if_false]
      have hpass := hs.leads_passFrom hsup (budget.map (· - (executed : Int))) fuel {}
      change Leads _ s (s.pass sup fuel (budget.map (· - (executed : Int)))).2 at hpass
      rcases hp : s.pass sup fuel (budget.map (· - (executed : Int))) with ⟨n | f | _, s'⟩
      · rw [hp] at hpass
        exact hpass.trans (ih hpass.intact (executed + n))
      · rw [hp] at hpass
        exact (List.append_nil _).symm ▸ hpass
      · rw [hp] at hpass
        exact (List.append_nil _).symm ▸ hpass

end Runs

end Session

/-! ## Acts -/

/-- Something that can be done to a session. -/
inductive Act where
  /-- Makes an empty frame, in another one or in none. -/
  | newFrame (outer : Option FrameId)
  /-- Makes a frame with bindings in another one. -/
  | childWith (f : FrameId) (bs : Bindings)
  /-- Defines a name. -/
  | define (f : FrameId) (x : String) (v : Value)
  /-- Defines names one after the other, up to the first failure. -/
  | update (f : FrameId) (bs : Bindings)
  /-- Defines the built-in functions and constants. -/
  | register (f : FrameId)
  /-- Makes a closure. -/
  | closure (params : List String) (body : List Expr) (f : FrameId)
  /-- Makes a thread. -/
  | spawn (program : List Expr) (f : FrameId)
  /-- Cancels a thread. -/
  | cancel (id : Nat)
  /-- Lets a thread take a step. -/
  | step (id : Nat)
  /-- Visits a thread. Other acts may come between the visits of a pass. -/
  | visit (sup : Supervision) (budget : Option Int) (p : Progress)
  /-- Visits all active threads. -/
  | pass (sup : Supervision) (fuel : Nat) (budget : Option Int)
  /-- Runs passes. -/
  | run (sup : Supervision) (fuel : Nat) (budget : Option Int)
  /-- Evaluates a program with the queue machine. -/
  | evaluate (log : Option Log) (fuel : Nat) (program : List Expr) (f : FrameId)
  /-- Evaluates a program with the direct evaluator. -/
  | evaluateDirect (depth : Nat) (program : List Expr) (f : FrameId)
  /-- Reads a program and evaluates it with the queue machine. -/
  | eval (log : Option Log) (fuel : Nat) (source : String)
  /-- Reads a program and evaluates it with the direct evaluator. -/
  | evalDirect (depth : Nat) (source : String)

namespace Act

/-- What an act does, as far as it gets. -/
def perform (s : Session) : Act → Session
  | newFrame outer => { s with world := (s.world.newFrame outer []).2 }
  | childWith f bs => { s with world := (s.world.newFrame (some f) bs).2 }
  | define f x v => { s with world := (s.world.define f x v).2 }
  | update f bs => { s with world := (s.world.defineAll f bs).2 }
  | register f => { s with world := (s.world.defineBuiltins f).2 }
  | closure params body f => { s with world := (s.world.newClosure params body f).2 }
  | spawn program f => s.spawn program f
  | cancel id => s.cancel id
  | step id => (s.stepThread id).2
  | visit sup budget p => (s.visit sup budget p).session
  | pass sup fuel budget => (s.pass sup fuel budget).2
  | run sup fuel budget => (s.run sup fuel budget).2
  | evaluate log fuel program f =>
    { s with world := (Machine.evaluate log fuel program f s.world).2 }
  | evaluateDirect depth program f =>
    { s with world := (Direct.evaluateAll depth program f s.world).2 }
  | eval log fuel source => (s.eval log fuel source).2
  | evalDirect depth source => (s.evalDirect depth source).2

/-- The attempts to define names that are made in the course of an act. -/
def attempts (s : Session) : Act → List Attempt
  | newFrame _ | closure .. | spawn .. | cancel _ => []
  | childWith f bs => s.world.frameAttempts (some f) bs
  | define f x v => s.world.attempts f [(x, v)]
  | update f bs => s.world.attempts f bs
  | register f => s.world.attempts f World.builtins
  | step id => s.turnAttempts id
  | visit sup budget p => s.visitAttempts sup budget p
  | pass sup fuel budget => s.passAttempts sup budget fuel {}
  | run sup fuel budget => s.runAttempts sup budget fuel 0
  | evaluate log fuel program f => Machine.evaluateAttempts log fuel program f s.world
  | evaluateDirect depth program f => Direct.attemptsAll depth program f s.world
  | eval log fuel source =>
    match parse source with
    | .ok program => Machine.evaluateAttempts log fuel program World.globalFrame s.world
    | .error _ => []
  | evalDirect depth source =>
    match parse source with
    | .ok program => Direct.attemptsAll depth program World.globalFrame s.world
    | .error _ => []

/-- The act concerns frames and closures that exist. No name is given twice to a frame that is made
with bindings. -/
def Allowed (s : Session) : Act → Prop
  | newFrame outer => ∀ f, outer = some f → f < s.world.frames.size
  | childWith f bs =>
    f < s.world.frames.size ∧ (bs.map Prod.fst).Nodup ∧ ∀ b ∈ bs, b.2.Intact s.world
  | define f _ v => f < s.world.frames.size ∧ v.Intact s.world
  | update f bs => f < s.world.frames.size ∧ ∀ b ∈ bs, b.2.Intact s.world
  | register f | closure _ _ f | spawn _ f | evaluate _ _ _ f | evaluateDirect _ _ f =>
    f < s.world.frames.size
  | cancel _ | step _ => True
  | visit sup .. | pass sup .. | run sup .. => sup.SpawnsInside
  | eval .. | evalDirect .. => World.globalFrame < s.world.frames.size

end Act

theorem World.Intact.defineAll {w : World} (hw : w.Intact) (f : FrameId) {bs : Bindings}
    (hbs : ∀ b ∈ bs, b.2.Intact w) : (w.defineAll f bs).2.Intact := by
  induction bs generalizing w with
  | nil => exact hw
  | cons b bs ih =>
    obtain ⟨x, v⟩ := b
    rw [World.defineAll]
    cases hx : w.binds f x with
    | true =>
      rw [define_of_binds hx]
      exact hw
    | false =>
      rw [define_of_not_binds hx]
      have hgrown : w.Grown (w.bind f x v) := .of_eq Array.size_modify rfl
      exact ih (hw.bind f x (hbs _ List.mem_cons_self)) fun b hb ↦
        (hbs b (List.mem_cons_of_mem _ hb)).mono hgrown

namespace Session

variable {s : Session}

/-- **An act leads where its attempts lead**, whether it succeeds or fails. -/
theorem Intact.leads_perform (hs : s.Intact) {a : Act} (ha : a.Allowed s) :
    Leads (a.attempts s) s (a.perform s) := by
  cases a with
  | newFrame outer =>
    exact .ofWorld hs (hs.world.newFrame ha (List.forall_mem_nil _)) (.newFrame ha)
  | childWith f bs =>
    have houter : ∀ g, some f = some g → g < s.world.frames.size :=
      fun g hg ↦ Option.some.inj hg ▸ ha.1
    exact .ofWorld hs (hs.world.newFrame houter ha.2.2) (.frameWith houter ha.2.1)
  | define f x v =>
    have hvalue : ∀ b ∈ [(x, v)], b.2.Intact s.world := by simpa using ha.2
    -- a single definition is an update with one name
    have hsingle : (s.world.define f x v).2 = (s.world.defineAll f [(x, v)]).2 := by
      rw [World.defineAll]
      rcases s.world.define f x v with ⟨e | ⟨⟩, w⟩ <;> rfl
    rw [Act.perform, hsingle]
    exact .ofWorld hs (hs.world.defineAll f hvalue) (.defineAll ha.1 _)
  | update f bs => exact .ofWorld hs (hs.world.defineAll f ha.2) (.defineAll ha.1 bs)
  | register f =>
    exact .ofWorld hs (hs.world.defineAll f (World.builtins_intact _)) (.defineAll ha _)
  | closure params body f =>
    exact .ofWorld hs (hs.world.congr rfl rfl (Nat.le_succ _)) (.same rfl (Nat.le_succ _))
  | spawn program f => exact (Leads.refl hs).spawn program ha
  | cancel id => exact (Leads.refl hs).quiet (.cancel s id)
  | step id => exact hs.leads_stepThread id
  | visit sup budget p => exact hs.leads_visit ha budget p
  | pass sup fuel budget => exact hs.leads_passFrom ha budget fuel {}
  | run sup fuel budget => exact hs.leads_runFrom ha budget fuel 0
  | evaluate log fuel program f =>
    exact .ofWorld hs (Machine.intact_evaluate log fuel program ha hs.world)
      (Machine.evaluate_history log fuel program ha hs.world)
  | evaluateDirect depth program f =>
    have hleads := Direct.evaluateAll_leads depth program ha hs.world
    exact .ofWorld hs hleads.intact hleads.history
  | eval log fuel source =>
    cases hparse : parse source with
    | error f =>
      simp only [Act.attempts, Act.perform, eval, hparse]
      exact .refl hs
    | ok program =>
      simp only [Act.attempts, Act.perform, eval, hparse]
      exact .ofWorld hs (Machine.intact_evaluate log fuel program ha hs.world)
        (Machine.evaluate_history log fuel program ha hs.world)
  | evalDirect depth source =>
    cases hparse : parse source with
    | error f =>
      simp only [Act.attempts, Act.perform, evalDirect, hparse]
      exact .refl hs
    | ok program =>
      have hleads := Direct.evaluateAll_leads depth program ha hs.world
      simp only [Act.attempts, Act.perform, evalDirect, hparse]
      exact .ofWorld hs hleads.intact hleads.history

/-! ### Sequences of acts -/

/-- A session in which nothing has been done yet. -/
def empty : Session := { world := {} }

/-- The session after acts, done one after the other. -/
def after (s : Session) (acts : List Act) : Session :=
  acts.foldl Act.perform s

/-- The attempts made by acts that are done one after the other. -/
def attempts : List Act → Session → List Attempt
  | [], _ => []
  | a :: acts, s => a.attempts s ++ attempts acts (a.perform s)

/-- Every act concerns what there is when it is its turn. -/
def Allows : List Act → Session → Prop
  | [], _ => True
  | a :: acts, s => a.Allowed s ∧ Allows acts (a.perform s)

theorem attempts_append (s : Session) (acts later : List Act) :
    attempts (acts ++ later) s = attempts acts s ++ attempts later (s.after acts) := by
  induction acts generalizing s with
  | nil => rfl
  | cons a acts ih =>
    rw [List.cons_append, attempts, attempts, ih, List.append_assoc]
    rfl

theorem allows_append {acts later : List Act} :
    Allows (acts ++ later) s ↔ Allows acts s ∧ Allows later (s.after acts) := by
  induction acts generalizing s with
  | nil => exact ⟨fun h ↦ ⟨trivial, h⟩, And.right⟩
  | cons a acts ih =>
    rw [List.cons_append, Allows, Allows, ih, and_assoc]
    rfl

theorem Intact.leads_after (hs : s.Intact) {acts : List Act} (h : Allows acts s) :
    Leads (attempts acts s) s (s.after acts) := by
  induction acts generalizing s with
  | nil => exact .refl hs
  | cons a acts ih =>
    have hact := hs.leads_perform h.1
    exact hact.trans (ih hact.intact h.2)

theorem intact_empty : empty.Intact where
  world := ⟨fun hf ↦ absurd hf (by simp [empty]), fun hf ↦ absurd hf (by simp [empty]),
    fun hc ↦ absurd hc (by simp [empty])⟩
  thread ht := absurd ht (by simp [empty])

/-! ## What becomes of the store -/

/-- **The store only grows**, whatever acts are done, those that fail included.

1. A frame keeps its outer frame and its bindings, and gains those that were defined in it.
2. There are no bindings but those of attempts that succeeded.
3. Frames lie in older frames, so a name is looked up along all the links there are.
4. Of the attempts to define a name in a frame the first succeeds, and every other one fails because
   the name is defined already.
5. A name that has a value has one for ever. It is another one only if the name was defined since in
   a frame that is searched before the one that bound it. -/
theorem store_only_grows (before later : List Act) (h : Allows (before ++ later) empty) :
    let s := empty.after before
    let s' := s.after later
    let since := attempts later s
    let ever := attempts (before ++ later) empty
    (∀ (f : FrameId) (F : Frame), s.world.frames[f]? = some F →
      ∃ F', s'.world.frames[f]? = some F' ∧
      F'.outer = F.outer ∧ F'.bindings = F.bindings ++ Attempt.gained f since ∧
      ∀ x v, F.value? x = some v → F'.value? x = some v) ∧
    (∀ (f : FrameId) (F : Frame), s'.world.frames[f]? = some F →
      F.bindings = Attempt.gained f ever) ∧
    ((∀ (f g : FrameId) (F : Frame), s'.world.frames[f]? = some F → F.outer = some g → g < f) ∧
      ∀ f x, s'.world.find? f x = if s'.world.binds f x then some f
        else (s'.world.frames[f]?.bind Frame.outer).bind (s'.world.find? · x)) ∧
    (∀ f x, Attempt.results f x ever = [] ∨ ∃ k, Attempt.results f x ever
      = .ok () :: List.replicate k (.error (.program (.alreadyDefined x)))) ∧
    ∀ f x v, s.world.lookup f x = .ok v →
      ∃ nearer g farther, s.world.scope f = nearer ++ g :: farther ∧
        s.world.find? f x = some g ∧
        (s'.world.lookup f x = .ok v ∧ s'.world.find? f x = some g ∨
          ∃ k ∈ nearer, ∃ u, s'.world.lookup f x = .ok u ∧ s'.world.find? f x = some k ∧
            ⟨k, x, u, .ok ()⟩ ∈ since) := by
  intro s s' since ever
  obtain ⟨hbefore, hlater⟩ := allows_append.mp h
  have hs : Leads (attempts before empty) empty s := intact_empty.leads_after hbefore
  have hs' : Leads since s s' := hs.intact.leads_after hlater
  -- the attempts ever made are those before and those since
  have hever : Leads ever empty s' := by
    have hall := hs.trans hs'
    rwa [← attempts_append] at hall
  refine ⟨fun f F hF ↦ ?_, fun f F hF ↦ ?_, ⟨fun f g F ↦ ?_, fun f x ↦ ?_⟩, fun f x ↦ ?_,
    fun f x v hv ↦ ?_⟩
  · refine ⟨_, hs'.history.frame hF, rfl, rfl, fun x v hv ↦ ?_⟩
    rw [Frame.value?, List.lookup_append]
    exact Option.or_eq_some_iff.mpr (.inl hv)
  · exact hever.history.madeFrame (Nat.zero_le f) hF
  · exact hs'.intact.world.outer
  · exact hs'.intact.world.find?_eq f x
  · have hnone : empty.world.binds f x = false := rfl
    exact (hever.history.results_of_not_binds hnone).imp And.right And.right
  · exact hs'.history.lookup hv

def definitionOf (x : String) (n : Int) : List Expr :=
  [.compound [.reference "define", .reference x, .number n]]

/-- A thread defines a name in the outer of two frames. -/
def definedOutside : List Act :=
  [.newFrame none, .register 0, .newFrame (some 0), .spawn (definitionOf "x" 1) 0, .run {} 9 none]

/-- Then the name is defined in the inner frame, and attempts fail to define it again: in the middle
of an update, by direct evaluation and by a thread. -/
def definedInside : List Act :=
  [.define 1 "x" (.int 2), .update 0 [("y", .int 3), ("x", .int 4), ("z", .int 5)],
    .evaluateDirect 9 (definitionOf "x" 6) 0, .spawn (definitionOf "x" 7) 1, .run {} 9 none]

theorem store_only_grows_definedInside :
    Allows (definedOutside ++ definedInside) empty ∧
      (empty.after definedOutside).world.lookup 1 "x" = .ok (.int 1) ∧
      ((empty.after definedOutside).after definedInside).world.lookup 1 "x" = .ok (.int 2) ∧
      (∃ k, Attempt.results 0 "x" (attempts (definedOutside ++ definedInside) empty)
        = .ok () :: List.replicate k (.error (.program (.alreadyDefined "x")))) ∧
      ⟨1, "x", .int 2, .ok ()⟩ ∈ attempts definedInside (empty.after definedOutside) := by
  have hsup : Supervision.SpawnsInside {} := by
    intro h hh
    cases hh
  have hallowed : Allows (definedOutside ++ definedInside) empty := by
    refine ⟨?_, ?_, ?_, ?_, hsup, ⟨?_, trivial⟩, ⟨?_, ?_⟩, ?_, ?_, hsup, trivial⟩
    · intro f hf
      cases hf
    · change 0 < Array.size _
      decide +kernel
    · intro f hf
      cases hf
      change 0 < Array.size _
      decide +kernel
    · change 0 < Array.size _
      decide +kernel
    · decide +kernel
    · decide +kernel
    · intro b hb
      simp only [List.mem_cons, List.not_mem_nil, or_false] at hb
      rcases hb with rfl | rfl | rfl <;> trivial
    · change 0 < Array.size _
      decide +kernel
    · change 1 < Array.size _
      decide +kernel
  have hold : (empty.after definedOutside).world.lookup 1 "x" = .ok (.int 1) := by decide +kernel
  have hnew : ((empty.after definedOutside).after definedInside).world.lookup 1 "x"
      = .ok (.int 2) := by decide +kernel
  obtain ⟨-, -, -, hresults, hlookup⟩ := store_only_grows definedOutside definedInside hallowed
  refine ⟨hallowed, hold, hnew, (hresults 0 "x").resolve_left ?_, ?_⟩
  · intro hnone
    have hlength : (Attempt.results 0 "x" (attempts (definedOutside ++ definedInside) empty)).length
        = 3 := by decide +kernel
    rw [hnone] at hlength
    cases hlength
  · obtain ⟨nearer, g, farther, -, -, hsame | ⟨k, -, u, hu, hk, hmem⟩⟩ := hlookup 1 "x" _ hold
    · rw [hnew] at hsame
      cases hsame.1
    · have hfound : ((empty.after definedOutside).after definedInside).world.find? 1 "x" = some 1 :=
        by decide +kernel
      rw [hnew] at hu
      rw [hfound] at hk
      cases hu
      cases hk
      exact hmem

end Session

end Interleave

import Interleave.Proofs.Company
import Interleave.Proofs.Confinement
import Interleave.Proofs.Intact
import Interleave.Session.Program

/-!
# Programs in frames of their own

Programs that run side by side, each in a frame of its own inside a frame that all of them share, do
not get in each other's way, whatever names they define and use. They may call the same closures of
the shared frames, and define the same names (`private_programs_run_as_alone`).

The reason is in two parts. No program writes to the frames it shares: what it defines is in its own
frame and in the frames that its calls make (`Steps.writesIn`). And no frame or record that one
program makes becomes known to another. So the threads make good company, with all names in every
vocabulary.

## Threads that come later

Unlike programs for the global frame, these may be made at any time, also when others have taken
steps already. A new thread is at the beginning of its lone run, whose world is the world that all
programs started from. What was made since then has no counterpart in that world, and the shared
frames are as they were, so the thread is where it should be (`InPrivate.tracks_spawned`). The
programs that were there before know no frame that is new.
-/

namespace Interleave

open Machine

/-! ## Threads with frames of their own -/

namespace Session

/-- Makes a thread that evaluates a program in a new frame inside another one. The new frame has the
given bindings. -/
def spawnInside (outer : FrameId) (s : Session) (job : List Expr × Bindings) : Session :=
  let (frame, world) := s.world.newFrame (some outer) job.2
  { s with world }.spawn job.1 frame

/-- The thread that is made of a program text is of this kind. -/
theorem spawnChild_of_parse {source : String} {program : List Expr}
    (h : parse source = .ok program) (bindings : Bindings) (s : Session) :
    s.spawnChild source bindings =
      (.ok s.threads.size, s.spawnInside World.globalFrame (program, bindings)) := by
  rw [spawnChild, h]
  rfl

/-- What operations on a world lead to, one after the other: programs become threads, each in a new
frame inside the same one, and there are passes, runs and cancellations. Listed are the programs
with their bindings, the turns taken, how the last operation came out, and the session then. A pass
or run that gives out is seen in the middle of its work; nothing follows it, and nothing follows one
that failed. -/
inductive Operations (sup : Supervision) (w : World) (outer : FrameId) :
    List (List Expr × Bindings) → List Turn → Outcome Nat → Session → Prop where
  | start : Operations sup w outer [] [] (.done 0) { world := w }
  | spawn {jobs : List (List Expr × Bindings)} {turns : List Turn} {n : Nat} {s : Session}
    (h : Operations sup w outer jobs turns (.done n) s) (job : List Expr × Bindings) :
    Operations sup w outer (jobs ++ [job]) turns (.done 0) (s.spawnInside outer job)
  | cancel {jobs : List (List Expr × Bindings)} {turns : List Turn} {n : Nat} {s : Session}
    (h : Operations sup w outer jobs turns (.done n) s) (id : Nat) :
    Operations sup w outer jobs turns (.done 0) (s.cancel id)
  | pass {jobs : List (List Expr × Bindings)} {turns : List Turn} {n : Nat} {s : Session}
    (h : Operations sup w outer jobs turns (.done n) s) (fuel : Nat) (budget : Option Int) :
    Operations sup w outer jobs (turns ++ s.passTurns sup budget fuel {})
      (s.pass sup fuel budget).1 (s.pass sup fuel budget).2
  | run {jobs : List (List Expr × Bindings)} {turns : List Turn} {n : Nat} {s : Session}
    (h : Operations sup w outer jobs turns (.done n) s) (fuel : Nat) (budget : Option Int) :
    Operations sup w outer jobs (turns ++ s.runTurns sup fuel budget)
      (s.run sup fuel budget).1 (s.run sup fuel budget).2

end Session

/-! ## Programs on their own -/

/-- The program alone, in a new frame inside a frame of the world. Nothing is asked of its code. -/
def Solo.inside (w : World) (outer : FrameId) (job : List Expr × Bindings) : Solo where
  start := .ofProgram job.1 w.frames.size (w.newFrame (some outer) job.2).2
  names _ := True
  code _ := True

def Solo.insideAll (w : World) (outer : FrameId) (jobs : List (List Expr × Bindings)) (i : Nat) :
    Solo :=
  .inside w outer (jobs[i]?.getD ([], []))

theorem Solo.insideAll_eq {w : World} {outer : FrameId} {jobs : List (List Expr × Bindings)}
    {i : Nat} {job : List Expr × Bindings} (h : jobs[i]? = some job) :
    Solo.insideAll w outer jobs i = .inside w outer job := by
  rw [insideAll, h, Option.getD_some]

theorem Value.codeIn_true (v : Value) : v.CodeIn fun _ ↦ True := by
  cases v with
  | closure => exact fun _ _ ↦ trivial
  | int | bool | str | undefined | primitive => trivial

theorem Solo.inside_codeIn (w : World) (outer : FrameId) (job : List Expr × Bindings) :
    (Solo.inside w outer job).start.CodeIn (Solo.inside w outer job).code :=
  codeIn_ofProgram (fun _ _ ↦ trivial)
    ⟨fun _ b _ ↦ b.2.codeIn_true, fun _ v _ ↦ v.codeIn_true⟩ _

/-- On its own, the program defines names in its own frame and in newer ones. -/
theorem Solo.inside_defines {w : World} {outer : FrameId} {job : List Expr × Bindings} {n : Nat}
    {c : Config} {y : String} {f : FrameId} {q : Queue}
    (h : Steps n (Solo.inside w outer job).start c) (hq : c.queue = .define y f :: q) :
    w.frames.size ≤ f := by
  have hsize : w.frames.size ≤ (Solo.inside w outer job).start.world.frames.size := by
    change w.frames.size ≤ (w.frames.push _).size
    rw [Array.size_push]
    exact Nat.le_succ _
  have hwrites := h.writesIn (fun f hf ↦ Nat.le_trans hsize hf)
    (writesIn_ofProgram (Nat.le_refl w.frames.size) job.1)
  exact hwrites (.define y f) (hq ▸ List.mem_cons_self) f rfl

/-- Programs in frames of their own make good company. They share the frames of the world. -/
theorem company_insideAll (w : World) (outer : FrameId) (jobs : List (List Expr × Bindings)) :
    Company (Solo.insideAll w outer jobs) w.frames.size where
  start _ := Solo.inside_codeIn w outer _
  hereditary _ := fun _ _ _ ↦ trivial
  names _ _ _ := trivial
  apart _ hsteps hq hlt := absurd (Solo.inside_defines hsteps hq) (Nat.not_le.mpr hlt)

/-! ## Shared frames -/

/-- The world has all that the other has, and the frames of the other are as they were. -/
structure World.Extends (w x : World) : Prop where
  frame : ∀ {f : FrameId}, f < w.frames.size → x.frames[f]? = w.frames[f]?
  size : w.frames.size ≤ x.frames.size
  closures : w.closures ≤ x.closures

theorem World.Extends.newFrame {w x : World} (h : w.Extends x) (outer : Option FrameId)
    (bs : Bindings) : w.Extends (x.newFrame outer bs).2 where
  frame {f} hf := by
    have hne : f ≠ x.frames.size := Nat.ne_of_lt (Nat.lt_of_lt_of_le hf h.size)
    rw [World.newFrame, Array.getElem?_push, if_neg hne]
    exact h.frame hf
  size := by
    rw [World.newFrame, Array.size_push]
    exact Nat.le_succ_of_le h.size
  closures := h.closures

/-- Threads that write to new frames only leave the frames of a world as they are. -/
theorem extends_isInvariant (w : World) :
    IsInvariant w.Extends fun _ _ q ↦ ∀ st ∈ q, st.WritesIn (w.frames.size ≤ ·) where
  worldNoted h := ⟨h.frame, h.size, h.closures⟩
  threadNoted hq := hq
  emptied _ := List.forall_mem_nil _
  world {st v q r x x'} h hq hstep := by
    have hconfined := step_confined (hq st List.mem_cons_self) hstep
    refine ⟨fun {f} hf ↦ ?_, ?_, Nat.le_trans h.closures (step_effect hstep).closures_le⟩
    · have hx := h.frame hf
      rw [Array.getElem?_eq_getElem hf] at hx ⊢
      exact hconfined.same hx (Nat.not_le.mpr hf)
    · rw [hconfined.size]
      exact Nat.le_add_right_of_le h.size
  own h hq hstep := by
    obtain ⟨hst, hrest⟩ := List.forall_mem_cons.mp hq
    exact step_writesIn h.size hst hrest hstep
  others _ _ _ hp := hp

/-! ## A new thread -/

/-- When a program becomes a thread all that there was stands for itself, and the frame of the lone
program for the frame that the program has among the others. -/
def Renaming.inside (w : World) (own : FrameId) : Renaming where
  frame f f' := f' = f ∧ f < w.frames.size ∨ f = w.frames.size ∧ f' = own
  call _ _ := False
  serial n n' := n' = n ∧ n < w.closures

section Spawning

variable {w x : World} {own outer : FrameId} {bs : Bindings}

theorem Renaming.inside_isOneToOne (hown : w.frames.size ≤ own) :
    (Renaming.inside w own).IsOneToOne where
  frame a a' b b' ha hb := by
    change a' = a ∧ a < w.frames.size ∨ a = w.frames.size ∧ a' = own at ha
    change b' = b ∧ b < w.frames.size ∨ b = w.frames.size ∧ b' = own at hb
    omega
  call _ _ _ _ h := h.elim
  serial a a' b b' ha hb := by rw [ha.1, hb.1]

theorem Value.Intact.renamed {v : Value} (h : v.Intact w) : v.Renamed (.inside w own) v := by
  cases v with
  | int n => exact .int n
  | bool b => exact .bool b
  | str t => exact .str t
  | undefined => exact .undefined
  | primitive p => exact .primitive p
  | closure c => exact .closure c.params c.body ⟨rfl, h.1⟩ (.inl ⟨rfl, h.2⟩)

theorem Frame.value?_renamed {F : Frame} (h : ∀ b ∈ F.bindings, b.2.Intact w) (y : String) :
    Option.Rel (Value.Renamed (.inside w own)) (F.value? y) (F.value? y) := by
  cases hv : F.value? y with
  | none => exact .none
  | some v => exact .some (h _ (Frame.mem_of_value? hv)).renamed

/-- The world of the lone program is the world that the program shares, up to the renaming. -/
theorem World.Intact.renamed_inside (hw : w.Intact) (houter : outer < w.frames.size)
    (hbs : ∀ b ∈ bs, b.2.Intact w) (hx : w.Extends x) (hsize : w.frames.size ≤ own)
    (hown : x.frames[own]? = some ⟨some outer, bs⟩) (names : String → Prop) :
    World.Renamed (.inside w own) names (w.newFrame (some outer) bs).2 x where
  frame {f f'} hf := by
    rcases hf with ⟨rfl, hlt⟩ | ⟨rfl, rfl⟩
    · have hF := Array.getElem?_eq_getElem hlt
      refine ⟨w.frames[f'], w.frames[f'], ?_, (hx.frame hlt).trans hF, ?_,
        fun y _ ↦ Frame.value?_renamed (hw.frame hF) y⟩
      · rw [World.newFrame, Array.getElem?_push, if_neg (Nat.ne_of_lt hlt), hF]
      · cases hout : w.frames[f'].outer with
        | none => exact .inl ⟨rfl, rfl⟩
        | some g =>
          have hg : g < f' := hw.outer hF hout
          exact .inr ⟨g, g, rfl, rfl, hg, hg, .inl ⟨rfl, Nat.lt_trans hg hlt⟩⟩
    · refine ⟨⟨some outer, bs⟩, ⟨some outer, bs⟩, Array.getElem?_push_size, hown, ?_,
        fun y _ ↦ Frame.value?_renamed hbs y⟩
      exact .inr ⟨outer, outer, rfl, rfl, houter, Nat.lt_of_lt_of_le houter hsize,
        .inl ⟨rfl, houter⟩⟩
  call hc := hc.elim
  serial hn := by
    obtain ⟨rfl, hlt⟩ := hn
    exact ⟨hlt, Nat.lt_of_lt_of_le hlt hx.closures⟩

theorem World.Renamed.newFrame_right {ρ : Renaming} {names : String → Prop}
    (h : World.Renamed ρ names w x) (outer : Option FrameId) (bs : Bindings) :
    World.Renamed ρ names w (x.newFrame outer bs).2 := by
  have heffect : Effect (.literal .undefined) .undefined x (x.newFrame outer bs).2 :=
    effect_newFrame outer bs
  exact h.of_effect heffect (fun _ hst ↦ by cases hst) (fun _ hst ↦ by cases hst)

end Spawning

/-! ## Programs side by side -/

section Turns

variable {sup : Supervision} {budget : Option Int} {p : Progress} {s : Session} {id : Nat}
  {turns : List Turn}

theorem Turn.textsBy_eq_nil (h : ∀ turn ∈ turns, turn.thread < id) : textsBy id turns = [] := by
  have hfilter : turns.filter (·.thread = id) = [] := by
    rw [List.filter_eq_nil_iff]
    intro turn hturn hid
    exact Nat.ne_of_lt (h turn hturn) (of_decide_eq_true hid)
  rw [textsBy, hfilter, List.flatMap_nil]

theorem Turn.countBy_eq_zero (h : ∀ turn ∈ turns, turn.thread < id) : countBy id turns = 0 := by
  rw [countBy, List.countP_eq_zero]
  intro turn hturn hid
  exact Nat.ne_of_lt (h turn hturn) (of_decide_eq_true hid)

theorem Session.thread_of_mem_visitTurns {turn : Turn} (hid : s.active[p.visited]? = some id)
    (h : turn ∈ s.visitTurns sup budget p) : turn.thread = id := by
  rw [visitTurns, hid] at h
  split at h
  · split at h
    · rw [List.mem_singleton.mp h]
      rfl
    · cases h
  · cases h
  · cases h

theorem Session.turns_preservedByVisits (hsup : sup.SpawnsNothing) :
    PreservedByVisits sup fun turns _ s ↦ ∀ turn ∈ turns, turn.thread < s.threads.size := by
  refine ⟨?_, ?_⟩
  · intro budget turns p p' s s' h hvisit turn hturn
    have hsize : s'.threads.size = s.threads.size := by
      cases visited_of_visit hvisit with
      | idle => exact (Quiet.retire s _).size
      | kept => exact Array.size_setIfInBounds
      | ended => exact (Quiet.retire _ _).size.trans Array.size_setIfInBounds
      | failed _ _ _ _ htell => exact (Quiet.failed hsup htell).size.trans Array.size_setIfInBounds
    rw [hsize]
    rcases List.mem_append.mp hturn with hturn | hturn
    · exact h turn hturn
    cases visited_of_visit hvisit with
    | idle =>
      rw [visitTurns_of_skip hvisit] at hturn
      cases hturn
    | kept hid _ ready _ _ | ended hid _ ready _ | failed hid _ ready _ _ =>
      rw [thread_of_mem_visitTurns hid hturn]
      exact (Array.getElem?_eq_some_iff.mp ready.thread).1
  · intro budget turns p n s s' h hvisit
    cases visited_of_visit hvisit with
    | allVisited => exact h
    | cut => exact h

end Turns

/-- The session that operations lead to, as the programs see it: each of them is where its lone run
is, and the frames that they share are as they were. -/
structure InPrivate (w : World) (outer : FrameId) (jobs : List (List Expr × Bindings))
    (turns : List Turn) (s : Session) : Prop where
  company : ∃ ρ, InCompany (Solo.insideAll w outer jobs) w.frames.size ρ turns s
  size : s.threads.size = jobs.length
  shares : s.Holds w.Extends fun _ _ q ↦ ∀ st ∈ q, st.WritesIn (w.frames.size ≤ ·)
  turns : ∀ turn ∈ turns, turn.thread < s.threads.size

section Private

variable {sup : Supervision} {w : World} {outer : FrameId} {jobs : List (List Expr × Bindings)}
  {job : List Expr × Bindings} {turns : List Turn} {s s' : Session} {o : Outcome Nat}

theorem InPrivate.quiet (h : InPrivate w outer jobs turns s) (hs : s.Quiet s') :
    InPrivate w outer jobs turns s' where
  company := h.company.imp fun _ hρ ↦ hρ.quiet hs
  size := hs.size.trans h.size
  shares := h.shares.quiet (extends_isInvariant w) hs
  turns := by rw [hs.size]; exact h.turns

theorem inPrivate_preservedByVisits (hsup : sup.SpawnsNothing) :
    Session.PreservedByVisits sup fun turns _ s ↦ InPrivate w outer jobs turns s := by
  have hcompany := inCompany_preservedByVisits (company_insideAll w outer jobs) hsup jobs.length
  have hshares := (extends_isInvariant w).preservedByVisits hsup
  have hturns := Session.turns_preservedByVisits hsup
  refine ⟨?_, ?_⟩
  · intro budget turns p p' s s' h hvisit
    obtain ⟨hρ, hsize⟩ := hcompany.next ⟨h.company, h.size⟩ hvisit
    exact ⟨hρ, hsize, @hshares.next budget turns p p' s s' h.shares hvisit,
      hturns.next h.turns hvisit⟩
  · intro budget turns p n s s' h hvisit
    obtain ⟨hρ, hsize⟩ := hcompany.finished ⟨h.company, h.size⟩ hvisit
    exact ⟨hρ, hsize, @hshares.finished budget turns p n s s' h.shares hvisit,
      hturns.finished h.turns hvisit⟩

/-! ### A program becomes a thread -/

theorem Session.getElem?_threads_spawnInside (i : Nat) :
    (s.spawnInside outer job).threads[i]? =
      if i = s.threads.size then
        some { id := i, queue := Queue.ofProgram job.1 s.world.frames.size : Thread }
      else s.threads[i]? := by
  change (s.threads.push _)[i]? = _
  rw [Array.getElem?_push]
  by_cases hi : i = s.threads.size
  · rw [if_pos hi, if_pos hi, hi]
  · rw [if_neg hi, if_neg hi]

theorem InPrivate.tracks_spawned (hw : w.Intact) (houter : outer < w.frames.size)
    (hjob : ∀ b ∈ job.2, b.2.Intact w) (h : InPrivate w outer jobs turns s) :
    Tracks (.inside w outer job) (.inside w s.world.frames.size) (Solo.inside w outer job).start
      { id := s.threads.size, queue := Queue.ofProgram job.1 s.world.frames.size }
      (s.spawnInside outer job).world := by
  have hext := h.shares.world
  have hrenamed := hw.renamed_inside houter hjob (hext.newFrame (some outer) job.2) hext.size
    Array.getElem?_push_size fun _ ↦ True
  have hown : (Renaming.inside w s.world.frames.size).frame w.frames.size s.world.frames.size :=
    .inr ⟨rfl, rfl⟩
  exact ⟨.refl _, Renaming.inside_isOneToOne hext.size, hrenamed.journal ⟨_, rfl⟩, .undefined,
    fun _ ↦ ofProgram_renamed hown job.1, fun e he ↦ by cases he⟩

/-- The other threads know no frame that is new, so they meet the new thread in shared ones. -/
theorem InPrivate.frames_spawned {ρ : Nat → Renaming}
    (hρ : InCompany (Solo.insideAll w outer jobs) w.frames.size ρ turns s) :
    Apart (s.threads.size + 1) (· < w.frames.size) fun i ↦
      (Function.update ρ s.threads.size (.inside w s.world.frames.size) i).frame := by
  have hlt : ∀ {i : Nat}, i < s.threads.size + 1 → i ≠ s.threads.size → i < s.threads.size :=
    fun hi hne ↦ Nat.lt_of_le_of_ne (Nat.le_of_lt_succ hi) hne
  have hold : ∀ {i f f' : Nat}, i < s.threads.size → (ρ i).frame f f' →
      f' < s.world.frames.size := by
    intro i f f' hi hf
    obtain ⟨c, hc, -⟩ := hρ.tracks (Array.getElem?_eq_getElem hi)
    exact (hc.world.frame_lt hf).2
  intro i j a a' b hij hi hj ha hb
  by_cases hin : i = s.threads.size
  · subst hin
    rw [Function.update_self] at ha
    rw [Function.update_of_ne (Ne.symm hij)] at hb
    rcases ha with ⟨-, ha⟩ | ⟨-, rfl⟩
    · exact ha
    · exact absurd (hold (hlt hj (Ne.symm hij)) hb) (Nat.lt_irrefl _)
  rw [Function.update_of_ne hin] at ha
  by_cases hjn : j = s.threads.size
  · subst hjn
    rw [Function.update_self] at hb
    rcases hb with ⟨rfl, hb⟩ | ⟨-, rfl⟩
    · -- a shared frame stands for itself, and so for nothing else
      obtain ⟨c, hc, -⟩ := hρ.tracks (Array.getElem?_eq_getElem (hlt hi hin))
      have hab := (hc.oneToOne.frame ha (hρ.shared (hlt hi hin) hb)).mpr rfl
      exact hab ▸ hb
    · exact absurd (hold (hlt hi hin) ha) (Nat.lt_irrefl _)
  · rw [Function.update_of_ne hjn] at hb
    exact hρ.frames hij (hlt hi hin) (hlt hj hjn) ha hb

theorem InPrivate.inCompany_spawned (hw : w.Intact) (houter : outer < w.frames.size)
    (hjob : ∀ b ∈ job.2, b.2.Intact w) (h : InPrivate w outer jobs turns s) {ρ : Nat → Renaming}
    (hρ : InCompany (Solo.insideAll w outer jobs) w.frames.size ρ turns s) :
    InCompany (Solo.insideAll w outer (jobs ++ [job])) w.frames.size
      (Function.update ρ s.threads.size (.inside w s.world.frames.size)) turns
      (s.spawnInside outer job) := by
  have hsize : (s.spawnInside outer job).threads.size = s.threads.size + 1 := Array.size_push _
  have hlt : ∀ {i : Nat}, i < s.threads.size + 1 → i ≠ s.threads.size → i < s.threads.size :=
    fun hi hne ↦ Nat.lt_of_le_of_ne (Nat.le_of_lt_succ hi) hne
  refine ⟨fun {i t} ht ↦ ?_, ?_, ?_, fun {i f} hi hf ↦ ?_⟩
  · rw [Session.getElem?_threads_spawnInside] at ht
    by_cases hi : i = s.threads.size
    · rw [if_pos hi] at ht
      cases ht
      have hnew : (jobs ++ [job])[i]? = some job := by
        rw [hi, h.size]
        exact List.getElem?_concat_length
      rw [Solo.insideAll_eq hnew, hi, Function.update_self, Turn.textsBy_eq_nil h.turns,
        Turn.countBy_eq_zero h.turns]
      exact ⟨_, h.tracks_spawned hw houter hjob, (List.append_nil _).symm, rfl⟩
    · rw [if_neg hi] at ht
      obtain ⟨c, hc, hprinted, hcount⟩ := hρ.tracks ht
      have hjobs : i < jobs.length := h.size ▸ (Array.getElem?_eq_some_iff.mp ht).1
      have hsolo : Solo.insideAll w outer (jobs ++ [job]) i = Solo.insideAll w outer jobs i := by
        rw [Solo.insideAll, Solo.insideAll, List.getElem?_append_left hjobs]
      rw [hsolo, Function.update_of_ne hi]
      -- for the others the new thread has made a frame, and made a note
      have hworld : World.Renamed (ρ i) (Solo.insideAll w outer jobs i).names c.world
          (s.spawnInside outer job).world :=
        (hc.world.newFrame_right (some outer) job.2).journal ⟨_, rfl⟩
      exact ⟨c, { hc with world := hworld }, hprinted, hcount⟩
  · rw [hsize]
    exact InPrivate.frames_spawned hρ
  · rw [hsize]
    intro i j a a' b hij hi hj ha hb
    by_cases hin : i = s.threads.size
    · rw [hin, Function.update_self] at ha
      exact ha
    · by_cases hjn : j = s.threads.size
      · rw [hjn, Function.update_self] at hb
        exact hb
      · rw [Function.update_of_ne hin] at ha
        rw [Function.update_of_ne hjn] at hb
        exact hρ.calls hij (hlt hi hin) (hlt hj hjn) ha hb
  · rw [hsize] at hi
    by_cases hin : i = s.threads.size
    · rw [hin, Function.update_self]
      exact .inl ⟨rfl, hf⟩
    · rw [Function.update_of_ne hin]
      exact hρ.shared (hlt hi hin) hf

theorem InPrivate.spawn (hw : w.Intact) (houter : outer < w.frames.size)
    (hjob : ∀ b ∈ job.2, b.2.Intact w) (h : InPrivate w outer jobs turns s) :
    InPrivate w outer (jobs ++ [job]) turns (s.spawnInside outer job) := by
  obtain ⟨ρ, hρ⟩ := h.company
  have hsize : (s.spawnInside outer job).threads.size = s.threads.size + 1 := Array.size_push _
  refine ⟨⟨_, h.inCompany_spawned hw houter hjob hρ⟩, ?_, ⟨?_, fun {i t} ht ↦ ?_⟩, ?_⟩
  · rw [hsize, h.size, List.length_append, List.length_singleton]
  · exact (extends_isInvariant w).worldNoted (h.shares.world.newFrame (some outer) job.2)
  · rw [Session.getElem?_threads_spawnInside] at ht
    by_cases hi : i = s.threads.size
    · rw [if_pos hi] at ht
      cases ht
      exact writesIn_ofProgram h.shares.world.size job.1
    · rw [if_neg hi] at ht
      exact h.shares.thread ht
  · rw [hsize]
    exact fun turn hturn ↦ Nat.lt_succ_of_lt (h.turns turn hturn)

/-! ### All operations -/

theorem inPrivate_start (w : World) (outer : FrameId) :
    InPrivate w outer [] [] { world := w } where
  company := by
    refine ⟨fun _ ↦ .inside w w.frames.size, fun ht ↦ ?_, fun _ _ _ _ _ _ hi ↦ ?_,
      fun _ _ _ _ _ _ hi ↦ ?_, fun hi ↦ ?_⟩
    · cases ht
    · exact absurd hi (Nat.not_lt_zero _)
    · exact absurd hi (Nat.not_lt_zero _)
    · exact absurd hi (Nat.not_lt_zero _)
  size := rfl
  shares := ⟨⟨fun _ ↦ rfl, Nat.le_refl _, Nat.le_refl _⟩, fun ht ↦ by cases ht⟩
  turns := List.forall_mem_nil _

/-- **Operations keep programs private**, as long as no fault escapes. -/
theorem Session.Operations.inPrivate (hsup : sup.SpawnsNothing) (hw : w.Intact)
    (houter : outer < w.frames.size) (h : Session.Operations sup w outer jobs turns o s)
    (hjobs : ∀ job ∈ jobs, ∀ b ∈ job.2, b.2.Intact w) (ho : ∀ f, o ≠ .failed f) :
    InPrivate w outer jobs turns s := by
  have hvisits := fun jobs ↦ @inPrivate_preservedByVisits sup w outer jobs hsup
  induction h with
  | start => exact inPrivate_start w outer
  | @spawn jobs turns n s _ job ih =>
    have hprivate := ih (fun job' hmem ↦ hjobs job' (List.mem_append_left _ hmem)) (by simp)
    exact hprivate.spawn hw houter (hjobs job (List.mem_append_right _ List.mem_cons_self))
  | cancel _ id ih => exact (ih hjobs (by simp)).quiet (.cancel _ id)
  | pass _ fuel budget ih =>
    obtain ⟨-, hprivate, -⟩ :=
      Session.passFrom_preserves (hvisits _) _ (ih hjobs (by simp)) rfl ho
    exact hprivate
  | run _ fuel budget ih =>
    obtain ⟨-, hprivate, -⟩ :=
      Session.runFrom_preserves (hvisits _) _ (ih hjobs (by simp)) rfl ho
    exact hprivate

/-- **Programs in frames of their own run as if alone.** Take an intact world and a frame of it, and
let programs become threads, each in a new frame inside this one. The new frames may have bindings;
closures among the values were made before, in frames of the world. The programs may define and use
the same names, and call the same closures.

Whatever passes, runs and cancellations are made, the frames of the world stay as they are. A thread
is where its program is after as many steps, alone in a new frame of the same world. Its current
value and its queue are those of the lone run up to renaming, and so is what they refer to. If it
failed, be it by a second definition of a name, the lone run fails at this point with the same
error. Its own steps printed what the lone run has printed. -/
theorem private_programs_run_as_alone (hsup : sup.SpawnsNothing) (hw : w.Intact)
    (houter : outer < w.frames.size) (hjobs : ∀ job ∈ jobs, ∀ b ∈ job.2, b.2.Intact w)
    (hops : Session.Operations sup w outer jobs turns o s) (ho : ∀ f, o ≠ .failed f) :
    (∀ f, f < w.frames.size → s.world.frames[f]? = w.frames[f]?) ∧
      ∀ i job, jobs[i]? = some job → ∃ t, s.threads[i]? = some t ∧
        ∃ ρ c, Tracks (.inside w outer job) ρ c t s.world ∧
          c.world.printed.toList = w.printed.toList ++ Turn.textsBy i turns ∧
          Turn.countBy i turns = t.taken := by
  have hprivate := hops.inPrivate hsup hw houter hjobs ho
  obtain ⟨ρ, hρ⟩ := hprivate.company
  refine ⟨fun f hf ↦ hprivate.shares.world.frame hf, fun i job hjob ↦ ?_⟩
  have hi : i < s.threads.size := by
    rw [hprivate.size]
    exact (List.getElem?_eq_some_iff.mp hjob).1
  obtain ⟨c, htracks, hprinted, hcount⟩ := hρ.tracks (Array.getElem?_eq_getElem hi)
  rw [Solo.insideAll_eq hjob] at htracks hprinted
  exact ⟨_, Array.getElem?_eq_getElem hi, ρ i, c, htracks, hprinted, hcount⟩

end Private

/-- Two programs that call one closure, by its name and as a value that was handed over, and define
the same name. The second one defines it twice. -/
def borrowers : List (List Expr × Bindings) :=
  let call (f : String) (n : Int) : Expr := .compound [.reference f, .number n]
  let definition (e : Expr) : Expr := .compound [.reference "define", .reference "z", e]
  let shown : Expr := .compound [.reference "print", .reference "z"]
  let lent : Closure := ⟨0, ["x"], [.compound [.reference "define", .reference "y",
    .reference "x"], .reference "y"], World.globalFrame⟩
  [([definition (call "f" 5), shown], []),
    ([definition (call "k" 6), shown, definition (.number 7)], [("k", .closure lent)])]

def firstBorrower : Session :=
  Session.spawnInside World.globalFrame { world := lentClosure } (borrowers.headD ([], []))

/-- Both of them as threads, the second one after seven steps of the first. -/
def bothBorrowers : Session :=
  (firstBorrower.run {} 20 (some 7)).2.spawnInside World.globalFrame
    (borrowers.getLastD ([], []))

theorem private_programs_run_as_alone_borrowers :
    ∃ t ρ c, (bothBorrowers.run {} 40 none).2.threads[1]? = some t ∧
      t.error = some (.alreadyDefined "z") ∧
      Tracks (.inside lentClosure World.globalFrame (borrowers.getLastD ([], []))) ρ c t
        (bothBorrowers.run {} 40 none).2.world ∧
      c.world.printed.toList = ["6\n"] := by
  have hsup : Supervision.SpawnsNothing {} := by
    intro h hh
    cases hh
  have hw : lentClosure.Intact :=
    (intact_evaluate _ _ _ (by decide) World.intact_fresh).newFrame (by decide +kernel)
      (List.forall_mem_nil _)
  have hjobs : ∀ job ∈ borrowers, ∀ b ∈ job.2, b.2.Intact lentClosure := by
    have hlent : 0 < lentClosure.closures ∧ World.globalFrame < lentClosure.frames.size := by
      decide +kernel
    simpa [borrowers, Value.Intact] using hlent
  have hstart : Session.Operations {} lentClosure World.globalFrame [] [] (.done 0)
      { world := lentClosure } := .start
  have hfirst : Session.Operations {} lentClosure World.globalFrame [borrowers.headD ([], [])] []
      (.done 0) firstBorrower := hstart.spawn _
  have hdone : (firstBorrower.run {} 20 (some 7)).1 = .done 7 := by decide +kernel
  have hrun := hfirst.run 20 (some 7)
  rw [hdone] at hrun
  have hboth : Session.Operations {} lentClosure World.globalFrame borrowers
      ([] ++ firstBorrower.runTurns {} 20 (some 7)) (.done 0) bothBorrowers := hrun.spawn _
  have hend : (bothBorrowers.run {} 40 none).1 = .done 45 := by decide +kernel
  have hops := hboth.run 40 none
  rw [hend] at hops
  obtain ⟨-, hthreads⟩ := private_programs_run_as_alone hsup hw (by decide +kernel) hjobs hops
    (by simp)
  obtain ⟨t, ht, ρ, c, htracks, hprinted, -⟩ := hthreads 1 (borrowers.getLastD ([], [])) rfl
  have herror : (bothBorrowers.run {} 40 none).2.threads[1]?.bind Thread.error
      = some (.alreadyDefined "z") := by decide +kernel
  rw [ht] at herror
  have htexts : lentClosure.printed.toList ++ Turn.textsBy 1
      ([] ++ firstBorrower.runTurns {} 20 (some 7) ++ bothBorrowers.runTurns {} 40 none)
      = ["6\n"] := by decide +kernel
  exact ⟨t, ρ, c, ht, herror, htracks, hprinted.trans htexts⟩

end Interleave

import Interleave.Proofs.RenamedStep
import Interleave.Proofs.Session
import Mathlib.Logic.Function.Basic

/-!
# Threads in company

The threads of a session share one world. This module compares each of them with a run of the
machine on its own, in a world of its own, and finds conditions under which the company makes no
difference: after so many steps the thread is where the lone run is after as many, up to renaming.

## The invariant

Each thread has a renaming from its lone run to the session. Two things keep the threads apart.
Their renamings meet only in frames that were there from the beginning, which the threads share, and
never in records of calls. And in the shared frames a thread defines only names outside the
vocabularies of the others. So a step of one thread changes nothing that another can see
(`World.Renamed.of_effect`), and a thread sees its own steps as its lone run does (`step_renamed`).

The conditions are those of `Company`. They are about the lone runs only, where they can be checked
one program at a time.
-/

namespace Interleave

open Machine

/-! ## Threads and their lone runs -/

/-- A run of the machine on its own, and the vocabulary of its code. -/
structure Solo where
  /-- Where the run starts. -/
  start : Config
  /-- The names that matter to the run. -/
  names : String → Prop
  /-- What all code of the run has in common. -/
  code : Expr → Prop

/-- What has to be known about the lone runs of threads. Frames below `base` are shared. -/
structure Company (solo : Nat → Solo) (base : Nat) : Prop where
  /-- The code of a run has the property of the run. -/
  start : ∀ i, (solo i).start.CodeIn (solo i).code
  /-- The property goes over to the elements of compounds. -/
  hereditary : ∀ i, Hereditary (solo i).code
  /-- The code mentions names of the vocabulary only. -/
  names : ∀ i y, (solo i).code (.reference y) → (solo i).names y
  /-- What a run defines in a shared frame is in no other vocabulary. -/
  apart : ∀ {i j n : Nat} {c : Config} {y : String} {f : FrameId} {q : Queue}, i ≠ j →
    Steps n (solo i).start c → c.queue = .define y f :: q → f < base → ¬(solo j).names y

/-- The thread is where its lone run is after as many steps, up to the renaming. A failed thread has
lost its queue, and the next step of its lone run fails with the same error. -/
structure Tracks (a : Solo) (ρ : Renaming) (c : Config) (t : Thread) (w : World) : Prop where
  steps : Steps t.steps a.start c
  oneToOne : ρ.IsOneToOne
  world : World.Renamed ρ a.names c.world w
  current : c.current.Renamed ρ t.current
  queue : t.error = none → Queue.Renamed ρ c.queue t.queue
  failed : ∀ e, t.error = some e → t.queue = [] ∧ ∃ x, Fails c (.program e) x

/-- How many steps a thread took, a failing one included. -/
def Thread.taken (t : Thread) : Nat :=
  t.steps + if t.error.isSome then 1 else 0

/-- Among `n` relations no two have a right side in common, except in shared pairs. -/
def Apart (n : Nat) (shared : Nat → Prop) (r : Nat → Nat → Nat → Prop) : Prop :=
  ∀ ⦃i j a a' b : Nat⦄, i ≠ j → i < n → j < n → r i a b → r j a' b → shared a

/-- Relations stay apart when one of them gains pairs with new right sides. -/
theorem Apart.update (r : Renaming → Nat → Nat → Prop) {n i limit : Nat} {shared : Nat → Prop}
    {ρ : Nat → Renaming} {ρ' : Renaming} (h : Apart n shared fun j ↦ r (ρ j))
    (hlt : ∀ {j a b}, j < n → r (ρ j) a b → b < limit)
    (hnew : ∀ {a b}, r ρ' a b → r (ρ i) a b ∨ limit ≤ b) :
    Apart n shared fun j ↦ r (Function.update ρ i ρ' j) := by
  have hold : ∀ {j a b}, r (Function.update ρ i ρ' j) a b → r (ρ j) a b ∨ j = i ∧ limit ≤ b := by
    intro j a b hab
    by_cases hij : j = i
    · subst hij
      rw [Function.update_self] at hab
      exact (hnew hab).imp_right fun hle ↦ ⟨rfl, hle⟩
    · rw [Function.update_of_ne hij] at hab
      exact .inl hab
  intro j k a a' b hjk hj hk ha ha'
  rcases hold ha with ha | ⟨rfl, hle⟩
  · rcases hold ha' with ha' | ⟨-, hle⟩
    · exact h hjk hj hk ha ha'
    · exact absurd (hlt hj ha) (Nat.not_lt.mpr hle)
  · rcases hold ha' with ha' | ⟨rfl, -⟩
    · exact absurd (hlt hk ha') (Nat.not_lt.mpr hle)
    · exact absurd rfl hjk

/-- Every thread is where its lone run is, and no two get in each other's way. -/
structure InCompany (solo : Nat → Solo) (base : Nat) (ρ : Nat → Renaming) (turns : List Turn)
    (s : Session) : Prop where
  /-- Every thread tracks its lone run. -/
  tracks : ∀ {i : Nat} {t : Thread}, s.threads[i]? = some t → ∃ c,
    Tracks (solo i) (ρ i) c t s.world ∧
      c.world.printed.toList = (solo i).start.world.printed.toList ++ Turn.textsBy i turns ∧
      Turn.countBy i turns = t.taken
  /-- Threads meet in shared frames only. -/
  frames : Apart s.threads.size (· < base) fun i ↦ (ρ i).frame
  /-- Threads never meet in records of calls. -/
  calls : Apart s.threads.size (fun _ ↦ False) fun i ↦ (ρ i).call
  /-- Shared frames stand for themselves. -/
  shared : ∀ {i f : Nat}, i < s.threads.size → f < base → (ρ i).frame f f

section Tracking

variable {solo : Nat → Solo} {base : Nat} {a : Solo} {ρ : Renaming} {c : Config} {t t' : Thread}
  {w x : World} {st : Step} {q q' : Queue} {v : Value}

theorem World.Renamed.journal {names : String → Prop} {w' : World}
    (h : World.Renamed ρ names w w') (hx : ∃ journal, x = { w' with journal }) :
    World.Renamed ρ names w x := by
  obtain ⟨journal, rfl⟩ := hx
  exact h.congr rfl rfl (Nat.le_refl _) rfl rfl (Nat.le_refl _)

theorem Tracks.quiet (h : Tracks a ρ c t w) (ht : t.SameRun t')
    (hx : ∃ journal, x = { w with journal }) : Tracks a ρ c t' x where
  steps := by rw [ht.steps]; exact h.steps
  oneToOne := h.oneToOne
  world := h.world.journal hx
  current := by rw [ht.current]; exact h.current
  queue := by rw [ht.error, ht.queue]; exact h.queue
  failed := by rw [ht.error, ht.queue]; exact h.failed

theorem Thread.SameRun.taken_eq (h : t.SameRun t') : t'.taken = t.taken := by
  rw [Thread.taken, Thread.taken, h.steps, h.error]

theorem InCompany.quiet {ρ : Nat → Renaming} {turns : List Turn} {s s' : Session}
    (h : InCompany solo base ρ turns s) (hs : s.Quiet s') : InCompany solo base ρ turns s' where
  tracks ht := by
    obtain ⟨t, ht, hsame⟩ := hs.thread ht
    obtain ⟨c, htracks, hprinted, hcount⟩ := h.tracks ht
    exact ⟨c, htracks.quiet hsame hs.world, hprinted, hcount.trans hsame.taken_eq.symm⟩
  frames := by rw [hs.size]; exact h.frames
  calls := by rw [hs.size]; exact h.calls
  shared := by rw [hs.size]; exact h.shared

/-! ## A step of a thread -/

/-- A thread and its lone run come to the same step, and the step to the same. -/
theorem Tracks.exists_matched (hsolo : Company solo base) {i : Nat}
    (h : Tracks (solo i) ρ c t w) (hq : t.queue = st :: q) :
    t.error = none ∧ ∃ st₀ q₀, c.queue = st₀ :: q₀ ∧ st₀.Renamed ρ st ∧
      ∃ ρ', Matched ρ (solo i).names c.world w (step st₀ c.current q₀ c.world)
        (step st t.current q w) ρ' := by
  have herror : t.error = none := by
    cases he : t.error with
    | none => rfl
    | some e =>
      rw [(h.failed e he).1] at hq
      cases hq
  have hqueue := h.queue herror
  rw [hq] at hqueue
  obtain ⟨st₀, q₀, hst, hq₀, hc⟩ := List.forall₂_cons_right_iff.mp hqueue
  have hcode := (h.steps.codeIn (hsolo.hereditary i) (hsolo.start i)).queue st₀
    (hc ▸ List.mem_cons_self)
  exact ⟨herror, st₀, q₀, hc, hst, step_renamed (hsolo.hereditary i) (hsolo.names i) h.oneToOne
    h.world hst hcode h.current hq₀⟩

theorem Tracks.advance (hsolo : Company solo base) {i : Nat} (h : Tracks (solo i) ρ c t w)
    (hq : t.queue = st :: q) (hstep : step st t.current q w = (.ok (v, q'), x)) :
    ∃ ρ' c', ρ.Grows ρ' c.world w ∧
      Tracks (solo i) ρ' c' { t with current := v, queue := q', steps := t.steps + 1 } x ∧
      ∃ texts, c'.world.printed = c.world.printed ++ texts ∧ x.printed = w.printed ++ texts := by
  obtain ⟨herror, st₀, q₀, hc, -, ρ', hm⟩ := h.exists_matched hsolo hq
  rcases hstep₀ : step st₀ c.current q₀ c.world with ⟨r₀, x₀⟩
  rw [hstep, hstep₀] at hm
  cases hm.result with
  | @ok v₀ _ q₁ _ hv hq₁ =>
    have hsteps : Steps (t.steps + 1) (solo i).start ⟨v₀, q₁, x₀⟩ := by
      obtain ⟨current, queue, world⟩ := c
      subst hc
      exact h.steps.snoc hstep₀
    refine ⟨ρ', ⟨v₀, q₁, x₀⟩, hm.grows, ⟨hsteps, hm.oneToOne, hm.world, hv, fun _ ↦ hq₁, ?_⟩,
      hm.printed⟩
    intro e he
    rw [herror] at he
    cases he

/-- A step that fails fails in the lone run, which stays where it is. -/
theorem Tracks.fail (hsolo : Company solo base) {i : Nat} (h : Tracks (solo i) ρ c t w)
    (hq : t.queue = st :: q) {e : ProgramError}
    (hstep : step st t.current q w = (.error (.program e), x)) :
    Tracks (solo i) ρ c { t with queue := [], error := some e } x := by
  obtain ⟨-, st₀, q₀, hc, -, ρ', hm⟩ := h.exists_matched hsolo hq
  rcases hstep₀ : step st₀ c.current q₀ c.world with ⟨r₀, x₀⟩
  rw [hstep, hstep₀] at hm
  refine ⟨h.steps, h.oneToOne, h.world.journal (step_error hstep), h.current, ?_, ?_⟩
  · intro hnone
    cases hnone
  · rintro _ ⟨⟩
    generalize hr : (Except.error (Fault.program e) : Except Fault (Value × Queue)) = r at hm
    cases hm.result with
    | ok => cases hr
    | error f =>
      cases hr
      exact ⟨rfl, x₀, st₀, q₀, hc, hstep₀⟩

theorem InCompany.other {ρ : Nat → Renaming} {turns : List Turn} {s : Session}
    (hsolo : Company solo base) (h : InCompany solo base ρ turns s) {i j : Nat} (hij : i ≠ j)
    {t u : Thread} {d : Config} {st : Step} (ht : s.threads[i]? = some t)
    (hu : s.threads[j]? = some u) (hd : Tracks (solo j) (ρ j) d u s.world)
    (hq : t.queue = st :: q) (he : Effect st t.current s.world x) :
    Tracks (solo j) (ρ j) d u x := by
  have hi : i < s.threads.size := (Array.getElem?_eq_some_iff.mp ht).1
  have hj : j < s.threads.size := (Array.getElem?_eq_some_iff.mp hu).1
  obtain ⟨c, hc, -, -⟩ := h.tracks ht
  obtain ⟨-, st₀, q₀, hqueue, hst, -⟩ := hc.exists_matched hsolo hq
  -- what the step changes is named by the step itself, in numbers that its own lone run knows
  refine { hd with world := hd.world.of_effect he ?_ ?_ }
  · rintro g f' y hg rfl
    cases hst with
    | define _ hf => exact hsolo.apart hij hc.steps hqueue (h.frames hij hi hj hf hg)
  · rintro k k' hk rfl
    cases hst with
    | join hc' => exact h.calls hij hi hj hc' hk

/-! ## A turn of a thread -/

/-- Once a thread has taken its turn all of them are in company again: the thread itself, with what
it tracks now, and the others, to whom the step does not show. -/
theorem InCompany.turn {ρ : Nat → Renaming} {turns : List Turn} {s : Session}
    (hsolo : Company solo base) (h : InCompany solo base ρ turns s) {i : Nat} {t t' : Thread}
    {st : Step} (ht : s.threads[i]? = some t) (hq : t.queue = st :: q)
    (he : Effect st t.current s.world x) {w₀ : World} {ρ' : Renaming} {texts : List String}
    (hgrows : (ρ i).Grows ρ' w₀ s.world) (htracks : Tracks (solo i) ρ' c t' x)
    (hprinted : c.world.printed.toList =
      (solo i).start.world.printed.toList ++ Turn.textsBy i (turns ++ [⟨i, texts⟩]))
    (hcount : Turn.countBy i (turns ++ [⟨i, texts⟩]) = t'.taken) :
    InCompany solo base (Function.update ρ i ρ') (turns ++ [⟨i, texts⟩]) (s.replace i t' x) := by
  have hi : i < s.threads.size := (Array.getElem?_eq_some_iff.mp ht).1
  have hsize : (s.replace i t' x).threads.size = s.threads.size := Array.size_setIfInBounds
  have hworld : ∀ {j : Nat}, j < s.threads.size →
      ∃ d : Config, World.Renamed (ρ j) (solo j).names d.world s.world := by
    intro j hj
    obtain ⟨d, hd, -⟩ := h.tracks (Array.getElem?_eq_getElem hj)
    exact ⟨d, hd.world⟩
  refine ⟨fun {j u} hu ↦ ?_, ?_, ?_, fun {j f} hj hf ↦ ?_⟩
  · rw [Session.replace, Array.getElem?_setIfInBounds] at hu
    by_cases hij : i = j
    · subst hij
      rw [if_pos rfl, if_pos hi, Option.some.injEq] at hu
      subst hu
      refine ⟨c, ?_, hprinted, hcount⟩
      rw [Function.update_self]
      exact htracks
    · rw [if_neg hij] at hu
      obtain ⟨d, hd, hprinted, hcount⟩ := h.tracks hu
      refine ⟨d, ?_, ?_, ?_⟩
      · rw [Function.update_of_ne (Ne.symm hij)]
        exact h.other hsolo hij ht hu hd hq he
      · rw [hprinted, Turn.textsBy_snoc_of_ne hij]
      · rw [hcount.symm, Turn.countBy_snoc_of_ne hij]
  -- what the renaming of the thread gained is new in the session, so no other thread has it
  · rw [hsize]
    refine h.frames.update Renaming.frame (fun hj hf ↦ ?_) fun hf ↦
      (hgrows.newFrame hf).imp_right And.right
    obtain ⟨d, hd⟩ := hworld hj
    exact (hd.frame_lt hf).2
  · rw [hsize]
    refine h.calls.update Renaming.call (fun hj hk ↦ ?_) fun hk ↦
      (hgrows.newCall hk).imp_right And.right
    obtain ⟨d, hd⟩ := hworld hj
    exact (hd.call_lt hk).2
  · rw [hsize] at hj
    by_cases hij : j = i
    · subst hij
      rw [Function.update_self]
      exact hgrows.frame (h.shared hj hf)
    · rw [Function.update_of_ne hij]
      exact h.shared hj hf

theorem InCompany.advance {ρ : Nat → Renaming} {turns : List Turn} {s : Session}
    {sup : Supervision} (hsolo : Company solo base) (h : InCompany solo base ρ turns s) {i : Nat}
    (ready : s.Ready i t st q)
    (hstep : step st t.current q (sup.turnWorld i st s.world) = (.ok (v, q'), x)) :
    ∃ ρ' texts, x.printed = s.world.printed ++ texts ∧
      InCompany solo base ρ' (turns ++ [⟨i, texts.toList⟩])
        (s.replace i { t with current := v, queue := q', steps := t.steps + 1 } x) := by
  have hnoted := h.quiet (.turnWorld s sup i st)
  obtain ⟨c, htracks, hprinted, hcount⟩ := hnoted.tracks ready.thread
  obtain ⟨ρ', c', hgrows, htracks', texts, hc', hx⟩ := htracks.advance hsolo ready.queue hstep
  refine ⟨_, texts, hx.trans (by rw [sup.printed_turnWorld]), hnoted.turn hsolo ready.thread
    ready.queue (step_effect hstep) hgrows htracks' ?_ ?_⟩
  · rw [hc', Array.toList_append, hprinted, List.append_assoc, Turn.textsBy_snoc_self]
  · rw [Turn.countBy_snoc_self, hcount, Thread.taken, Thread.taken, Nat.add_right_comm]

theorem InCompany.fail {ρ : Nat → Renaming} {turns : List Turn} {s : Session}
    {sup : Supervision} (hsolo : Company solo base) (h : InCompany solo base ρ turns s) {i : Nat}
    (ready : s.Ready i t st q) {e : ProgramError}
    (hstep : step st t.current q (sup.turnWorld i st s.world) = (.error (.program e), x)) :
    x.printed = s.world.printed ∧ ∃ ρ', InCompany solo base ρ' (turns ++ [⟨i, []⟩])
      (s.replace i { t with queue := [], error := some e } x) := by
  have hnoted := h.quiet (.turnWorld s sup i st)
  obtain ⟨c, htracks, hprinted, hcount⟩ := hnoted.tracks ready.thread
  have herror := (htracks.exists_matched hsolo ready.queue).1
  have hx : x.printed = s.world.printed := by
    obtain ⟨journal, hx⟩ := step_error hstep
    rw [hx]
    exact sup.printed_turnWorld i st s.world
  refine ⟨hx, _, hnoted.turn hsolo ready.thread ready.queue (step_effect hstep)
    (.refl _ c.world _) (htracks.fail hsolo ready.queue hstep) ?_ ?_⟩
  · rw [hprinted, Turn.textsBy_snoc_self, List.append_nil]
  · simp [Turn.countBy_snoc_self, hcount, Thread.taken, herror]

end Tracking

/-! ## Visits -/

/-- **Visits keep company.** Whoever is told of failures must not make threads. -/
theorem inCompany_preservedByVisits {solo : Nat → Solo} {base : Nat} {sup : Supervision}
    (hsolo : Company solo base) (hsup : sup.SpawnsNothing) (n : Nat) :
    Session.PreservedByVisits sup fun turns _ s ↦
      (∃ ρ, InCompany solo base ρ turns s) ∧ s.threads.size = n := by
  refine ⟨?_, ?_⟩
  · rintro budget turns p p' s s' ⟨⟨ρ, h⟩, hsize⟩ hvisit
    cases Session.visited_of_visit hvisit with
    | @idle id hid hbudget hidle =>
      rw [Session.visitTurns_of_skip hvisit, List.append_nil]
      have hquiet := Session.Quiet.retire s id
      exact ⟨⟨ρ, h.quiet hquiet⟩, hquiet.size.trans hsize⟩
    | @kept id t st q q' v w hid hbudget ready hstep hq =>
      obtain ⟨ρ', texts, hprinted, h'⟩ := h.advance hsolo ready hstep
      rw [Session.visitTurns_of_executed hvisit hid rfl hprinted]
      exact ⟨⟨ρ', h'⟩, Array.size_setIfInBounds.trans hsize⟩
    | @ended id t st q v w hid hbudget ready hstep =>
      obtain ⟨ρ', texts, hprinted, h'⟩ := h.advance hsolo ready hstep
      rw [Session.visitTurns_of_executed hvisit hid rfl hprinted]
      have hquiet := Session.Quiet.retire
        (s.replace id { t with current := v, queue := [], steps := t.steps + 1 } w) id
      exact ⟨⟨ρ', h'.quiet hquiet⟩,
        hquiet.size.trans (Array.size_setIfInBounds.trans hsize)⟩
    | @failed id t st q e w _ hid hbudget ready hstep htell =>
      obtain ⟨hworld, ρ', h'⟩ := h.fail hsolo ready hstep
      have hquiet := Session.Quiet.failed hsup htell
      -- a step that fails prints nothing, and neither does telling of it
      have hprinted : s'.world.printed = s.world.printed ++ #[] := by
        obtain ⟨journal, hw⟩ := hquiet.world
        rw [hw, Array.append_empty]
        exact hworld
      rw [Session.visitTurns_of_executed hvisit hid rfl hprinted]
      exact ⟨⟨ρ', h'.quiet hquiet⟩,
        hquiet.size.trans (Array.size_setIfInBounds.trans hsize)⟩
  · rintro budget turns p k s s' ⟨⟨ρ, h⟩, hsize⟩ hvisit
    cases Session.visited_of_visit hvisit with
    | allVisited hid => exact ⟨⟨ρ, h.tracks, h.frames, h.calls, h.shared⟩, hsize⟩
    | cut hid hbudget => exact ⟨⟨ρ, h.tracks, h.frames, h.calls, h.shared⟩, hsize⟩

end Interleave

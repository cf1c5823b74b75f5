import Interleave.CommandLine.Run
import Interleave.Proofs.Grammar
import Interleave.Proofs.Noninterference
import Interleave.Proofs.Onlookers

/-!
# The status of a command line

With a budget of steps a command line always comes to an end. Its status tells how its programs run
without one: it is 0 if every source can be read, and the programs, side by side in a fresh session,
come to their end within the budget and none of them fails. Otherwise it is 1, unless there was a
breakdown. A source that cannot be read keeps all others from being run.

What a budget does to a run is told by `Session.run_some_of_le` and `Session.run_none_of_isDone`.
Here the sources are made threads (`spawnAll_cases`), and the verdict is compared with the run
without a budget (`endWell_iff`).

## Breakdowns

There is no status where the run breaks down. Breakdowns come from three sides: a source or a
setting that cannot be read, a program that calls an integer which is too long to be shown, and the
log, if it is shown the steps and breaks off at one. The last is a matter of the log and not of the
programs, so it is a case of its own (`LogBreaksOff`). With a log that takes every step the case
does not arise.

The handler of a command line tells of failures and does nothing else. So what the run without a
budget comes to does not depend on who is looking on, and `EndWell` is said of a session that nobody
watches.
-/

namespace Interleave

/-! ## Sessions of programs -/

namespace Session

theorem Arises.spawnAll {s : Session} (h : s.Arises) (jobs : List (List Expr × FrameId)) :
    (s.spawnAll jobs).Arises := by
  induction jobs generalizing s with
  | nil => exact h
  | cons job jobs ih => exact ih (h.spawn job.1 job.2)

theorem starting_ofPrograms (programs : List (List Expr)) : Starting {} (ofPrograms programs) where
  lively := .begin ((Arises.fresh World.fresh).spawnAll _).inOrder
  waiting := by
    intro id _ t ht
    rw [ofPrograms, threads_spawnAll] at ht
    simp only [fresh, Array.empty_append, List.getElem?_toArray, List.getElem?_mapIdx,
      List.getElem?_map, Option.map_eq_some_iff] at ht
    obtain ⟨_, ⟨program, -, rfl⟩, rfl⟩ := ht
    exact ⟨program, World.globalFrame, rfl⟩
  begun := fun h ↦ absurd h (Nat.lt_irrefl 0)

/-- Where nobody interferes, only a breakdown ends a run with a fault. -/
theorem exists_breakdown_of_run {sup : Supervision} (hsup : sup.IsPassive) {s s' : Session}
    {fuel : Nat} {budget : Option Int} {f : Fault} (h : s.run sup fuel budget = (.failed f, s')) :
    ∃ b, f = .breakdown b := by
  obtain ⟨_, _, _, _, -, hvisit⟩ := exists_broken_of_runFrom .start h
  cases visited_of_visit hvisit with
  | brokenDown | unlogged => exact ⟨_, rfl⟩
  | raised _ _ _ _ htell =>
    cases (tell_of_isPassive hsup htell).1

/-- Without a budget the programs, side by side in a fresh session, come to their end in at most so
many steps, and none of them fails. -/
def EndWell (limit : Int) (programs : List (List Expr)) : Prop :=
  ∃ fuel n s, (ofPrograms programs).run {} fuel none = (.done n, s) ∧ s.failed = #[] ∧ n ≤ limit

end Session

namespace CommandLine

/-! ## Sources -/

/-- The sources are read as these programs. -/
def ReadAs (sources : List Source) (programs : List (List Expr)) : Prop :=
  sources.map (fun source ↦ parse source.text) = programs.map .ok

variable {sources : List Source} {programs : List (List Expr)}

theorem ReadAs.unique {programs' : List (List Expr)} (h : ReadAs sources programs)
    (h' : ReadAs sources programs') : programs = programs' :=
  (List.map_inj_right fun _ _ ↦ Except.ok.inj).1 (h.symm.trans h')

theorem ReadAs.exists_parse (h : ReadAs sources programs) {source : Source}
    (hsource : source ∈ sources) : ∃ program, parse source.text = .ok program := by
  have hmem : parse source.text ∈ programs.map Except.ok :=
    h ▸ List.mem_map_of_mem (f := fun source : Source ↦ parse source.text) hsource
  obtain ⟨program, -, hprogram⟩ := List.mem_map.1 hmem
  exact ⟨program, hprogram.symm⟩

/-- The line or the fault that is returned for a source which cannot be read. -/
def complaint (source : Source) : Fault → Except Fault String
  | .program e => .ok (source.name ++ ": " ++ e.report ++ "\n")
  | .breakdown b => .error (.breakdown b)

theorem spawnAll_cases (sources : List Source) (s : Session) :
    (∃ programs, ReadAs sources programs ∧
        spawnAll sources s = (.ok (), s.spawnAll (programs.map (·, World.globalFrame)))) ∨
      ∃ source ∈ sources, ∃ f s', parse source.text = .error f ∧
        spawnAll sources s = (.error (complaint source f), s') ∧
        s'.world.printed = s.world.printed := by
  induction sources generalizing s with
  | nil => exact .inl ⟨[], rfl, rfl⟩
  | cons source sources ih =>
    rw [spawnAll, Session.spawnSource]
    cases hparse : parse source.text with
    | error f =>
      refine .inr ⟨source, List.mem_cons_self, f, s, hparse, ?_, rfl⟩
      cases f <;> rfl
    | ok program =>
      rcases ih (s.spawn program World.globalFrame) with
        ⟨programs, hread, hspawn⟩ | ⟨source', hmem, f, s', hf, hspawn, hprinted⟩
      · refine .inl ⟨program :: programs, ?_, hspawn⟩
        rw [ReadAs, List.map_cons, List.map_cons, hparse, hread]
      · exact .inr ⟨source', List.mem_cons_of_mem _ hmem, f, s', hf, hspawn, hprinted⟩

/-! ## The verdict -/

theorem supervision_isPassive (log : Log) (a : Arguments) (settings : Settings.Variables) :
    (supervision log a settings).IsPassive := by
  rintro h hh s id e
  cases hh
  rfl

/-- The log is shown the steps, and there is one at which it breaks off in this way. -/
def LogBreaksOff (log : Log) (a : Arguments) (settings : Settings.Variables) (b : Breakdown) :
    Prop :=
  isTraced a settings = true ∧ ∃ st, log st none = some b

theorem refuses_supervision_iff {log : Log} {a : Arguments} {settings : Settings.Variables}
    {b : Breakdown} :
    (supervision log a settings).Refuses b ↔ LogBreaksOff log a settings b := by
  simp only [Supervision.Refuses, Supervision.refusal?, supervision, LogBreaksOff]
  cases isTraced a settings <;> simp

theorem verdict_cases (budget : Option Int) (s : Session) :
    s.isDone = true ∧ s.failed = #[] ∧ (verdict budget s).1 = 0 ∨
      ¬ (s.isDone = true ∧ s.failed = #[]) ∧ (verdict budget s).1 = 1 := by
  cases hdone : s.isDone with
  | false => exact .inr ⟨by simp, by simp [verdict, hdone]⟩
  | true =>
    by_cases hfailed : s.failed = #[]
    · exact .inl ⟨rfl, hfailed, by simp [verdict, hdone, hfailed]⟩
    · exact .inr ⟨by simp [hfailed], by simp [verdict, hdone, hfailed]⟩

/-- A run with a budget leaves nobody active and nobody failed just if the programs end well. -/
theorem endWell_iff {sup : Supervision} (hsup : sup.IsPassive) {fuel m n : Nat} {s : Session}
    (hm : 0 < m) (h : (Session.ofPrograms programs).run sup fuel (some (m : Int)) = (.done n, s)) :
    Session.EndWell m programs ↔ s.isDone = true ∧ s.failed = #[] := by
  -- the run came to its end, so nothing is changed if nobody looks on
  obtain ⟨s', h', halike⟩ | ⟨b, -, hbroken⟩ :=
    Session.exists_run_of_isPassive hsup .default .default h
  · rw [Session.isDone, halike.active, ← Session.isDone, halike.failed]
    constructor
    · rintro ⟨fuel', n', s₁, hrun, hfailed, hle⟩
      have hsome := Session.run_some_of_le .default (Session.starting_ofPrograms programs) hrun
        hfailed (Int.ofNat_le.1 hle) hm
      obtain ⟨-, rfl⟩ := Session.run_unique h' hsome (by simp) (by simp)
      exact ⟨Session.isDone_of_runFrom_none hrun, hfailed⟩
    · rintro ⟨hdone, hfailed⟩
      obtain ⟨hle, fuel', hrun⟩ := Session.run_none_of_isDone h' hdone
      exact ⟨fuel', n, s', hrun, hfailed, Int.ofNat_le.2 hle⟩
  · cases hbroken

/-! ## Running a command line -/

section Run

variable {files : Files} {settings : Settings.Variables} {log : Log} {a : Arguments} {limit : Int}
  {fuel n : Nat} {s s' : Session}

theorem status_runThreads_of_done (hlimit : a.maxSteps = .steps limit)
    (h : s.run (supervision log a settings) fuel (some limit) = (.done n, s')) :
    (runThreads log a settings fuel s).status = .ok (verdict (some limit) s').1 := by
  simp only [runThreads, Arguments.budget, hlimit, h, report]

theorem status_runThreads_of_failed {f : Fault} (hlimit : a.maxSteps = .steps limit)
    (h : s.run (supervision log a settings) fuel (some limit) = (.failed f, s')) :
    (runThreads log a settings fuel s).status = .error f := by
  simp only [runThreads, Arguments.budget, hlimit, h, report]

theorem run_of_readAs (hsources : a.sources files = .ok sources) (hne : sources ≠ [])
    (h : spawnAll sources .fresh = (.ok (), s)) :
    run files settings log fuel a = .ok (runThreads log a settings fuel s) := by
  cases sources with
  | nil => exact absurd rfl hne
  | cons source sources => simp only [run, hsources, h]

theorem run_of_complaint (settings : Settings.Variables) (log : Log) (fuel : Nat)
    (hsources : a.sources files = .ok sources) (hne : sources ≠ []) {c : Except Fault String}
    (h : spawnAll sources .fresh = (.error c, s)) :
    ∃ line, run files settings log fuel a = .ok (report a.verbosity s (c.map fun _ ↦ 1) line) := by
  cases sources with
  | nil => exact absurd rfl hne
  | cons source sources =>
    cases c with
    | ok line => exact ⟨line, by simp only [run, hsources, h]; rfl⟩
    | error f => exact ⟨"", by simp only [run, hsources, h]; rfl⟩

/-- The sources are read, and without a budget their programs come to their end in at most so many
steps, and none of them fails. -/
def Succeeds (limit : Int) (sources : List Source) : Prop :=
  ∃ programs, ReadAs sources programs ∧ Session.EndWell limit programs

theorem succeeds_iff (h : ReadAs sources programs) :
    Succeeds limit sources ↔ Session.EndWell limit programs := by
  constructor
  · rintro ⟨programs', h', hend⟩
    rwa [h.unique h']
  · exact fun hend ↦ ⟨programs, h, hend⟩

/-- The breakdown comes from reading a source, or from running the programs with the budget. -/
def BreaksDown (limit : Int) (sources : List Source) (b : Breakdown) : Prop :=
  (∃ source ∈ sources, parse source.text = .error (.breakdown b)) ∨
    ∃ programs fuel s, ReadAs sources programs ∧
      (Session.ofPrograms programs).run {} fuel (some limit) = (.failed (.breakdown b), s)

theorem status_runThreads {m : Nat} (hread : ReadAs sources programs)
    (hlimit : a.maxSteps = .steps m) (hm : 0 < m)
    (hends : ((Session.ofPrograms programs).run (supervision log a settings) fuel
      (some (m : Int))).1 ≠ .outOfFuel) :
    let status := (runThreads log a settings fuel (Session.ofPrograms programs)).status
    status = .ok 0 ∧ Succeeds m sources ∨
      status = .ok 1 ∧ ¬ Succeeds m sources ∨
      ∃ b, status = .error (.breakdown b) ∧
        (BreaksDown m sources b ∨ LogBreaksOff log a settings b) := by
  have hpassive := supervision_isPassive log a settings
  rcases hrun : (Session.ofPrograms programs).run (supervision log a settings) fuel (some (m : Int))
    with ⟨n | f | _, s⟩
  · rw [status_runThreads_of_done hlimit hrun, succeeds_iff hread, endWell_iff hpassive hm hrun]
    rcases verdict_cases (some (m : Int)) s with ⟨hdone, hfailed, hzero⟩ | ⟨hnot, hone⟩
    · exact .inl ⟨congrArg _ hzero, hdone, hfailed⟩
    · exact .inr (.inl ⟨congrArg _ hone, hnot⟩)
  · obtain ⟨b, rfl⟩ := Session.exists_breakdown_of_run hpassive hrun
    refine .inr (.inr ⟨b, status_runThreads_of_failed hlimit hrun, ?_⟩)
    obtain ⟨s', hrun', -⟩ | ⟨b', hrefuses, hbroken⟩ :=
      Session.exists_run_of_isPassive hpassive .default .default hrun
    · exact .inl (.inr ⟨programs, fuel, s', hread, hrun'⟩)
    · cases hbroken
      exact .inr (refuses_supervision_iff.1 hrefuses)
  · rw [hrun] at hends
    exact absurd rfl hends

/-- A command line that has something to run and a budget comes to an end. Its status is one of
three, and if a source cannot be read then nothing is printed. -/
theorem exists_report (settings : Settings.Variables) (log : Log)
    (hsources : a.sources files = .ok sources) (hne : sources ≠ [])
    (hlimit : a.maxSteps = .steps limit) (hpos : 1 ≤ limit) :
    ∃ fuel₀, ∀ fuel, fuel₀ ≤ fuel → ∃ r, run files settings log fuel a = .ok r ∧
      (r.status = .ok 0 ∧ Succeeds limit sources ∨
        r.status = .ok 1 ∧ ¬ Succeeds limit sources ∨
        ∃ b, r.status = .error (.breakdown b) ∧
          (BreaksDown limit sources b ∨ LogBreaksOff log a settings b)) ∧
      ((∃ source ∈ sources, ∀ program, parse source.text ≠ .ok program) → r.output = "") := by
  obtain ⟨m, rfl⟩ := Int.eq_ofNat_of_zero_le (Int.le_trans (by decide) hpos)
  rcases spawnAll_cases sources .fresh with
    ⟨programs, hread, hspawn⟩ | ⟨source, hsource, f, s, hf, hspawn, hprinted⟩
  · obtain ⟨fuel₀, hfuel₀⟩ := Session.exists_fuel_run (supervision log a settings) m
      (Session.ofPrograms programs)
    refine ⟨fuel₀, fun fuel hle ↦ ⟨_, run_of_readAs hsources hne hspawn, ?_, ?_⟩⟩
    · exact status_runThreads hread hlimit (Int.ofNat_lt.1 hpos) (hfuel₀ fuel hle).1
    · rintro ⟨source, hsource, hno⟩
      obtain ⟨program, hprogram⟩ := hread.exists_parse hsource
      exact absurd hprogram (hno program)
  · refine ⟨0, fun fuel _ ↦ ?_⟩
    obtain ⟨line, hrun⟩ := run_of_complaint settings log fuel hsources hne hspawn
    refine ⟨_, hrun, .inr ?_, fun _ ↦ ?_⟩
    · cases f with
      | program e =>
        refine .inl ⟨rfl, ?_⟩
        rintro ⟨programs, hread, -⟩
        obtain ⟨program, hprogram⟩ := hread.exists_parse hsource
        cases hf.symm.trans hprogram
      | breakdown b => exact .inr ⟨b, rfl, .inl (.inl ⟨source, hsource, hf⟩)⟩
    · rw [report, hprinted]
      rfl

/-- **The status of a command line.** With a budget, a command line that has something to run comes
to an end. If there was no breakdown, then its status is 0 just if all sources can be read and their
programs, run side by side without a budget, end within it and without a failure; otherwise it is 1.
A breakdown comes of reading a source or of a step that is taken within the budget, or it is the log
that broke off. If some source cannot be read, then nothing is printed. -/
theorem status_tells_how_programs_end (settings : Settings.Variables) (log : Log)
    (hsources : a.sources files = .ok sources) (hne : sources ≠ [])
    (hlimit : a.maxSteps = .steps limit) (hpos : 1 ≤ limit) :
    ∃ fuel₀, ∀ fuel, fuel₀ ≤ fuel → ∃ r, run files settings log fuel a = .ok r ∧
      ((∀ b, r.status ≠ .error (.breakdown b)) →
        (r.status = .ok 0 ↔ Succeeds limit sources) ∧
        (r.status = .ok 1 ↔ ¬ Succeeds limit sources)) ∧
      (∀ b, r.status = .error (.breakdown b) →
        BreaksDown limit sources b ∨ LogBreaksOff log a settings b) ∧
      ((∃ source ∈ sources, ∀ program, parse source.text ≠ .ok program) → r.output = "") := by
  obtain ⟨fuel₀, hfuel₀⟩ := exists_report settings log hsources hne hlimit hpos
  refine ⟨fuel₀, fun fuel hle ↦ ?_⟩
  obtain ⟨r, hrun, hstatus, houtput⟩ := hfuel₀ fuel hle
  refine ⟨r, hrun, ?_, ?_, houtput⟩
  · intro hb
    rcases hstatus with ⟨hzero, hyes⟩ | ⟨hone, hno⟩ | ⟨b, hbreak, -⟩
    · simp [hzero, hyes]
    · simp [hone, hno]
    · exact absurd hbreak (hb b)
  · intro b hbreak
    rcases hstatus with ⟨hzero, -⟩ | ⟨hone, -⟩ | ⟨b', hbreak', hcause⟩
    · cases hzero.symm.trans hbreak
    · cases hone.symm.trans hbreak
    · cases hbreak'.symm.trans hbreak
      exact hcause

theorem not_breaksDown {b : Breakdown} (hread : ReadAs sources programs)
    (h : (Session.ofPrograms programs).run {} fuel (some limit) = (.done n, s)) :
    ¬ BreaksDown limit sources b := by
  rintro (⟨source, hsource, hbreak⟩ | ⟨programs', fuel', s', hread', hbreak⟩)
  · obtain ⟨program, hprogram⟩ := hread.exists_parse hsource
    cases hbreak.symm.trans hprogram
  · cases hread.unique hread'
    cases (Session.run_unique h hbreak (by simp) (by simp)).1

/-- An empty program between two others, with a limit. -/
def emptyBetween (limit : Int) : Arguments :=
  { code := ["(print 2)", "", "7"], maxSteps := .steps limit }

def emptyBetweenPrograms : List (List Expr) :=
  [[.compound [.reference "print", .number 2]], [], [.number 7]]

theorem readAs_emptyBetween (limit : Int) :
    ReadAs ((emptyBetween limit).code.map (⟨"<eval>", ·⟩)) emptyBetweenPrograms := by
  have hprint : parse "(print 2)" = .ok [.compound [.reference "print", .number 2]] :=
    parse_of_toOption (by decide +kernel)
  have hempty : parse "" = .ok [] := parse_of_toOption (by decide +kernel)
  have hseven : parse "7" = .ok [.number 7] := parse_of_toOption (by decide +kernel)
  simp only [ReadAs, emptyBetween, emptyBetweenPrograms, List.map_cons, List.map_nil, hprint,
    hempty, hseven]

/-- Ten steps are needed, and ten are enough. -/
theorem status_tells_how_programs_end_emptyBetween :
    ∃ fuel₀, ∀ fuel, fuel₀ ≤ fuel →
      (∃ r, run (fun _ ↦ none) (fun _ ↦ none) .strict fuel (emptyBetween 9) = .ok r ∧
        r.status = .ok 1) ∧
      ∃ r, run (fun _ ↦ none) (fun _ ↦ none) .strict fuel (emptyBetween 10) = .ok r ∧
        r.status = .ok 0 := by
  -- the run without a limit
  obtain ⟨s, hrun, hfailed⟩ : ∃ s, (Session.ofPrograms emptyBetweenPrograms).run {} 12 none
      = (.done 10, s) ∧ s.failed = #[] :=
    ⟨_, Prod.ext (by decide +kernel) rfl, by decide +kernel⟩
  have hnine : ¬ Succeeds 9 ((emptyBetween 9).code.map (⟨"<eval>", ·⟩)) := by
    rw [succeeds_iff (readAs_emptyBetween 9)]
    rintro ⟨fuel, n, s', hrun', -, hle⟩
    obtain ⟨hn, -⟩ := Session.run_unique hrun hrun' (by simp) (by simp)
    cases hn
    exact absurd hle (by decide)
  have hten : Succeeds 10 ((emptyBetween 10).code.map (⟨"<eval>", ·⟩)) :=
    ⟨_, readAs_emptyBetween 10, 12, 10, s, hrun, hfailed, by decide⟩
  obtain ⟨fuel₁, h₁⟩ := status_tells_how_programs_end (fun _ ↦ none) .strict
    (rfl : (emptyBetween 9).sources (fun _ ↦ none) = .ok _) (by decide) rfl (by decide)
  obtain ⟨fuel₂, h₂⟩ := status_tells_how_programs_end (fun _ ↦ none) .strict
    (rfl : (emptyBetween 10).sources (fun _ ↦ none) = .ok _) (by decide) rfl (by decide)
  refine ⟨max fuel₁ fuel₂, fun fuel hfuel ↦ ⟨?_, ?_⟩⟩
  · obtain ⟨r, hr, hstatus, hbreak, -⟩ := h₁ fuel (by omega)
    have hends : (Session.ofPrograms emptyBetweenPrograms).run {} 12 (some 9) = (.done 9, _) :=
      Prod.ext (by decide +kernel) rfl
    have hfine := fun b hb ↦ (hbreak b hb).elim (not_breaksDown (readAs_emptyBetween 9) hends)
      fun hlog ↦ absurd hlog.1 (by decide)
    exact ⟨r, hr, (hstatus hfine).2.2 hnine⟩
  · obtain ⟨r, hr, hstatus, hbreak, -⟩ := h₂ fuel (by omega)
    have hends : (Session.ofPrograms emptyBetweenPrograms).run {} 12 (some 10) = (.done 10, _) :=
      Prod.ext (by decide +kernel) rfl
    have hfine := fun b hb ↦ (hbreak b hb).elim (not_breaksDown (readAs_emptyBetween 10) hends)
      fun hlog ↦ absurd hlog.1 (by decide)
    exact ⟨r, hr, (hstatus hfine).1.2 hten⟩

end Run

end CommandLine

end Interleave

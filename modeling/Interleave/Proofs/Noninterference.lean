import Interleave.Proofs.Company

/-!
# Programs that do not get in each other's way

Programs that run side by side in the global frame can meet in what they define there. If no program
mentions a name that another defines, each of them runs as it would alone: the order of turns,
budgets and the number of other programs make no difference to its results, its error, its printed
texts or the number of its steps.

What is mentioned and what is defined is read off the text of a program. `Expr.references` lists the
names that occur in it as references, wherever they stand, heads of forms and parameters included.
`Expr.definitions` lists the targets of its definitions, also of those inside the bodies of
functions, which define names in frames of their own and never in the global one. So the condition
is a little stronger than needed, and can be decided.

## From texts to threads

The lone run of a program is in a fresh world, where the global frame is all there is. Its code
mentions no names but the references of the program, and what it comes to define there is among the
definitions of the text. With this the conditions of `Company` hold, and every thread tracks its
lone run through all passes and runs. Two sessions in which the same program runs are then compared
by way of the lone run, which is the same for both.
-/

namespace Interleave

open Machine

/-! ## Vocabularies -/

namespace Expr

mutual

/-- The names that occur as references. -/
def references : Expr → List String
  | .reference x => [x]
  | .compound es => referencesAll es
  | .number _ | .string _ => []

/-- The names that occur as references in some expressions. -/
def referencesAll : List Expr → List String
  | [] => []
  | e :: es => references e ++ referencesAll es

end

/-- The name that a compound defines, if it is a definition. -/
def definedName? : List Expr → Option String
  | [.reference k, .reference x, _] => if k = SpecialForm.definition.name then some x else none
  | _ => none

mutual

/-- The names that definitions are for. -/
def definitions : Expr → List String
  | .compound es => (definedName? es).toList ++ definitionsAll es
  | .number _ | .string _ | .reference _ => []

/-- The names that definitions in some expressions are for. -/
def definitionsAll : List Expr → List String
  | [] => []
  | e :: es => definitions e ++ definitionsAll es

end

theorem references_subset_referencesAll {e : Expr} {es : List Expr} (he : e ∈ es) :
    e.references ⊆ referencesAll es := by
  induction es with
  | nil => cases he
  | cons e' es ih =>
    rw [referencesAll]
    rcases List.mem_cons.mp he with rfl | he
    · exact List.subset_append_left _ _
    · exact List.subset_append_of_subset_right _ (ih he)

theorem definitions_subset_definitionsAll {e : Expr} {es : List Expr} (he : e ∈ es) :
    e.definitions ⊆ definitionsAll es := by
  induction es with
  | nil => cases he
  | cons e' es ih =>
    rw [definitionsAll]
    rcases List.mem_cons.mp he with rfl | he
    · exact List.subset_append_left _ _
    · exact List.subset_append_of_subset_right _ (ih he)

end Expr

open Interleave.Expr

/-- Neither program mentions what the other defines. -/
def Independent (program program' : List Expr) : Prop :=
  (∀ x ∈ definitionsAll program, x ∉ referencesAll program') ∧
    ∀ x ∈ definitionsAll program', x ∉ referencesAll program

instance (program program' : List Expr) : Decidable (Independent program program') :=
  inferInstanceAs (Decidable (_ ∧ _))

/-! ## Programs on their own -/

/-- The program alone in a fresh world. Its code mentions and defines what the program does. -/
def Solo.ofProgram (program : List Expr) : Solo where
  start := .ofProgram program World.globalFrame World.fresh
  names x := x ∈ referencesAll program
  code e := e.references ⊆ referencesAll program ∧ e.definitions ⊆ definitionsAll program

theorem Solo.ofProgram_hereditary (program : List Expr) :
    Hereditary (Solo.ofProgram program).code := by
  intro es hes e he
  refine ⟨fun x hx ↦ hes.1 ?_, fun x hx ↦ hes.2 ?_⟩
  · rw [references]
    exact references_subset_referencesAll he hx
  · rw [definitions]
    exact List.mem_append_right _ (definitions_subset_definitionsAll he hx)

theorem Solo.ofProgram_codeIn (program : List Expr) :
    (Solo.ofProgram program).start.CodeIn (Solo.ofProgram program).code :=
  codeIn_ofProgram (fun _ he ↦ ⟨references_subset_referencesAll he,
    definitions_subset_definitionsAll he⟩) (World.fresh_codeIn _) _

/-- What a program comes to define is the target of a definition in its text. -/
theorem Solo.mem_definitionsAll {program : List Expr} {n : Nat} {c : Config} {y : String}
    {f : FrameId} {q : Queue} (h : Steps n (Solo.ofProgram program).start c)
    (hq : c.queue = .define y f :: q) : y ∈ definitionsAll program := by
  -- the step that defines a name stands for a definition, all of whose targets are in the text
  obtain ⟨e, -, he⟩ := (h.codeIn (Solo.ofProgram_hereditary program)
    (Solo.ofProgram_codeIn program)).queue _ (hq ▸ List.mem_cons_self)
  refine he ?_
  rw [definitions, definedName?, if_pos rfl]
  exact List.mem_append_left _ (List.mem_singleton_self y)

/-- Independent programs make good company. Frame `0`, the global one, is all that they share. -/
theorem company_ofProgram {programs : List (List Expr)} (h : programs.Pairwise Independent) :
    Company (fun i ↦ Solo.ofProgram (programs[i]?.getD [])) 1 where
  start i := Solo.ofProgram_codeIn _
  hereditary i := Solo.ofProgram_hereditary _
  names i y hy := hy.1 (List.mem_singleton_self y)
  apart {i j n c y f q} hij hsteps hq _ := by
    have hy := Solo.mem_definitionsAll hsteps hq
    intro hmention
    -- numbers behind the last program stand for empty programs, which define and mention nothing
    cases hi : programs[i]? with
    | none => rw [hi] at hy; cases hy
    | some p =>
      cases hj : programs[j]? with
      | none =>
        simp only [hj] at hmention
        cases hmention
      | some p' =>
        simp only [hi, hj, Option.getD_some] at hy hmention
        obtain ⟨hi', rfl⟩ := List.getElem?_eq_some_iff.mp hi
        obtain ⟨hj', rfl⟩ := List.getElem?_eq_some_iff.mp hj
        rcases Nat.lt_or_gt_of_ne hij with hlt | hlt
        · exact (List.pairwise_iff_getElem.mp h i j hi' hj' hlt).1 y hy hmention
        · exact (List.pairwise_iff_getElem.mp h j i hj' hi' hlt).2 y hy hmention

/-! ## The beginning -/

/-- The programs as threads, side by side in the global frame of a fresh world. -/
def Session.ofPrograms (programs : List (List Expr)) : Session :=
  Session.fresh.spawnAll (programs.map (·, World.globalFrame))

/-- At the beginning a thread has the global frame in common with its lone run, and nothing else. -/
def Renaming.global : Renaming where
  frame f f' := f = World.globalFrame ∧ f' = World.globalFrame
  call _ _ := False
  serial _ _ := False

theorem Renaming.global_isOneToOne : Renaming.global.IsOneToOne where
  frame _ _ _ _ h h' := by
    rw [h.1, h.2, h'.1, h'.2]
  call _ _ _ _ h := h.elim
  serial _ _ _ _ h := h.elim

theorem World.fresh_renamed (names : String → Prop) :
    World.Renamed Renaming.global names World.fresh World.fresh where
  frame hf := by
    obtain ⟨rfl, rfl⟩ := hf
    refine ⟨⟨none, World.builtins⟩, ⟨none, World.builtins⟩, rfl, rfl, .inl ⟨rfl, rfl⟩, fun x _ ↦ ?_⟩
    cases hv : (Frame.mk none World.builtins).value? x with
    | none => exact .none
    | some v =>
      have hmem := Frame.mem_of_value? hv
      cases v with
      | closure cl => exact absurd rfl (World.builtins_ne_closure hmem cl)
      | int n => exact .some (.int n)
      | bool b => exact .some (.bool b)
      | str t => exact .some (.str t)
      | undefined => exact .some .undefined
      | primitive p => exact .some (.primitive p)
  call hc := hc.elim
  serial hn := hn.elim

theorem inCompany_spawnAll (programs : List (List Expr)) :
    InCompany (fun i ↦ Solo.ofProgram (programs[i]?.getD [])) 1 (fun _ ↦ Renaming.global) []
      (Session.ofPrograms programs) where
  tracks {i t} ht := by
    rw [Session.ofPrograms, Session.threads_spawnAll] at ht
    simp only [Session.fresh, Array.empty_append, List.getElem?_toArray, List.getElem?_mapIdx,
      List.getElem?_map, Option.map_eq_some_iff] at ht
    obtain ⟨_, ⟨program, hp, rfl⟩, rfl⟩ := ht
    have hstart : Solo.ofProgram (programs[i]?.getD []) = Solo.ofProgram program := by rw [hp]; rfl
    rw [hstart]
    have hglobal : Renaming.global.frame World.globalFrame World.globalFrame := ⟨rfl, rfl⟩
    refine ⟨_, ⟨.refl _, Renaming.global_isOneToOne,
      (World.fresh_renamed _).journal (Session.world_spawnAll _ _), .undefined,
      fun _ ↦ ofProgram_renamed hglobal program, by simp⟩, ?_, rfl⟩
    exact (List.append_nil _).symm
  frames _ _ _ _ _ _ _ _ h _ := h.1 ▸ Nat.zero_lt_one
  calls _ _ _ _ _ _ _ _ h _ := h
  shared _ hf := ⟨Nat.lt_one_iff.mp hf, Nat.lt_one_iff.mp hf⟩

/-! ## Two runs side by side -/

/-- What stands for the same in one world and in another. -/
def Renaming.between (ρ ρ' : Renaming) : Renaming where
  frame f f' := ∃ g, ρ.frame g f ∧ ρ'.frame g f'
  call c c' := ∃ d, ρ.call d c ∧ ρ'.call d c'
  serial n n' := ∃ m, ρ.serial m n ∧ ρ'.serial m n'

theorem OneToOne.between {r r' : Nat → Nat → Prop} (h : OneToOne r) (h' : OneToOne r') :
    OneToOne fun a b ↦ ∃ c, r c a ∧ r' c b := by
  rintro a a' b b' ⟨c, hc, hc'⟩ ⟨d, hd, hd'⟩
  rw [← h hc hd, ← h' hc' hd']

theorem Renaming.IsOneToOne.between {ρ ρ' : Renaming} (h : ρ.IsOneToOne) (h' : ρ'.IsOneToOne) :
    (ρ.between ρ').IsOneToOne :=
  ⟨h.frame.between h'.frame, h.call.between h'.call, h.serial.between h'.serial⟩

theorem Value.Renamed.between {ρ ρ' : Renaming} {v u u' : Value} (h : v.Renamed ρ u)
    (h' : v.Renamed ρ' u') : u.Renamed (ρ.between ρ') u' := by
  cases h with
  | int n => cases h'; exact .int n
  | bool b => cases h'; exact .bool b
  | str t => cases h'; exact .str t
  | undefined => cases h'; exact .undefined
  | primitive p => cases h'; exact .primitive p
  | closure params body hserial hframe =>
    cases h' with
    | closure _ _ hserial' hframe' =>
      exact .closure params body ⟨_, hserial, hserial'⟩ ⟨_, hframe, hframe'⟩

section Ends

variable {a : Solo} {ρ ρ' : Renaming} {c c' : Config} {t t' : Thread} {w w' : World}

/-- A thread with nothing left to do tracks a run that can go no further. -/
theorem Tracks.isLast (h : Tracks a ρ c t w) (hq : t.queue = []) : c.IsLast := by
  cases he : t.error with
  | none =>
    have hqueue := h.queue he
    rw [hq] at hqueue
    exact isLast_of_queue_eq_nil (List.forall₂_nil_right_iff.mp hqueue)
  | some e =>
    obtain ⟨-, x, hx⟩ := h.failed e he
    exact hx.isLast

/-- Whether a thread failed, and how, can be seen from its lone run. -/
theorem Tracks.error_eq_some_iff (h : Tracks a ρ c t w) (hq : t.queue = []) (e : ProgramError) :
    t.error = some e ↔ ∃ x, Fails c (.program e) x := by
  refine ⟨fun he ↦ (h.failed e he).2, ?_⟩
  rintro ⟨x, hx⟩
  cases he : t.error with
  | none =>
    have hqueue := h.queue he
    rw [hq] at hqueue
    obtain ⟨st, q, hc, -⟩ := hx
    rw [List.forall₂_nil_right_iff.mp hqueue] at hc
    cases hc
  | some e' =>
    obtain ⟨-, x', hx'⟩ := h.failed e' he
    cases hx.unique hx'
    rfl

/-- Threads with the same lone run and nothing left to do have come to the same. -/
theorem Tracks.ends_alike (h : Tracks a ρ c t w) (h' : Tracks a ρ' c' t' w') (hq : t.queue = [])
    (hq' : t'.queue = []) : c' = c ∧ t'.steps = t.steps ∧ t'.error = t.error ∧
      ∃ σ : Renaming, σ.IsOneToOne ∧ t.current.Renamed σ t'.current := by
  -- runs are deterministic, and both threads are at the end of theirs
  obtain ⟨hsteps, rfl⟩ := h'.steps.last_unique h.steps (h'.isLast hq') (h.isLast hq)
  refine ⟨rfl, hsteps, Option.ext fun e ↦ ?_, _, h.oneToOne.between h'.oneToOne,
    h.current.between h'.current⟩
  rw [h.error_eq_some_iff hq, h'.error_eq_some_iff hq']

end Ends

/-! ## Independent programs -/

section Independent

variable {sup : Supervision} {programs : List (List Expr)} {turns : List Turn} {o : Outcome Nat}
  {s : Session} {i : Nat} {program : List Expr}

/-- The thread of a program tracks the program on its own, and prints what that prints. -/
theorem exists_tracks_of_calls (hsup : sup.SpawnsNothing)
    (hprograms : programs.Pairwise Independent)
    (hcalls : Session.Calls sup (Session.ofPrograms programs) turns o s)
    (ho : ∀ f, o ≠ .failed f) (hp : programs[i]? = some program) :
    ∃ t, s.threads[i]? = some t ∧ ∃ ρ c, Tracks (.ofProgram program) ρ c t s.world ∧
      c.world.printed.toList = Turn.textsBy i turns ∧ Turn.countBy i turns = t.taken := by
  have hsize : (Session.ofPrograms programs).threads.size = programs.length := by
    rw [Session.ofPrograms, Session.threads_spawnAll]
    simp [Session.fresh]
  have hvisits := inCompany_preservedByVisits (company_ofProgram hprograms) hsup programs.length
  obtain ⟨-, ⟨⟨ρ, hcompany⟩, hn⟩, -⟩ :=
    hcalls.preserves hvisits ⟨⟨_, inCompany_spawnAll programs⟩, hsize⟩ ho
  have hi : i < s.threads.size := by
    rw [hn]
    exact (List.getElem?_eq_some_iff.mp hp).1
  obtain ⟨c, htracks, hprinted, hcount⟩ := hcompany.tracks (Array.getElem?_eq_getElem hi)
  simp only [hp, Option.getD_some] at htracks hprinted
  exact ⟨_, Array.getElem?_eq_getElem hi, ρ i, c, htracks, hprinted, hcount⟩

/-- **Independent programs run as if alone.** Whatever passes and runs were made, a thread is where
its program, alone in a fresh world, is after as many steps. Its current value and queue are those
of the lone run up to renaming, and so is what they refer to in the world. If it failed, the lone
run fails at this point with the same error. Its own steps printed what the lone run has printed.

So what a thread comes to does not depend on the turns: other passes and runs, once they too have
left the thread nothing to do, end it after as many steps, with the same value up to renaming, the
same error and the same printed texts. -/
theorem independent_programs_run_as_alone (hsup : sup.SpawnsNothing)
    (hprograms : programs.Pairwise Independent)
    (hcalls : Session.Calls sup (Session.ofPrograms programs) turns o s)
    (ho : ∀ f, o ≠ .failed f) (hp : programs[i]? = some program) :
    ∃ t, s.threads[i]? = some t ∧
      (∃ ρ c, Tracks (.ofProgram program) ρ c t s.world ∧
        c.world.printed.toList = Turn.textsBy i turns ∧ Turn.countBy i turns = t.taken) ∧
      ∀ {sup' : Supervision} {turns' : List Turn} {o' : Outcome Nat} {s' : Session} {t' : Thread},
        sup'.SpawnsNothing →
        Session.Calls sup' (Session.ofPrograms programs) turns' o' s' →
        (∀ f, o' ≠ .failed f) → s'.threads[i]? = some t' → t.queue = [] → t'.queue = [] →
        t'.steps = t.steps ∧ t'.error = t.error ∧
          Turn.textsBy i turns' = Turn.textsBy i turns ∧
          ∃ σ : Renaming, σ.IsOneToOne ∧ t.current.Renamed σ t'.current := by
  obtain ⟨t, ht, ρ, c, htracks, hprinted, hcount⟩ :=
    exists_tracks_of_calls hsup hprograms hcalls ho hp
  refine ⟨t, ht, ⟨ρ, c, htracks, hprinted, hcount⟩, ?_⟩
  intro sup' turns' o' s' t' hsup' hcalls' ho' ht' hq hq'
  obtain ⟨u, hu, ρ', c', htracks', hprinted', -⟩ :=
    exists_tracks_of_calls hsup' hprograms hcalls' ho' hp
  cases ht'.symm.trans hu
  obtain ⟨rfl, hsteps, herror, hvalue⟩ := htracks.ends_alike htracks' hq hq'
  exact ⟨hsteps, herror, hprinted'.symm.trans hprinted, hvalue⟩

/-- Two programs for the global frame. One defines a name, prints it and then tries to call a
number; the other defines and mentions a name of its own. -/
def twoPrograms : List (List Expr) :=
  [[.compound [.reference "define", .reference "a", .number 1],
    .compound [.reference "print", .reference "a"], .compound [.number 2]],
   [.compound [.reference "define", .reference "b", .string "x"], .reference "b"]]

theorem independent_programs_run_as_alone_twoPrograms :
    ∃ t ρ c, ((Session.ofPrograms twoPrograms).run {} 20 none).2.threads[0]?
        = some t ∧
      Tracks (.ofProgram (twoPrograms.headD [])) ρ c t
        ((Session.ofPrograms twoPrograms).run {} 20 none).2.world ∧
      c.world.printed.toList = ["1\n"] ∧ t.taken = 17 := by
  have hcalls := Session.Calls.run (.start : Session.Calls {}
    (Session.ofPrograms twoPrograms) _ _ _) 20 none
  have ho : ((Session.ofPrograms twoPrograms).run {} 20 none).1
      = .done 23 := by decide +kernel
  have hsup : Supervision.SpawnsNothing {} := by
    intro h hh
    cases hh
  obtain ⟨t, ht, ⟨ρ, c, h, hprinted, hcount⟩, -⟩ :=
    independent_programs_run_as_alone hsup (by decide : twoPrograms.Pairwise Independent) hcalls
      (by rw [ho]; intro f hf; cases hf) (rfl : twoPrograms[0]? = some _)
  refine ⟨t, ρ, c, ht, h, hprinted.trans (by decide +kernel),
    hcount.symm.trans (by decide +kernel)⟩

end Independent

end Interleave

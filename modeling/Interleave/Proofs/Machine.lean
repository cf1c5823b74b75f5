import Interleave.Machine

/-!
# Runs of the queue machine, step by step

`Machine.run` takes fuel, so what it says about a program depends on how much it was given. Here a
run is taken apart into its steps: `Machine.Steps n c c'` says that `n` steps, none of which fails,
lead from one configuration to another, and `Machine.Fails c f w` that the next step of `c` fails.
The three ways in which `Machine.run` can end are then three statements about steps:

- `run_eq_done_iff`: the queue is empty after at most as many steps as there is fuel;
- `run_eq_failed_iff`: a step fails before the fuel is used up;
- `run_eq_outOfFuel_iff`: there are steps left after as many steps as there is fuel.

A step is a function of the configuration, so runs are deterministic: `Steps.unique`.

Logs play no part here: `Config.run` is the run without one. A run that is shown to a log takes the
same steps, up to the step at which the log breaks off if it does, and later modules that have to do
with logs begin from `takeStep_cases`, which says what becomes of one step.

Statements about all amounts of fuel are reduced to statements about steps in this way, and the
amounts that two runs were given need never be compared: see `run_unique`.
-/

namespace Interleave.Machine

/-- A program under way: the current value, what is still to be done, and the world. -/
structure Config where
  /-- The value of the last step. -/
  current : Value
  /-- What is still to be done. -/
  queue : Queue
  /-- The world that the next step finds. -/
  world : World

/-- So many steps, none of which fails, lead from one configuration to another. -/
inductive Steps : Nat → Config → Config → Prop where
  /-- No step leads nowhere. -/
  | refl (c : Config) : Steps 0 c c
  /-- A step, and then the others. -/
  | head {n : Nat} {s : Step} {v v' : Value} {q q' : Queue} {w w' : World} {c : Config}
    (first : step s v q w = (.ok (v', q'), w')) (rest : Steps n ⟨v', q', w'⟩ c) :
    Steps (n + 1) ⟨v, s :: q, w⟩ c

/-- The next step of a configuration fails, and leaves a world behind. -/
def Fails (c : Config) (f : Fault) (w : World) : Prop :=
  ∃ s q, c.queue = s :: q ∧ step s c.current q c.world = (.error f, w)

def Config.ofProgram (es : List Expr) (frame : FrameId) (w : World) : Config :=
  ⟨.undefined, Queue.ofProgram es frame, w⟩

def Config.run (fuel : Nat) (c : Config) : Outcome Value × World :=
  Machine.run none fuel c.current c.queue c.world

theorem takeStep_none (s : Step) (v : Value) (q : Queue) (w : World) :
    takeStep none s v q w = step s v q w := rfl

/-! ## Composing runs -/

theorem Steps.one {s : Step} {v v' : Value} {q q' : Queue} {w w' : World}
    (h : step s v q w = (.ok (v', q'), w')) : Steps 1 ⟨v, s :: q, w⟩ ⟨v', q', w'⟩ :=
  .head h (.refl _)

theorem Steps.trans {m n : Nat} {c₁ c₂ c₃ : Config} (h₁ : Steps m c₁ c₂) (h₂ : Steps n c₂ c₃) :
    Steps (m + n) c₁ c₃ := by
  induction h₁ with
  | refl c => rwa [Nat.zero_add]
  | head first _ ih =>
    rw [Nat.add_right_comm]
    exact .head first (ih h₂)

theorem Steps.snoc {n : Nat} {c : Config} {s : Step} {v v' : Value} {q q' : Queue} {w w' : World}
    (h : Steps n c ⟨v, s :: q, w⟩) (last : step s v q w = (.ok (v', q'), w')) :
    Steps (n + 1) c ⟨v', q', w'⟩ :=
  h.trans (.one last)

/-- Where a run ends with steps to take, it began with steps to take. -/
theorem Steps.queue_ne_nil {n : Nat} {c c' : Config} (h : Steps n c c') (hne : c'.queue ≠ []) :
    c.queue ≠ [] := by
  cases h with
  | refl => exact hne
  | head => exact List.cons_ne_nil _ _

/-! ## Determinism -/

/-- After so many steps there is only one configuration to be in. -/
theorem Steps.unique {n : Nat} {c c₁ c₂ : Config} (h₁ : Steps n c c₁) (h₂ : Steps n c c₂) :
    c₁ = c₂ := by
  induction h₁ with
  | refl c => cases h₂; rfl
  | head first _ ih =>
    cases h₂ with
    | head first' rest' =>
      rw [first] at first'
      cases first'
      exact ih rest'

theorem Steps.split {m n : Nat} {c c' : Config} (h : Steps (m + n) c c') :
    ∃ d, Steps m c d ∧ Steps n d c' := by
  induction m generalizing c with
  | zero => exact ⟨c, .refl c, by rwa [Nat.zero_add] at h⟩
  | succ m ih =>
    rw [Nat.add_right_comm] at h
    cases h with
    | head first rest =>
      obtain ⟨d, hd, hd'⟩ := ih rest
      exact ⟨d, .head first hd, hd'⟩

/-- No step leads on from the configuration: it has none, or fails. -/
def Config.IsLast (c : Config) : Prop :=
  ∀ n c', ¬Steps (n + 1) c c'

theorem Fails.isLast {c : Config} {f : Fault} {w : World} (hf : Fails c f w) : c.IsLast := by
  intro n c' h
  obtain ⟨s, q, hq, hs⟩ := hf
  cases h with
  | head first rest =>
    cases hq
    rw [hs] at first
    cases first

theorem isLast_of_queue_eq_nil {c : Config} (h : c.queue = []) : c.IsLast := by
  intro n c' hsteps
  cases hsteps with
  | head => cases h

theorem Fails.unique {c : Config} {f f' : Fault} {w w' : World} (h : Fails c f w)
    (h' : Fails c f' w') : f = f' := by
  obtain ⟨s, q, hq, hs⟩ := h
  obtain ⟨s', q', hq', hs'⟩ := h'
  rw [hq] at hq'
  cases hq'
  rw [hs] at hs'
  cases hs'
  rfl

theorem Steps.last_unique {m n : Nat} {c c₁ c₂ : Config} (h₁ : Steps m c c₁) (h₂ : Steps n c c₂)
    (hc₁ : c₁.IsLast) (hc₂ : c₂.IsLast) : m = n ∧ c₁ = c₂ := by
  have key : ∀ {m k : Nat} {c₁ c₂ : Config}, Steps m c c₁ → Steps (m + k) c c₂ → c₁.IsLast →
      k = 0 := by
    intro m k c₁ c₂ h₁ h₂ hc₁
    obtain ⟨d, hd, hd'⟩ := h₂.split
    cases k with
    | zero => rfl
    | succ k => exact absurd (h₁.unique hd ▸ hd') (hc₁ k c₂)
  have hmn : m = n := by
    rcases Nat.le_total m n with h | h
    · obtain ⟨k, rfl⟩ := Nat.exists_eq_add_of_le h
      rw [key h₁ h₂ hc₁, Nat.add_zero]
    · obtain ⟨k, rfl⟩ := Nat.exists_eq_add_of_le h
      rw [key h₂ h₁ hc₂, Nat.add_zero]
  subst hmn
  exact ⟨rfl, h₁.unique h₂⟩

/-! ## What fuel says about steps -/

theorem run_of_steps {n : Nat} {c c' : Config} (h : Steps n c c') (fuel : Nat) :
    c.run (n + fuel) = c'.run fuel := by
  induction h with
  | refl c => rw [Nat.zero_add]
  | @head n s v v' q q' w w' c first _ ih =>
    rw [← ih, Nat.add_right_comm, Config.run, Machine.run, takeStep_none, first]
    rfl

theorem run_of_fails {c : Config} {f : Fault} {w : World} (h : Fails c f w) (fuel : Nat) :
    c.run (fuel + 1) = (.failed f, w) := by
  obtain ⟨s, q, hq, hs⟩ := h
  rw [Config.run, hq, Machine.run, takeStep_none, hs]

theorem run_of_queue_eq_nil {c : Config} (h : c.queue = []) (fuel : Nat) :
    c.run fuel = (.done c.current, c.world) := by
  rw [Config.run, h, Machine.run]

theorem run_zero_of_queue_ne_nil {c : Config} (h : c.queue ≠ []) :
    c.run 0 = (.outOfFuel, c.world) := by
  obtain ⟨s, q, hq⟩ := List.exists_cons_of_ne_nil h
  rw [Config.run, hq, Machine.run]

/-- A run ends in one of three ways, and the steps that were taken say in which. -/
theorem run_cases (fuel : Nat) (c : Config) :
    (∃ c', Steps fuel c c' ∧ c'.queue ≠ [] ∧ c.run fuel = (.outOfFuel, c'.world)) ∨
      (∃ n ≤ fuel, ∃ v w, Steps n c ⟨v, [], w⟩ ∧ c.run fuel = (.done v, w)) ∨
      ∃ n < fuel, ∃ c' f w, Steps n c c' ∧ Fails c' f w ∧ c.run fuel = (.failed f, w) := by
  induction fuel generalizing c with
  | zero =>
    by_cases hq : c.queue = []
    · obtain ⟨v, q, w⟩ := c
      cases hq
      exact .inr (.inl ⟨0, Nat.le_refl 0, v, w, .refl _, run_of_queue_eq_nil rfl 0⟩)
    · exact .inl ⟨c, .refl c, hq, run_zero_of_queue_ne_nil hq⟩
  | succ fuel ih =>
    obtain ⟨v, q, w⟩ := c
    cases q with
    | nil => exact .inr (.inl ⟨0, Nat.zero_le _, v, w, .refl _, run_of_queue_eq_nil rfl _⟩)
    | cons s q =>
      rcases hs : step s v q w with ⟨⟨f⟩ | ⟨v', q'⟩, w'⟩
      · have hf : Fails ⟨v, s :: q, w⟩ f w' := ⟨s, q, rfl, hs⟩
        exact .inr (.inr ⟨0, Nat.succ_pos _, _, f, w', .refl _, hf, run_of_fails hf fuel⟩)
      · have hrun : Config.run (fuel + 1) ⟨v, s :: q, w⟩ = Config.run fuel ⟨v', q', w'⟩ := by
          rw [Nat.add_comm, run_of_steps (.one hs)]
        rw [hrun]
        rcases ih ⟨v', q', w'⟩ with ⟨c', hc, hne, hr⟩ | ⟨n, hn, u, x, hc, hr⟩ |
            ⟨n, hn, c', f, x, hc, hf, hr⟩
        · exact .inl ⟨c', .head hs hc, hne, hr⟩
        · exact .inr (.inl ⟨n + 1, Nat.succ_le_succ hn, u, x, .head hs hc, hr⟩)
        · exact .inr (.inr ⟨n + 1, Nat.succ_lt_succ hn, c', f, x, .head hs hc, hf, hr⟩)

theorem run_eq_done_iff {fuel : Nat} {c : Config} {v : Value} {w : World} :
    c.run fuel = (.done v, w) ↔ ∃ n ≤ fuel, Steps n c ⟨v, [], w⟩ := by
  constructor
  · intro h
    rcases run_cases fuel c with ⟨c', -, -, hr⟩ | ⟨n, hn, u, x, hc, hr⟩ | ⟨n, -, c', f, x, -, -, hr⟩
    · rw [h] at hr; cases hr
    · rw [h] at hr; cases hr; exact ⟨n, hn, hc⟩
    · rw [h] at hr; cases hr
  · rintro ⟨n, hn, hc⟩
    obtain ⟨k, rfl⟩ := Nat.exists_eq_add_of_le hn
    rw [run_of_steps hc, run_of_queue_eq_nil rfl]

theorem run_eq_failed_iff {fuel : Nat} {c : Config} {f : Fault} {w : World} :
    c.run fuel = (.failed f, w) ↔ ∃ n < fuel, ∃ c', Steps n c c' ∧ Fails c' f w := by
  constructor
  · intro h
    rcases run_cases fuel c with ⟨c', -, -, hr⟩ | ⟨n, -, u, x, -, hr⟩ |
        ⟨n, hn, c', g, x, hc, hf, hr⟩
    · rw [h] at hr; cases hr
    · rw [h] at hr; cases hr
    · rw [h] at hr; cases hr; exact ⟨n, hn, c', hc, hf⟩
  · rintro ⟨n, hn, c', hc, hf⟩
    obtain ⟨k, rfl⟩ := Nat.exists_eq_add_of_lt hn
    rw [Nat.add_assoc, run_of_steps hc, run_of_fails hf]

theorem run_eq_outOfFuel_iff {fuel : Nat} {c : Config} :
    (c.run fuel).1 = .outOfFuel ↔ ∃ c', Steps fuel c c' ∧ c'.queue ≠ [] := by
  constructor
  · intro h
    rcases run_cases fuel c with ⟨c', hc, hne, -⟩ | ⟨n, -, u, x, -, hr⟩ | ⟨n, -, c', f, x, -, -, hr⟩
    · exact ⟨c', hc, hne⟩
    · rw [hr] at h; cases h
    · rw [hr] at h; cases h
  · rintro ⟨c', hc, hne⟩
    have := run_of_steps hc 0
    rw [Nat.add_zero] at this
    rw [this, run_zero_of_queue_ne_nil hne]

/-- More fuel changes nothing about a run that has ended. -/
theorem run_mono {m n : Nat} {c : Config} (hmn : m ≤ n) (h : (c.run m).1 ≠ .outOfFuel) :
    c.run n = c.run m := by
  rcases run_cases m c with ⟨c', -, -, hr⟩ | ⟨k, hk, v, w, hc, hr⟩ | ⟨k, hk, c', f, w, hc, hf, hr⟩
  · rw [hr] at h
    exact absurd rfl h
  · rw [hr, run_eq_done_iff]
    exact ⟨k, Nat.le_trans hk hmn, hc⟩
  · rw [hr, run_eq_failed_iff]
    exact ⟨k, Nat.lt_of_lt_of_le hk hmn, c', hc, hf⟩

/-- Two runs of one configuration that end, end alike. -/
theorem run_unique {m n : Nat} {c : Config} (hm : (c.run m).1 ≠ .outOfFuel)
    (hn : (c.run n).1 ≠ .outOfFuel) : c.run m = c.run n := by
  rcases Nat.le_total m n with h | h
  · exact (run_mono h hm).symm
  · exact run_mono h hn

end Interleave.Machine

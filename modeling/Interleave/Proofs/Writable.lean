import Interleave.Proofs.Code
import Interleave.Proofs.Grammar
import Mathlib.Algebra.Group.Nat.Defs

/-!
# Numbers short enough to be written

A numeral in a program text has at most `Numeral.maxDigits` digits, or the text is not read at all.
So every number in a program that was read can be written again (`isWritable_of_parse`), and so can
every number in the code that such programs ever evaluate, since they make no code of their own.

Values are another matter: arithmetic makes integers of any length. What follows for steps is
`step_breakdown_iff`. The one way for a step to break down is a call of an integer that is too long,
where the message of the error that should be reported cannot be made.

## What is left

A program can do little with an integer that is too long. It can compute with it, compare it, print
it and pass it on, and all of that works. It can use it as a condition, where it counts as true. It
cannot be part of an error, except where it is called: errors about arguments show values that are
no integers, and errors about forms show expressions, which are code and can be written.
-/

namespace Interleave

/-! ## Numerals -/

namespace Numeral

theorem ofDigitChars_lt_pow {ds : List Char} (h : ds.all Char.isDigit = true) :
    Nat.ofDigitChars 10 ds 0 < 10 ^ ds.length := by
  induction ds with
  | nil => exact Nat.zero_lt_one
  | cons d ds ih =>
    rw [List.all_cons, Bool.and_eq_true] at h
    have hd : d.toNat - '0'.toNat < 10 := by
      have hzero : '0'.toNat = 48 := rfl
      have hnine : '9'.toNat = 57 := rfl
      have hdigit := Char.isDigit_iff_toNat.mp h.1
      omega
    have hrest := ih h.2
    rw [Nat.ofDigitChars_cons, Nat.ofDigitChars_eq_ofDigitChars_zero, Nat.mul_zero, Nat.zero_add,
      List.length_cons, Nat.pow_succ]
    calc 10 ^ ds.length * (d.toNat - '0'.toNat) + Nat.ofDigitChars 10 ds 0
        < 10 ^ ds.length * (d.toNat - '0'.toNat) + 10 ^ ds.length := Nat.add_lt_add_left hrest _
      _ = 10 ^ ds.length * (d.toNat - '0'.toNat + 1) := by rw [Nat.mul_add, Nat.mul_one]
      _ ≤ 10 ^ ds.length * 10 := Nat.mul_le_mul_left _ hd

theorem natAbs_value (cs : List Char) :
    (value cs).natAbs = Nat.ofDigitChars 10 (magnitude cs) 0 := by
  rw [value.eq_def, magnitude.eq_def]
  split
  · rw [Int.natAbs_neg, Int.natAbs_natCast]
  · rw [Int.natAbs_natCast]

/-- A numeral of few enough digits denotes an integer of few enough digits. -/
theorem isTooLong_value {cs : List Char} (hcs : isNumeral cs = true)
    (hlen : (magnitude cs).length ≤ maxDigits) : isTooLong (value cs) = false := by
  rw [isNumeral, Bool.and_eq_true] at hcs
  rw [isTooLong, decide_eq_false_iff_not, Nat.not_le, natAbs_value]
  unfold bound
  -- nothing about the limit matters here, and its power should not be worked out
  generalize maxDigits = limit at hlen ⊢
  calc Nat.ofDigitChars 10 (magnitude cs) 0
      < 10 ^ (magnitude cs).length := ofDigitChars_lt_pow hcs.2
    _ ≤ 10 ^ limit := Nat.pow_le_pow_right (by decide) hlen

end Numeral

/-! ## Reading -/

theorem Expr.isWritableAll_iff {es : List Expr} :
    Expr.isWritableAll es = true ↔ ∀ e ∈ es, e.isWritable = true := by
  induction es with
  | nil => simp [Expr.isWritableAll]
  | cons e es ih => simp [Expr.isWritableAll, ih]

theorem Denotes.isWritable {l : Token.Lexeme} {e : Expr} (h : Denotes l e) :
    e.isWritable = true := by
  cases h with
  | number hnumeral hlen =>
    rw [Expr.isWritable, Numeral.isTooLong_value hnumeral hlen]
    rfl
  | reference => rfl
  | string => rfl

theorem Spells.isWritable {ls : List Token.Lexeme} {es : List Expr} (h : Spells ls es) :
    ∀ e ∈ es, e.isWritable = true := by
  induction h with
  | nil => exact List.forall_mem_nil _
  | atom hatom _ ih => exact List.forall_mem_cons.mpr ⟨hatom.isWritable, ih⟩
  | compound _ _ ihelements ih =>
    exact List.forall_mem_cons.mpr ⟨Expr.isWritableAll_iff.mpr ihelements, ih⟩

/-- What is read can be written. -/
theorem isWritable_of_parse {source : String} {program : List Expr}
    (h : parse source = .ok program) : ∀ e ∈ program, e.isWritable = true :=
  (parse_eq_ok_iff.mp h).2.isWritable

/-! ## Faults of programs -/

def Fault.IsProgram (f : Fault) : Prop :=
  ∃ e, f = .program e

namespace Form

theorem isProgram_wrongKind {e : Expr} (he : e.isWritable = true) (error : String → KindError) :
    (wrongKind error e).IsProgram := by
  have hsummary : ∃ text, e.summary = .ok text := by
    rw [Expr.summary.eq_def]
    split
    · exact ⟨_, rfl⟩
    · rw [Expr.source, if_pos he]
      exact ⟨_, rfl⟩
  obtain ⟨text, htext⟩ := hsummary
  exact ⟨.kind (error text), by rw [wrongKind, htext]⟩

theorem isProgram_parameterNames {es : List Expr} {before : List String} {f : Fault}
    (hes : ∀ e ∈ es, e.isWritable = true) (h : parameterNames before es = .error f) :
    f.IsProgram := by
  fun_induction parameterNames before es with
  | case1 => cases h
  | case2 =>
    cases h
    exact ⟨_, rfl⟩
  | case3 before x es _ ih => exact ih (fun e he ↦ hes e (List.mem_cons_of_mem _ he)) h
  | case4 before e es _ =>
    cases h
    exact isProgram_wrongKind (hes e List.mem_cons_self) _

theorem isProgram_parameters {params : Expr} {f : Fault} (hparams : params.isWritable = true)
    (h : parameters params = .error f) : f.IsProgram := by
  rw [parameters.eq_def] at h
  split at h
  · exact isProgram_parameterNames (Expr.isWritableAll_iff.mp hparams) h
  · rw [Except.error.injEq] at h
    subst h
    exact isProgram_wrongKind hparams _

/-- A special form whose numbers can be written is malformed in no other way than by an error of the
program. -/
theorem isProgram_ofParts {k : SpecialForm} {parts : List Expr} {f : Fault}
    (hparts : ∀ e ∈ parts, e.isWritable = true) (h : ofParts k parts = .error f) :
    f.IsProgram := by
  rw [ofParts.eq_def] at h
  split at h
  · cases h
  · cases h
  · cases h
    exact ⟨_, rfl⟩
  · cases h
  · cases h
    exact isProgram_wrongKind (hparts _ List.mem_cons_self) _
  · cases h
    exact ⟨_, rfl⟩
  · rename_i params e body
    have hparams := hparts params List.mem_cons_self
    cases hp : parameters params with
    | ok names => rw [hp] at h; cases h
    | error g =>
      rw [hp] at h
      cases h
      exact isProgram_parameters hparams hp
  · cases h
    exact ⟨_, rfl⟩

end Form

/-! ## Steps that break down -/

namespace Machine

/-- All numbers of the code can be written. -/
abbrev Writable (e : Expr) : Prop := e.isWritable = true

theorem hereditary_writable : Hereditary Writable := fun hes ↦ Expr.isWritableAll_iff.mp hes

/-- The step calls an integer that is too long to be written. -/
def CallsLongInteger (st : Step) (w : World) : Prop :=
  ∃ c frame n args, st = .apply c frame ∧ w.collected c = .int n :: args ∧
    Numeral.isTooLong n = true

variable {st : Step} {v : Value} {q : Queue} {w w' : World}

theorem step_of_callsLongInteger (h : CallsLongInteger st w) :
    step st v q w = (.error (.breakdown .integerTooLong), w) := by
  obtain ⟨c, frame, n, args, rfl, hc, hn⟩ := h
  simp only [step, hc, apply, Fault.ofCallee, Value.isWritable, hn, Bool.not_true,
    Bool.false_eq_true, if_false]

/-- A step of code whose numbers can be written fails with an error of the program, unless it calls
an integer that is too long. -/
theorem isProgram_or_callsLongInteger {f : Fault} (hst : st.CodeIn Writable)
    (h : step st v q w = (.error f, w')) : f.IsProgram ∨ CallsLongInteger st w := by
  cases stepped_of_step h with
  | malformed hproceeds hform hparts =>
    have hes := hereditary_writable (hproceeds.codeIn hst)
    rw [Expr.eq_of_specialForm? hform] at hes
    exact .inl (Form.isProgram_ofParts (fun e he ↦ hes e (List.mem_cons_of_mem _ he)) hparts)
  | refused _ _ hcall =>
    obtain ⟨-, rfl | ⟨u, rfl⟩⟩ := Primitive.call_eq_error hcall
    · exact .inl ⟨_, rfl⟩
    · exact .inl ⟨_, rfl⟩
  | @notFunction c frame fn args hst hc hprimitive hclosure =>
    rw [Fault.ofCallee]
    by_cases hfn : fn.isWritable = true
    · rw [if_pos hfn]
      exact .inl ⟨_, rfl⟩
    · cases fn with
      | int n =>
        refine .inr ⟨c, frame, n, args, hst, hc, ?_⟩
        rwa [Value.isWritable, Bool.not_eq_true', Bool.not_eq_false] at hfn
      | bool | str | undefined | primitive | closure => exact absurd rfl hfn
  | unbound | emptyCall | miscounted | duplicate => exact .inl ⟨_, rfl⟩

/-- **Breakdowns.** A step of code whose numbers can be written breaks down exactly when it calls an
integer that is too long. -/
theorem step_breakdown_iff (hst : st.CodeIn Writable) {b : Breakdown} :
    step st v q w = (.error (.breakdown b), w') ↔
      b = .integerTooLong ∧ w' = w ∧ CallsLongInteger st w := by
  constructor
  · intro h
    rcases isProgram_or_callsLongInteger hst h with ⟨e, he⟩ | hlong
    · cases he
    · rw [step_of_callsLongInteger hlong] at h
      cases h
      exact ⟨rfl, rfl, hlong⟩
  · rintro ⟨rfl, rfl, hlong⟩
    exact step_of_callsLongInteger hlong

end Machine

end Interleave

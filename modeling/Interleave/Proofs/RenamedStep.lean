import Interleave.Proofs.Renaming

/-!
# Steps up to renaming

Two configurations that are the same up to a renaming take the same step: both succeed or both fail
with the same fault, print the same texts, and are the same up to a larger renaming afterwards. This
is `step_renamed`, the one lemma about single steps that comparisons of whole runs rest on.

The worlds need to agree at the names of a vocabulary only, so the step must not mention others.

## The cases

Most steps make nothing and read little, and for them both sides are compared directly
(`Matched.same` and `Matched.of_world`). Three steps make something: the beginning of a call makes a
record, a lambda a closure, and the call of a closure a frame. There the renaming gains a pair of
numbers that are new on both sides. A look-up goes outward through frames that stand for each other
and finds the name in the same one of them, or in none.

## Steps of others

The last section is about a step that only the second world takes. It does not show, as long as it
defines no name of the vocabulary in a frame that has a counterpart and joins no value to a record
that has one (`World.Renamed.of_effect`).
-/

namespace Interleave

open Machine

/-- What two steps came to is the same, up to the renaming. -/
inductive ResultRenamed (ρ : Renaming) :
    Except Fault (Value × Queue) → Except Fault (Value × Queue) → Prop where
  | ok {v v' : Value} {q q' : Queue} (hv : v.Renamed ρ v') (hq : Queue.Renamed ρ q q') :
    ResultRenamed ρ (.ok (v, q)) (.ok (v', q'))
  | error (f : Fault) : ResultRenamed ρ (.error f) (.error f)

/-- Two steps, taken in worlds that are the same up to a renaming, came to the same up to a larger
one. -/
structure Matched (ρ : Renaming) (names : String → Prop) (w w' : World)
    (a a' : Except Fault (Value × Queue) × World) (ρ' : Renaming) : Prop where
  grows : ρ.Grows ρ' w w'
  oneToOne : ρ'.IsOneToOne
  world : World.Renamed ρ' names a.2 a'.2
  result : ResultRenamed ρ' a.1 a'.1
  /-- Both printed the same texts. -/
  printed : ∃ texts, a.2.printed = w.printed ++ texts ∧ a'.2.printed = w'.printed ++ texts

section Matching

variable {ρ : Renaming} {names : String → Prop} {w w' : World} {q q' : Queue} {f f' : FrameId}

theorem Matched.of_world {x x' : World} {r r' : Except Fault (Value × Queue)}
    (hρ : ρ.IsOneToOne) (hr : ResultRenamed ρ r r') (hx : World.Renamed ρ names x x')
    (hp : x.printed = w.printed) (hp' : x'.printed = w'.printed) :
    Matched ρ names w w' (r, x) (r', x') ρ where
  grows := .refl ρ w w'
  oneToOne := hρ
  world := hx
  result := hr
  printed := ⟨#[], by rw [hp, Array.append_empty], by rw [hp', Array.append_empty]⟩

theorem Matched.same {r r' : Except Fault (Value × Queue)} (hρ : ρ.IsOneToOne)
    (hw : World.Renamed ρ names w w') (hr : ResultRenamed ρ r r') :
    Matched ρ names w w' (r, w) (r', w') ρ :=
  .of_world hρ hr hw rfl rfl

theorem World.Renamed.note (h : World.Renamed ρ names w w') (n n' : Note) :
    World.Renamed ρ names (w.note n) (w'.note n') :=
  h.congr rfl rfl (Nat.le_refl _) rfl rfl (Nat.le_refl _)

/-! ## Putting steps in front -/

theorem formSteps_renamed (hf : ρ.frame f f') (fm : Form) :
    Queue.Renamed ρ (formSteps f fm) (formSteps f' fm) := by
  cases fm with
  | conditional c t e => exact .cons (.evaluate c hf) (.cons (.branch t e hf) .nil)
  | definition y e => exact .cons (.evaluate e hf) (.cons (.define y hf) .nil)
  | lambda params body => exact .cons (.closure params body hf) .nil

theorem callSteps_renamed {c c' : CallId} (hf : ρ.frame f f') (hc : ρ.call c c')
    (es : List Expr) : Queue.Renamed ρ (callSteps f c es) (callSteps f' c' es) := by
  refine List.rel_append ?_ (.cons (.apply hc hf) .nil)
  induction es with
  | nil => exact .nil
  | cons e es ih => exact .cons (.evaluate e hf) (.cons (.join hc) ih)

theorem ofProgram_renamed (hf : ρ.frame f f') (es : List Expr) :
    Queue.Renamed ρ (Queue.ofProgram es f) (Queue.ofProgram es f') := by
  induction es with
  | nil => exact .nil
  | cons e es ih => exact .cons (.evaluate e hf) ih

theorem proceed_renamed (hρ : ρ.IsOneToOne) (hw : World.Renamed ρ names w w')
    (hq : Queue.Renamed ρ q q') (hf : ρ.frame f f') (e : Expr) :
    ∃ ρ', Matched ρ names w w' (proceed e f q w) (proceed e f' q' w') ρ' := by
  cases e with
  | number n =>
    exact ⟨ρ, .same hρ hw (.ok .undefined (.cons (.literal (.int n)) hq))⟩
  | string t =>
    exact ⟨ρ, .same hρ hw (.ok .undefined (.cons (.literal (.str t)) hq))⟩
  | reference y =>
    exact ⟨ρ, .same hρ hw (.ok .undefined (.cons (.reference y hf) hq))⟩
  | compound es =>
    cases hform : Expr.specialForm? es with
    | some kp =>
      obtain ⟨k, parts⟩ := kp
      simp only [proceed, expand, hform]
      refine ⟨ρ, ?_⟩
      cases hparts : Form.ofParts k parts with
      | error g => exact .of_world hρ (.error g) (hw.note _ _) rfl rfl
      | ok fm =>
        exact .of_world hρ (.ok .undefined (List.rel_append (formSteps_renamed hf fm) hq))
          (hw.note _ _) rfl rfl
    | none =>
      simp only [proceed, expand, hform]
      -- the records that begin here are new in both worlds
      have hgrows := ρ.grows_addCall w w'
      have hsteps := callSteps_renamed (ρ := ρ.addCall w.calls.size w'.calls.size)
        (hgrows.frame hf) (ρ.addCall_call _ _) es
      exact ⟨_, hgrows, hw.addCall_isOneToOne hρ, hw.newCall,
        .ok .undefined (List.rel_append hsteps (hq.mono hgrows.toLe)),
        #[], Array.append_empty.symm, Array.append_empty.symm⟩

/-! ## Calls -/

theorem primitive_renamed (hρ : ρ.IsOneToOne) (hw : World.Renamed ρ names w w')
    (hq : Queue.Renamed ρ q q') (p : Primitive) {args args' : List Value}
    (hargs : List.Forall₂ (Value.Renamed ρ) args args') :
    Matched ρ names w w' (apply (.primitive p) args q w) (apply (.primitive p) args' q' w') ρ := by
  simp only [apply, Primitive.call, hargs.length_eq, p.result_renamed hρ.serial hargs]
  cases Primitive.checkArity p.name p.leastArguments args'.length with
  | error g => exact .same hρ hw (.error g)
  | ok _ =>
    cases hr : p.result args' with
    | error g => exact .same hρ hw (.error g)
    | ok u =>
      have hok : ResultRenamed ρ (.ok (u, q)) (.ok (u, q')) :=
        .ok (Primitive.renamed_self_of_result hr) hq
      cases p with
      | print =>
        simp only [Primitive.effect, Primitive.printedLine_renamed hargs]
        exact ⟨.refl ρ w w', hρ, hw.congr rfl rfl (Nat.le_refl _) rfl rfl (Nat.le_refl _), hok,
          #[Primitive.printedLine args'], Array.push_eq_append, Array.push_eq_append⟩
      | add => exact .same hρ hw hok
      | sub => exact .same hρ hw hok
      | mul => exact .same hρ hw hok
      | equal => exact .same hρ hw hok

theorem closure_renamed (hρ : ρ.IsOneToOne) (hw : World.Renamed ρ names w w')
    (hq : Queue.Renamed ρ q q') {n n' : Nat} {params : List String} {body : List Expr}
    (hf : ρ.frame f f') {args args' : List Value}
    (hargs : List.Forall₂ (Value.Renamed ρ) args args') :
    ∃ ρ', Matched ρ names w w' (apply (.closure ⟨n, params, body, f⟩) args q w)
      (apply (.closure ⟨n', params, body, f'⟩) args' q' w') ρ' := by
  simp only [apply, bindArguments, hargs.length_eq]
  by_cases hlen : args'.length = params.length
  · simp only [hlen, if_true]
    -- the frames of the two calls are new
    have hgrows := ρ.grows_addFrame w w'
    have hsteps := ofProgram_renamed (ρ := ρ.addFrame w.frames.size w'.frames.size)
      (ρ.addFrame_frame _ _) body
    exact ⟨_, hgrows, hw.addFrame_isOneToOne hρ, hw.newFrame hf params hargs,
      .ok .undefined (List.rel_append hsteps (hq.mono hgrows.toLe)),
      #[], Array.append_empty.symm, Array.append_empty.symm⟩
  · simp only [hlen, if_false]
    exact ⟨ρ, .same hρ hw (.error _)⟩

theorem apply_renamed (hρ : ρ.IsOneToOne) (hw : World.Renamed ρ names w w')
    (hq : Queue.Renamed ρ q q') {fn fn' : Value} (hfn : fn.Renamed ρ fn') {args args' : List Value}
    (hargs : List.Forall₂ (Value.Renamed ρ) args args') :
    ∃ ρ', Matched ρ names w w' (apply fn args q w) (apply fn' args' q' w') ρ' := by
  cases hfn with
  | int n => exact ⟨ρ, .same hρ hw (.error _)⟩
  | bool b => exact ⟨ρ, .same hρ hw (.error _)⟩
  | str t => exact ⟨ρ, .same hρ hw (.error _)⟩
  | undefined => exact ⟨ρ, .same hρ hw (.error _)⟩
  | primitive p => exact ⟨ρ, primitive_renamed hρ hw hq p hargs⟩
  | closure params body hserial hframe => exact closure_renamed hρ hw hq hframe hargs

/-! ## The step -/

/-- **Steps up to renaming.** The step may be any whose code has a property that goes over to
elements and restricts references to the vocabulary. -/
theorem step_renamed {P : Expr → Prop} (hP : Hereditary P)
    (hnames : ∀ y, P (.reference y) → names y) (hρ : ρ.IsOneToOne)
    (hw : World.Renamed ρ names w w') {st st' : Step} (hst : st.Renamed ρ st')
    (hcode : st.CodeIn P) {v v' : Value} (hv : v.Renamed ρ v') (hq : Queue.Renamed ρ q q') :
    ∃ ρ', Matched ρ names w w' (step st v q w) (step st' v' q' w') ρ' := by
  cases hst with
  | evaluate e hf => exact proceed_renamed hρ hw hq hf e
  | literal hu => exact ⟨ρ, .same hρ hw (.ok hu hq)⟩
  | reference y hf =>
    rw [step, step]
    rcases hw.lookup_rel (hnames y hcode) hf with ⟨u, u', hu, hu', hr⟩ | ⟨hu, hu'⟩
    · rw [hu, hu']
      exact ⟨ρ, .same hρ hw (.ok hr hq)⟩
    · rw [hu, hu']
      exact ⟨ρ, .same hρ hw (.error _)⟩
  | join hc =>
    exact ⟨ρ, .of_world hρ (.ok hv hq) (hw.collect hρ.call hc hv) rfl rfl⟩
  | apply hc hf =>
    obtain ⟨vs, vs', hvs, hvs', hr⟩ := hw.call hc
    rw [step, step, World.collected, World.collected, hvs, hvs', Option.getD_some,
      Option.getD_some]
    cases hr with
    | nil => exact ⟨ρ, .same hρ hw (.error _)⟩
    | cons hfn hargs => exact apply_renamed hρ hw hq hfn hargs
  | branch t a hf =>
    -- both conditions are false or neither is, so the branches go the same way
    by_cases hfalse : v.isFalse = true
    · have hfalse' : v'.isFalse = true := by rwa [← hv.isFalse_eq]
      cases a with
      | none =>
        rw [step, step, if_pos hfalse, if_pos hfalse']
        exact ⟨ρ, .same hρ hw (.ok .undefined hq)⟩
      | some e =>
        rw [step, step, if_pos hfalse, if_pos hfalse']
        exact proceed_renamed hρ hw hq hf e
    · have hfalse' : ¬v'.isFalse = true := by rwa [← hv.isFalse_eq]
      rw [step.eq_def, step.eq_def]
      simp only [hfalse, hfalse', if_false, Bool.false_eq_true]
      exact proceed_renamed hρ hw hq hf t
  | @define f f' y hf =>
    -- the step has lost the definition that it came from, which mentions the name
    obtain ⟨e, he⟩ := hcode
    have hy : names y := hnames y (hP he (.reference y) (by simp))
    rw [step, step, World.define, World.define, ← hw.binds_eq hy hf]
    by_cases hb : w.binds f y = true
    · simp only [hb, if_true]
      exact ⟨ρ, .same hρ hw (.error _)⟩
    · simp only [hb, Bool.false_eq_true, if_false]
      exact ⟨ρ, .of_world hρ (.ok .undefined hq) ((hw.bind hρ.frame hf y hv).note _ _) rfl rfl⟩
  | @closure f f' params body hf =>
    have hgrows := ρ.grows_addSerial w w'
    exact ⟨_, hgrows, hw.addSerial_isOneToOne hρ, hw.newClosure params body f f',
      .ok (.closure params body (ρ.addSerial_serial _ _) hf) (hq.mono hgrows.toLe),
      #[], Array.append_empty.symm, Array.append_empty.symm⟩

/-! ## Steps of others -/

/-- A step taken by somebody else does not show, if it defines no name of the vocabulary in a frame
that has a counterpart, and joins no value to a record that has one. -/
theorem World.Renamed.of_effect (h : World.Renamed ρ names w w') {st : Step} {v : Value}
    {x : World} (he : Effect st v w' x)
    (hdefine : ∀ {f f' y}, ρ.frame f f' → st = .define y f' → ¬names y)
    (hjoin : ∀ {c c'}, ρ.call c c' → st ≠ .join c') : World.Renamed ρ names w x where
  frame hf := by
    obtain ⟨F, F', hF, hF', hr⟩ := h.frame hf
    rcases he.frame hF' with hx | ⟨y, hst, -, hx⟩
    · exact ⟨F, F', hF, hx, hr⟩
    · refine ⟨F, F'.push y v, hF, hx, hr.outer, fun z hz ↦ ?_⟩
      have hzy : z ≠ y := by
        rintro rfl
        exact hdefine hf hst hz
      rw [Frame.value?_push, if_neg hzy, Option.or_none]
      exact hr.value z hz
  call hc := by
    obtain ⟨vs, vs', hvs, hvs', hr⟩ := h.call hc
    rcases he.call hvs' with hx | ⟨hst, -⟩
    · exact ⟨vs, vs', hvs, hx, hr⟩
    · exact absurd hst (hjoin hc)
  serial hn := ⟨(h.serial hn).1, Nat.lt_of_lt_of_le (h.serial hn).2 he.closures_le⟩

end Matching

end Interleave

import Interleave.Proofs.Machine
import Interleave.Proofs.Step

/-!
# Where the code of a program can get to

A program never makes expressions. What it evaluates is a part of its own text, or of the body of a
closure, which was a part of some text as well. So a property of expressions that goes over from a
compound to its elements, once it holds of all the code in a configuration, holds of all the code in
it for ever (`Steps.codeIn`).

Code is kept in four places: in the steps of a queue, in the current value, in the frames, and in
the records of calls. A step that looks up or defines a name has no expression left, and stands for
the reference or the definition that it came from.

## How it is used

Properties that are inherited in this way are those of the vocabulary, that only certain names
occur, and of the numbers, that all of them can be written. Each use gives the property as a
predicate on expressions and gets it for every step that is ever taken. For special forms
`Form.ofParts_eq_ok` is needed, which says what expressions of the compound their parts are. For
closures it is enough that a body is a part of the form that made it.
-/

namespace Interleave

/-- The property goes over from compounds to their elements. -/
def Hereditary (P : Expr → Prop) : Prop :=
  ∀ {es : List Expr}, P (.compound es) → ∀ e ∈ es, P e

/-! ## Code in values, steps and worlds -/

/-- The body of the function, if the value is one that a program made, has the property. -/
def Value.CodeIn (P : Expr → Prop) : Value → Prop
  | .closure c => ∀ e ∈ c.body, P e
  | .int _ | .bool _ | .str _ | .undefined | .primitive _ => True

/-- The expressions of the step have the property, or the one that it came from has. -/
def Step.CodeIn (P : Expr → Prop) : Step → Prop
  | .evaluate e _ => P e
  | .literal v => v.CodeIn P
  | .reference x _ => P (.reference x)
  | .branch t a _ => P t ∧ ∀ e ∈ a, P e
  | .define x _ => ∃ e, P (.compound [.reference SpecialForm.definition.name, .reference x, e])
  | .closure _ body _ => ∀ e ∈ body, P e
  | .join _ | .apply .. => True

/-- All code in frames and in records of calls has the property. -/
structure World.CodeIn (P : Expr → Prop) (w : World) : Prop where
  /-- The values that frames bind. -/
  frame : ∀ {f : FrameId} {F : Frame}, w.frames[f]? = some F → ∀ b ∈ F.bindings, b.2.CodeIn P
  /-- The values collected for calls. -/
  call : ∀ {c : CallId} {vs : List Value}, w.calls[c]? = some vs → ∀ v ∈ vs, v.CodeIn P

/-- All code in a configuration has the property. -/
structure Machine.Config.CodeIn (P : Expr → Prop) (c : Config) : Prop where
  /-- The code of the current value. -/
  current : c.current.CodeIn P
  /-- The code still to be evaluated. -/
  queue : ∀ st ∈ c.queue, st.CodeIn P
  /-- The code in the world. -/
  world : c.world.CodeIn P

/-! ## Bindings -/

namespace Bindings

theorem mem_insert {bs : Bindings} {x : String} {v : Value} {b : String × Value}
    (h : b ∈ bs.insert x v) : b = (x, v) ∨ b ∈ bs := by
  fun_induction insert bs x v with
  | case1 => exact .inl (List.mem_singleton.mp h)
  | case2 u rest =>
    rcases List.mem_cons.mp h with h | h
    · exact .inl h
    · exact .inr (List.mem_cons_of_mem _ h)
  | case3 y u rest hne ih =>
    rcases List.mem_cons.mp h with h | h
    · exact .inr (h ▸ List.mem_cons_self)
    · exact (ih h).imp_right (List.mem_cons_of_mem _)

theorem mem_foldl_insert {pairs : List (String × Value)} {bs : Bindings} {b : String × Value}
    (h : b ∈ pairs.foldl (fun bs (x, v) ↦ bs.insert x v) bs) : b ∈ pairs ∨ b ∈ bs := by
  induction pairs generalizing bs with
  | nil => exact .inr h
  | cons p pairs ih =>
    rcases ih h with h | h
    · exact .inl (List.mem_cons_of_mem _ h)
    · rcases mem_insert h with rfl | h
      · exact .inl List.mem_cons_self
      · exact .inr h

theorem mem_of_mem_ofPairs {pairs : List (String × Value)} {b : String × Value}
    (h : b ∈ ofPairs pairs) : b ∈ pairs := by
  rcases mem_foldl_insert h with h | h
  · exact h
  · cases h

end Bindings

theorem Frame.mem_of_value? {F : Frame} {x : String} {v : Value} (h : F.value? x = some v) :
    (x, v) ∈ F.bindings := by
  rw [value?] at h
  obtain ⟨l₁, l₂, heq, -⟩ := List.lookup_eq_some_iff.mp h
  rw [heq]
  exact List.mem_append_right _ List.mem_cons_self

theorem World.exists_mem_of_lookup {w : World} {f : FrameId} {x : String} {v : Value}
    (h : w.lookup f x = .ok v) : ∃ (g : FrameId) (F : Frame), w.frames[g]? = some F ∧
      (x, v) ∈ F.bindings := by
  rw [lookup] at h
  split at h
  · rename_i u hu
    cases h
    obtain ⟨g, -, hg⟩ := Option.bind_eq_some_iff.mp hu
    obtain ⟨F, hF, hv⟩ := Option.bind_eq_some_iff.mp hg
    exact ⟨g, F, hF, Frame.mem_of_value? hv⟩
  · cases h

/-! ## Special forms -/

theorem Expr.eq_of_specialForm? {es parts : List Expr} {k : SpecialForm}
    (h : Expr.specialForm? es = some (k, parts)) : es = .reference k.name :: parts := by
  rw [Expr.specialForm?.eq_def] at h
  split at h
  · rename_i x rest
    obtain ⟨k', hk, heq⟩ := Option.map_eq_some_iff.mp h
    cases heq
    rw [SpecialForm.ofName?_eq_some_iff.mp hk]
  · cases h

theorem Form.ofParts_eq_ok {k : SpecialForm} {parts : List Expr} {fm : Form}
    (h : Form.ofParts k parts = .ok fm) :
    (∃ c t, k = .conditional ∧ parts = [c, t] ∧ fm = .conditional c t none) ∨
    (∃ c t e, k = .conditional ∧ parts = [c, t, e] ∧ fm = .conditional c t (some e)) ∨
    (∃ x e, k = .definition ∧ parts = [.reference x, e] ∧ fm = .definition x e) ∨
    ∃ params e body names, k = .lambda ∧ parts = params :: e :: body ∧
      parameters params = .ok names ∧ fm = .lambda names (e :: body) := by
  rw [Form.ofParts.eq_def] at h
  split at h
  · cases h; exact .inl ⟨_, _, rfl, rfl, rfl⟩
  · cases h; exact .inr (.inl ⟨_, _, _, rfl, rfl, rfl⟩)
  · cases h
  · cases h; exact .inr (.inr (.inl ⟨_, _, rfl, rfl, rfl⟩))
  · cases h
  · cases h
  · rename_i params e body
    cases hp : parameters params with
    | error f => rw [hp] at h; cases h
    | ok names =>
      rw [hp] at h
      cases h
      exact .inr (.inr (.inr ⟨_, _, _, names, rfl, rfl, hp, rfl⟩))
  · cases h

/-! ## Worlds keep the code -/

namespace World.CodeIn

variable {P : Expr → Prop} {w : World}

theorem newFrame (hw : w.CodeIn P) {cl : Closure} {args : List Value}
    (hargs : ∀ u ∈ args, u.CodeIn P) :
    (w.newFrame (some cl.frame) (Bindings.ofPairs (cl.params.zip args))).2.CodeIn P where
  frame {f F} hf := by
    rw [World.newFrame, Array.getElem?_push] at hf
    split at hf
    · cases hf
      intro b hb
      exact hargs b.2 (List.of_mem_zip (Bindings.mem_of_mem_ofPairs hb)).2
    · exact hw.frame hf
  call := hw.call

theorem bind (hw : w.CodeIn P) (f : FrameId) (x : String) {v : Value} (hv : v.CodeIn P) :
    (w.bind f x v).CodeIn P where
  frame {g F} hg := by
    rw [World.bind, Array.getElem?_modify] at hg
    split at hg
    · obtain ⟨F', hF', rfl⟩ := Option.map_eq_some_iff.mp hg
      intro b hb
      rcases List.mem_append.mp hb with hb | hb
      · exact hw.frame hF' b hb
      · rw [List.mem_singleton.mp hb]
        exact hv
    · exact hw.frame hg
  call := hw.call

theorem note (hw : w.CodeIn P) (n : Note) : (w.note n).CodeIn P where
  frame := hw.frame
  call := hw.call

theorem newCall (hw : w.CodeIn P) {vs : List Value} (hvs : ∀ u ∈ vs, u.CodeIn P) :
    (w.newCall vs).2.CodeIn P where
  frame := hw.frame
  call {c us} hc := by
    rw [World.newCall, Array.getElem?_push] at hc
    split at hc
    · cases hc; exact hvs
    · exact hw.call hc

theorem collect (hw : w.CodeIn P) (c : CallId) {v : Value} (hv : v.CodeIn P) :
    (w.collect c v).CodeIn P where
  frame := hw.frame
  call {c' vs} hc := by
    rw [World.collect, Array.getElem?_modify] at hc
    split at hc
    · obtain ⟨us, hus, rfl⟩ := Option.map_eq_some_iff.mp hc
      intro u hu
      rcases List.mem_append.mp hu with hu | hu
      · exact hw.call hus u hu
      · rw [List.mem_singleton.mp hu]
        exact hv
    · exact hw.call hc

theorem collected (hw : w.CodeIn P) (c : CallId) : ∀ u ∈ w.collected c, u.CodeIn P := by
  intro u hu
  rw [World.collected] at hu
  cases hget : w.calls[c]? with
  | none => rw [hget] at hu; cases hu
  | some us => rw [hget] at hu; exact hw.call hget u hu

theorem lookup (hw : w.CodeIn P) {f : FrameId} {x : String} {v : Value}
    (h : w.lookup f x = .ok v) : v.CodeIn P := by
  obtain ⟨g, F, hF, hmem⟩ := World.exists_mem_of_lookup h
  exact hw.frame hF _ hmem

end World.CodeIn

/-! ## Steps keep the code -/

namespace Machine

variable {P : Expr → Prop} {st : Step} {v : Value} {q : Queue} {w w' : World}

theorem Proceeds.codeIn {e : Expr} {frame : FrameId} (h : Proceeds v st e frame)
    (hst : st.CodeIn P) : P e := by
  cases h with
  | evaluate => exact hst
  | consequent => exact hst.1
  | alternative => exact hst.2 _ rfl

theorem codeIn_callSteps (hP : Hereditary P) {es : List Expr} {frame : FrameId} {c : CallId}
    (h : P (.compound es)) : ∀ s ∈ callSteps frame c es, s.CodeIn P := by
  intro s hs
  rcases List.mem_append.mp hs with hs | hs
  · obtain ⟨e, he, hs⟩ := List.mem_flatMap.mp hs
    rcases List.mem_cons.mp hs with rfl | hs
    · exact hP h e he
    · rw [List.mem_singleton.mp hs]
      trivial
  · rw [List.mem_singleton.mp hs]
    trivial

theorem codeIn_formSteps (hP : Hereditary P) {es parts : List Expr} {k : SpecialForm} {fm : Form}
    {frame : FrameId} (h : P (.compound es)) (hform : Expr.specialForm? es = some (k, parts))
    (hparts : Form.ofParts k parts = .ok fm) : ∀ s ∈ formSteps frame fm, s.CodeIn P := by
  obtain rfl := Expr.eq_of_specialForm? hform
  have hpart : ∀ e ∈ parts, P e := fun e he ↦ hP h e (List.mem_cons_of_mem _ he)
  intro s hs
  rcases Form.ofParts_eq_ok hparts with ⟨c, t, rfl, rfl, rfl⟩ | ⟨c, t, e, rfl, rfl, rfl⟩ |
      ⟨x, e, rfl, rfl, rfl⟩ | ⟨params, e, body, names, rfl, rfl, -, rfl⟩
  · rcases List.mem_cons.mp hs with rfl | hs
    · exact hpart c (by simp)
    · rw [List.mem_singleton.mp hs]
      exact ⟨hpart t (by simp), by simp⟩
  · rcases List.mem_cons.mp hs with rfl | hs
    · exact hpart c (by simp)
    · rw [List.mem_singleton.mp hs]
      exact ⟨hpart t (by simp), by simpa using hpart e (by simp)⟩
  · rcases List.mem_cons.mp hs with rfl | hs
    · exact hpart e (by simp)
    · -- the step keeps the name only; the compound stands in for the definition
      rw [List.mem_singleton.mp hs]
      exact ⟨e, h⟩
  · rw [List.mem_singleton.mp hs]
    exact fun e' he' ↦ hpart e' (List.mem_cons_of_mem _ he')

theorem codeIn_result {p : Primitive} {args : List Value} {u : Value}
    (h : p.result args = .ok u) : u.CodeIn P := by
  rcases result_eq_ok h with ⟨n, rfl⟩ | ⟨b, rfl⟩ | rfl <;> trivial

/-- **Steps keep the code**, whether they fail or not. -/
theorem step_codeIn (hP : Hereditary P) {r : Except Fault (Value × Queue)}
    (hst : st.CodeIn P) (hv : v.CodeIn P) (hq : ∀ s ∈ q, s.CodeIn P) (hw : w.CodeIn P)
    (h : step st v q w = (r, w')) :
    w'.CodeIn P ∧ ∀ v' q', r = .ok (v', q') → v'.CodeIn P ∧ ∀ s ∈ q', s.CodeIn P := by
  -- what is put in front of the queue is all that has to be looked at
  have hnew : ∀ {qs : List Step}, (∀ s ∈ qs, s.CodeIn P) → ∀ s ∈ qs ++ q, s.CodeIn P := by
    intro qs hqs s hs
    rcases List.mem_append.mp hs with hs | hs
    · exact hqs s hs
    · exact hq s hs
  cases stepped_of_step h with
  | number hpr =>
    exact ⟨hw, by rintro _ _ ⟨⟩; exact ⟨trivial, List.forall_mem_cons.mpr ⟨trivial, hq⟩⟩⟩
  | string hpr =>
    exact ⟨hw, by rintro _ _ ⟨⟩; exact ⟨trivial, List.forall_mem_cons.mpr ⟨trivial, hq⟩⟩⟩
  | name hpr =>
    exact ⟨hw, by
      rintro _ _ ⟨⟩; exact ⟨trivial, List.forall_mem_cons.mpr ⟨hpr.codeIn hst, hq⟩⟩⟩
  | call hpr hform =>
    refine ⟨hw.newCall (List.forall_mem_nil _), ?_⟩
    rintro _ _ ⟨⟩
    exact ⟨trivial, hnew (codeIn_callSteps hP (hpr.codeIn hst))⟩
  | form hpr hform hparts =>
    refine ⟨hw.note _, ?_⟩
    rintro _ _ ⟨⟩
    exact ⟨trivial, hnew (codeIn_formSteps hP (hpr.codeIn hst) hform hparts)⟩
  | malformed => exact ⟨hw.note _, by simp⟩
  | nothing => exact ⟨hw, by rintro _ _ ⟨⟩; exact ⟨trivial, hq⟩⟩
  | literal hl =>
    subst hl
    exact ⟨hw, by rintro _ _ ⟨⟩; exact ⟨hst, hq⟩⟩
  | found hl hx => exact ⟨hw, by rintro _ _ ⟨⟩; exact ⟨hw.lookup hx, hq⟩⟩
  | joined hl => exact ⟨hw.collect _ hv, by rintro _ _ ⟨⟩; exact ⟨hv, hq⟩⟩
  | primitive hl hc hcall =>
    obtain ⟨hr, rfl⟩ := call_ok hcall
    refine ⟨?_, by rintro _ _ ⟨⟩; exact ⟨codeIn_result hr, hq⟩⟩
    rename_i p args u
    cases p <;> exact ⟨hw.frame, hw.call⟩
  | entered hl hc hargs =>
    have hcode := hc ▸ hw.collected _
    refine ⟨hw.newFrame fun u hu ↦ hcode u (List.mem_cons_of_mem _ hu), ?_⟩
    rintro _ _ ⟨⟩
    refine ⟨trivial, hnew fun s hs ↦ ?_⟩
    obtain ⟨e, he, rfl⟩ := List.mem_map.mp hs
    exact hcode _ List.mem_cons_self e he
  | defined hl hx =>
    exact ⟨(hw.bind _ _ hv).note _, by rintro _ _ ⟨⟩; exact ⟨trivial, hq⟩⟩
  | closure hl =>
    subst hl
    exact ⟨⟨hw.frame, hw.call⟩, by rintro _ _ ⟨⟩; exact ⟨hst, hq⟩⟩
  | unbound | emptyCall | refused | miscounted | notFunction | duplicate => exact ⟨hw, by simp⟩

theorem Steps.codeIn (hP : Hereditary P) {n : Nat} {c c' : Config} (h : Steps n c c')
    (hc : c.CodeIn P) : c'.CodeIn P := by
  induction h with
  | refl => exact hc
  | head first _ ih =>
    have hst := hc.queue _ List.mem_cons_self
    have hq := fun s hs ↦ hc.queue s (List.mem_cons_of_mem _ hs)
    obtain ⟨hw, hok⟩ := step_codeIn hP hst hc.current hq hc.world first
    obtain ⟨hv', hq'⟩ := hok _ _ rfl
    exact ih ⟨hv', hq', hw⟩

end Machine

/-! ## The beginning -/

theorem World.frames_fresh : World.fresh.frames = #[⟨none, World.builtins⟩] := rfl

theorem World.builtins_ne_closure {b : String × Value} (hb : b ∈ World.builtins) (cl : Closure) :
    b.2 ≠ .closure cl := by
  simp only [World.builtins, List.mem_append, List.mem_map, List.mem_cons, List.not_mem_nil,
    or_false] at hb
  rcases hb with ⟨p, -, rfl⟩ | rfl | rfl <;> simp

theorem World.fresh_codeIn (P : Expr → Prop) : World.fresh.CodeIn P where
  frame {f F} hf b hb := by
    rw [World.frames_fresh, Array.getElem?_singleton] at hf
    split at hf
    · cases hf
      obtain ⟨x, v⟩ := b
      cases v with
      | closure cl => exact absurd rfl (World.builtins_ne_closure hb cl)
      | int | bool | str | undefined | primitive => trivial
    · cases hf
  call {c vs} hc := by cases hc

theorem Machine.codeIn_ofProgram {P : Expr → Prop} {program : List Expr}
    (h : ∀ e ∈ program, P e) {w : World} (hw : w.CodeIn P) (frame : FrameId) :
    (Config.ofProgram program frame w).CodeIn P where
  current := trivial
  queue st hst := by
    obtain ⟨e, he, rfl⟩ := List.mem_map.mp hst
    exact h e he
  world := hw

end Interleave

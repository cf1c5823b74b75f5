import Interleave.Proofs.Code

/-!
# Nothing refers to what is not there

Frames and closures are known by numbers, and a number could stand for nothing. In the worlds that
programs lead to this does not happen: a closure was made before, in a frame that exists, and a
frame lies in an older one. Such worlds are *intact*. A fresh world is, and so is every world in
which programs were evaluated (`intact_evaluate`).

Numbers are never taken back, so what is intact stays so when the world grows.

## What has to be intact

A number can come from a value, from a step in some queue, from a frame that names its outer frame,
or from a record of a call. All four are covered: `Value.Intact` and `Step.Intact` are relative to a
world, and `World.Intact` says it of all that the world holds. Records of calls are asked for
nothing but their values, since a step that names a record which is not there finds it empty.

That frames lie in older frames is part of it. Names are then looked up along a chain that ends, and
no link of the chain is cut by the test in `World.find?`, which makes the look-up terminate for
worlds of any shape.
-/

namespace Interleave

/-! ## Intact values, steps and worlds -/

/-- The closure, if the value is one, was made in the world, in a frame of the world. -/
def Value.Intact (w : World) : Value → Prop
  | .closure c => c.serial < w.closures ∧ c.frame < w.frames.size
  | .int _ | .bool _ | .str _ | .undefined | .primitive _ => True

/-- The step works in a frame of the world. -/
def Step.Intact (w : World) : Step → Prop
  | .evaluate _ f | .reference _ f | .apply _ f | .branch _ _ f | .define _ f | .closure _ _ f =>
    f < w.frames.size
  | .literal v => v.Intact w
  | .join _ => True

/-- Frames lie in older frames, and all values in frames and records of calls are intact. -/
structure World.Intact (w : World) : Prop where
  outer : ∀ {f g : FrameId} {F : Frame}, w.frames[f]? = some F → F.outer = some g → g < f
  frame : ∀ {f : FrameId} {F : Frame}, w.frames[f]? = some F → ∀ b ∈ F.bindings, b.2.Intact w
  call : ∀ {c : CallId} {vs : List Value}, w.calls[c]? = some vs → ∀ v ∈ vs, v.Intact w

/-- Frames and closures were added to a world, if anything. -/
structure World.Grown (w w' : World) : Prop where
  frames : w.frames.size ≤ w'.frames.size
  closures : w.closures ≤ w'.closures

section Grown

variable {w w' : World}

theorem World.Grown.of_eq (hframes : w'.frames.size = w.frames.size)
    (hclosures : w'.closures = w.closures) : w.Grown w' :=
  ⟨Nat.le_of_eq hframes.symm, Nat.le_of_eq hclosures.symm⟩

theorem Value.Intact.mono {v : Value} (hw : w.Grown w') (h : v.Intact w) : v.Intact w' := by
  cases v with
  | closure c => exact ⟨Nat.lt_of_lt_of_le h.1 hw.closures, Nat.lt_of_lt_of_le h.2 hw.frames⟩
  | int | bool | str | undefined | primitive => trivial

theorem Step.Intact.mono {st : Step} (hw : w.Grown w') (h : st.Intact w) : st.Intact w' := by
  cases st with
  | literal v => exact Value.Intact.mono hw h
  | join c => trivial
  | evaluate | reference | apply | branch | define | closure =>
    exact Nat.lt_of_lt_of_le h hw.frames

end Grown

/-! ## Changes to worlds -/

namespace World.Intact

variable {w : World} (hw : w.Intact)

include hw

theorem congr {w' : World} (hframes : w'.frames = w.frames) (hcalls : w'.calls = w.calls)
    (hclosures : w.closures ≤ w'.closures) : w'.Intact := by
  have hgrown : w.Grown w' := ⟨Nat.le_of_eq (by rw [hframes]), hclosures⟩
  refine ⟨fun hf ↦ ?_, fun hf b hb ↦ ?_, fun hc v hv ↦ ?_⟩
  · rw [hframes] at hf
    exact hw.outer hf
  · rw [hframes] at hf
    exact (hw.frame hf b hb).mono hgrown
  · rw [hcalls] at hc
    exact (hw.call hc v hv).mono hgrown

theorem newFrame {outer : Option FrameId} (houter : ∀ g, outer = some g → g < w.frames.size)
    {bs : Bindings} (hbs : ∀ b ∈ bs, b.2.Intact w) : (w.newFrame outer bs).2.Intact := by
  have hgrown : w.Grown (w.newFrame outer bs).2 :=
    ⟨by rw [World.newFrame, Array.size_push]; exact Nat.le_succ _, Nat.le_refl _⟩
  refine ⟨fun {f g F} hf hg ↦ ?_, fun {f F} hf b hb ↦ ?_, fun hc v hv ↦ ?_⟩
  · rw [World.newFrame, Array.getElem?_push] at hf
    split at hf
    · cases hf
      rename_i hlast
      exact hlast ▸ houter g hg
    · exact hw.outer hf hg
  · rw [World.newFrame, Array.getElem?_push] at hf
    split at hf
    · cases hf
      exact (hbs b hb).mono hgrown
    · exact (hw.frame hf b hb).mono hgrown
  · exact (hw.call hc v hv).mono hgrown

/-- The frame of a call lies in the frame of the closure and binds parameters to arguments. -/
theorem callFrame {outer : FrameId} (houter : outer < w.frames.size) (params : List String)
    {args : List Value} (hargs : ∀ v ∈ args, v.Intact w) :
    (w.newFrame (some outer) (Bindings.ofPairs (params.zip args))).2.Intact :=
  hw.newFrame (fun _ hg ↦ Option.some.inj hg ▸ houter) fun _ hb ↦
    hargs _ (List.of_mem_zip (Bindings.mem_of_mem_ofPairs hb)).2

theorem bind (f : FrameId) (x : String) {v : Value} (hv : v.Intact w) : (w.bind f x v).Intact := by
  have hgrown : w.Grown (w.bind f x v) := .of_eq Array.size_modify rfl
  have hframe : ∀ {g : FrameId} {F : Frame}, (w.bind f x v).frames[g]? = some F →
      ∃ F', w.frames[g]? = some F' ∧ F.outer = F'.outer ∧
        ∀ b ∈ F.bindings, b ∈ F'.bindings ∨ b = (x, v) := by
    intro g F hg
    rw [World.bind, Array.getElem?_modify] at hg
    split at hg
    · obtain ⟨F', hF', rfl⟩ := Option.map_eq_some_iff.mp hg
      refine ⟨F', hF', rfl, fun b hb ↦ ?_⟩
      exact (List.mem_append.mp hb).imp_right List.mem_singleton.mp
    · exact ⟨F, hg, rfl, fun b hb ↦ .inl hb⟩
  refine ⟨fun hF hg ↦ ?_, fun hF b hb ↦ ?_, fun hc u hu ↦ ?_⟩
  · obtain ⟨F', hF', houter, -⟩ := hframe hF
    exact hw.outer hF' (houter ▸ hg)
  · obtain ⟨F', hF', -, hbindings⟩ := hframe hF
    rcases hbindings b hb with hb | rfl
    · exact (hw.frame hF' b hb).mono hgrown
    · exact hv.mono hgrown
  · exact (hw.call hc u hu).mono hgrown

theorem newCall : (w.newCall []).2.Intact := by
  refine ⟨hw.outer, hw.frame, fun {c vs} hc v hv ↦ ?_⟩
  rw [World.newCall, Array.getElem?_push] at hc
  split at hc
  · cases hc
    cases hv
  · exact hw.call hc v hv

theorem collect (c : CallId) {v : Value} (hv : v.Intact w) : (w.collect c v).Intact := by
  refine ⟨hw.outer, hw.frame, fun {d vs} hd u hu ↦ ?_⟩
  rw [World.collect, Array.getElem?_modify] at hd
  split at hd
  · obtain ⟨us, hus, rfl⟩ := Option.map_eq_some_iff.mp hd
    rcases List.mem_append.mp hu with hu | hu
    · exact hw.call hus u hu
    · rw [List.mem_singleton.mp hu]
      exact hv
  · exact hw.call hd u hu

theorem collected (c : CallId) : ∀ v ∈ w.collected c, v.Intact w := by
  intro v hv
  rw [World.collected] at hv
  cases hc : w.calls[c]? with
  | none => rw [hc] at hv; cases hv
  | some vs => rw [hc] at hv; exact hw.call hc v hv

theorem lookup {f : FrameId} {x : String} {v : Value} (h : w.lookup f x = .ok v) : v.Intact w := by
  obtain ⟨g, F, hF, hmem⟩ := World.exists_mem_of_lookup h
  exact hw.frame hF _ hmem

end World.Intact

/-! ## Steps and runs -/

namespace Machine

variable {st : Step} {v : Value} {q : Queue} {w w' : World}

theorem Proceeds.intact {e : Expr} {frame : FrameId} (h : Proceeds v st e frame)
    (hst : st.Intact w) : frame < w.frames.size := by
  cases h with
  | evaluate => exact hst
  | consequent => exact hst
  | alternative => exact hst

theorem intact_ofProgram {frame : FrameId} (hframe : frame < w.frames.size) (es : List Expr) :
    ∀ s ∈ Queue.ofProgram es frame, s.Intact w := by
  intro s hs
  obtain ⟨e, -, rfl⟩ := List.mem_map.mp hs
  exact hframe

theorem intact_callSteps {frame : FrameId} (hframe : frame < w.frames.size) (c : CallId)
    (es : List Expr) : ∀ s ∈ callSteps frame c es, s.Intact w := by
  intro s hs
  rcases List.mem_append.mp hs with hs | hs
  · obtain ⟨e, -, hs⟩ := List.mem_flatMap.mp hs
    rcases List.mem_cons.mp hs with rfl | hs
    · exact hframe
    · rw [List.mem_singleton.mp hs]
      trivial
  · rw [List.mem_singleton.mp hs]
    exact hframe

theorem intact_formSteps {frame : FrameId} (hframe : frame < w.frames.size) (fm : Form) :
    ∀ s ∈ formSteps frame fm, s.Intact w := by
  intro s hs
  cases fm with
  | conditional c t e | definition x e =>
    rcases List.mem_cons.mp hs with rfl | hs
    · exact hframe
    · rw [List.mem_singleton.mp hs]
      exact hframe
  | lambda params body =>
    rw [List.mem_singleton.mp hs]
    exact hframe

theorem call_intact {p : Primitive} {args : List Value} {u : Value} (hw : w.Intact)
    (h : p.call args w = (.ok u, w')) :
    w'.frames = w.frames ∧ w'.closures = w.closures ∧ w'.Intact ∧ u.Intact w' := by
  obtain ⟨hr, rfl⟩ := call_ok h
  have hframes : (p.effect args w).frames = w.frames := by cases p <;> rfl
  have hcalls : (p.effect args w).calls = w.calls := by cases p <;> rfl
  have hclosures : (p.effect args w).closures = w.closures := by cases p <;> rfl
  refine ⟨hframes, hclosures, hw.congr hframes hcalls (Nat.le_of_eq hclosures.symm), ?_⟩
  rcases result_eq_ok hr with ⟨n, rfl⟩ | ⟨b, rfl⟩ | rfl <;> trivial

/-- What is left by a step that succeeds is intact if its parts are. -/
theorem intact_ok {v' : Value} {q' : Queue} (hgrown : w.Grown w') (hw' : w'.Intact)
    (hv' : v'.Intact w') (hq' : ∀ s ∈ q', s.Intact w') :
    w.Grown w' ∧ w'.Intact ∧
      ∀ v'' q'', (.ok (v', q') : Except Fault (Value × Queue)) = .ok (v'', q'') →
        v''.Intact w' ∧ ∀ s ∈ q'', s.Intact w' := by
  refine ⟨hgrown, hw', ?_⟩
  rintro _ _ ⟨⟩
  exact ⟨hv', hq'⟩

/-- **Steps keep all intact**, whether they fail or not. -/
theorem step_intact {r : Except Fault (Value × Queue)} (hst : st.Intact w) (hv : v.Intact w)
    (hq : ∀ s ∈ q, s.Intact w) (hw : w.Intact) (h : step st v q w = (r, w')) :
    w.Grown w' ∧ w'.Intact ∧
      ∀ v' q', r = .ok (v', q') → v'.Intact w' ∧ ∀ s ∈ q', s.Intact w' := by
  have hsame : w.Grown w := .of_eq rfl rfl
  -- what is put in front of the queue is all that has to be looked at
  have hfront : ∀ {x : World} {qs : List Step}, w.Grown x → (∀ s ∈ qs, s.Intact x) →
      ∀ s ∈ qs ++ q, s.Intact x := by
    intro x qs hx hqs s hs
    rcases List.mem_append.mp hs with hs | hs
    · exact hqs s hs
    · exact (hq s hs).mono hx
  cases stepped_of_step h with
  | number hproceeds | string hproceeds =>
    exact intact_ok hsame hw trivial (List.forall_mem_cons.mpr ⟨trivial, hq⟩)
  | name hproceeds =>
    exact intact_ok hsame hw trivial (List.forall_mem_cons.mpr ⟨hproceeds.intact hst, hq⟩)
  | call hproceeds _ =>
    exact intact_ok (.of_eq rfl rfl) hw.newCall trivial
      (hfront (.of_eq rfl rfl) (intact_callSteps (hproceeds.intact hst) _ _))
  | form hproceeds _ _ =>
    exact intact_ok (.of_eq rfl rfl) (hw.congr rfl rfl (Nat.le_refl _)) trivial
      (hfront (.of_eq rfl rfl) (intact_formSteps (hproceeds.intact hst) _))
  | malformed => exact ⟨.of_eq rfl rfl, hw.congr rfl rfl (Nat.le_refl _), by simp⟩
  | nothing => exact intact_ok hsame hw trivial hq
  | literal hliteral =>
    subst hliteral
    exact intact_ok hsame hw hst hq
  | found _ hx => exact intact_ok hsame hw (hw.lookup hx) hq
  | joined => exact intact_ok (.of_eq rfl rfl) (hw.collect _ hv) hv hq
  | primitive _ _ hcall =>
    obtain ⟨hframes, hclosures, hw', hu⟩ := call_intact hw hcall
    have hgrown : w.Grown w' := .of_eq (by rw [hframes]) hclosures
    exact intact_ok hgrown hw' hu fun s hs ↦ (hq s hs).mono hgrown
  | @entered c frame cl args _ hc hargs =>
    -- the record holds the closure and its arguments, which are intact as all records are
    have hvalues := hc ▸ hw.collected c
    have hframe : cl.frame < w.frames.size := (hvalues _ List.mem_cons_self).2
    have hsize : w.frames.size < (w.newFrame (some cl.frame)
        (Bindings.ofPairs (cl.params.zip args))).2.frames.size := by
      rw [World.newFrame, Array.size_push]
      exact Nat.lt_succ_self _
    have hgrown : w.Grown (w.newFrame (some cl.frame) (Bindings.ofPairs (cl.params.zip args))).2 :=
      ⟨Nat.le_of_lt hsize, Nat.le_refl _⟩
    have hcall := hw.callFrame hframe cl.params fun u hu ↦ hvalues u (List.mem_cons_of_mem _ hu)
    exact intact_ok hgrown hcall trivial (hfront hgrown (intact_ofProgram hsize _))
  | @defined x frame _ _ =>
    have hgrown : w.Grown ((w.bind frame x v).note (.defined x)) := .of_eq Array.size_modify rfl
    exact intact_ok hgrown ((hw.bind frame x hv).congr rfl rfl (Nat.le_refl _)) trivial
      fun s hs ↦ (hq s hs).mono hgrown
  | @closure params body frame hclosure =>
    subst hclosure
    have hgrown : w.Grown (w.newClosure params body frame).2 := ⟨Nat.le_refl _, Nat.le_succ _⟩
    exact intact_ok hgrown (hw.congr rfl rfl (Nat.le_succ _)) ⟨Nat.lt_succ_self _, hst⟩
      fun s hs ↦ (hq s hs).mono hgrown
  | unbound | emptyCall | refused | miscounted | notFunction | duplicate =>
    exact ⟨hsame, hw, by simp⟩

theorem run_intact {log : Option Log} {fuel : Nat} {o : Outcome Value} (hv : v.Intact w)
    (hq : ∀ s ∈ q, s.Intact w) (hw : w.Intact) (h : run log fuel v q w = (o, w')) :
    w'.Intact := by
  induction fuel generalizing v q w with
  | zero =>
    cases q with
    | nil => cases h; exact hw
    | cons st q => cases h; exact hw
  | succ fuel ih =>
    cases q with
    | nil => cases h; exact hw
    | cons st q =>
      rw [run] at h
      rcases htake : takeStep log st v q w with ⟨r, w₁⟩
      rw [htake] at h
      rcases takeStep_cases htake with ⟨b, -, rfl, rfl⟩ | ⟨x, htrace, hstep⟩
      · cases h
        exact hw
      -- the note of a traced step concerns the journal only
      obtain ⟨journal, rfl⟩ := World.exists_journal_of_trace htrace
      have hgrown : w.Grown { w with journal } := .of_eq rfl rfl
      have hnoted : World.Intact { w with journal } := hw.congr rfl rfl (Nat.le_refl _)
      have hst := (hq st List.mem_cons_self).mono hgrown
      have hrest := fun s hs ↦ (hq s (List.mem_cons_of_mem _ hs)).mono hgrown
      obtain ⟨-, hw₁, hok⟩ := step_intact hst (hv.mono hgrown) hrest hnoted hstep
      rcases r with f | ⟨v₁, q₁⟩
      · cases h
        exact hw₁
      · obtain ⟨hv₁, hq₁⟩ := hok _ _ rfl
        exact ih hv₁ hq₁ hw₁ h

theorem intact_evaluate (log : Option Log) (fuel : Nat) (program : List Expr) {frame : FrameId}
    (hframe : frame < w.frames.size) (hw : w.Intact) :
    (evaluate log fuel program frame w).2.Intact :=
  run_intact (v := .undefined) trivial (intact_ofProgram hframe program) hw rfl

end Machine

theorem World.builtins_intact (w : World) : ∀ b ∈ World.builtins, b.2.Intact w := by
  rintro ⟨x, v⟩ hb
  cases v with
  | closure cl => exact absurd rfl (World.builtins_ne_closure hb cl)
  | int | bool | str | undefined | primitive => trivial

theorem World.intact_fresh : World.fresh.Intact where
  outer {f g F} hf hg := by
    rw [World.frames_fresh, Array.getElem?_singleton] at hf
    split at hf
    · cases hf
      cases hg
    · cases hf
  frame {f F} hf b hb := by
    rw [World.frames_fresh, Array.getElem?_singleton] at hf
    split at hf
    · cases hf
      exact World.builtins_intact _ b hb
    · cases hf
  call hc := by cases hc

end Interleave

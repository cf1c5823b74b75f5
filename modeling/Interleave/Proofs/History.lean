import Interleave.Proofs.Intact
import Interleave.Proofs.Renaming

/-!
# The history of the store

Whatever programs do to the store of frames comes down to two things: frames are made, empty and in
older frames, and definitions are attempted in frames that exist. `World.History` is the sequence of
these, with every attempt and its result on record. Making a frame with bindings is making an empty
one and defining names in it (`World.History.frameWith`).

What a history leaves of the store can be read off the record.

- `World.History.frame`: a frame keeps its outer frame and its bindings, and gains those of the
  attempts that succeeded in it, in order.
- `World.History.results_of_not_binds`: of the attempts to define a name in a frame the first
  succeeds, and all others fail.
- `World.History.lookup`: a name that has a value keeps having one, and another one only if an
  attempt succeeded in a frame that is searched before the one that bound the name so far.

Histories are closed under putting one after the other, and do not record when a frame was made or
what else happened to the world. That is enough for all that follows, and it lets both evaluators
and all operations of a session be described in the same terms.
-/

namespace Interleave

/-! ## Attempts -/

/-- An attempt to define a name in a frame, and what came of it. -/
structure Attempt where
  /-- The frame in which the name is to be defined. -/
  frame : FrameId
  /-- The name to be defined. -/
  name : String
  /-- The value that the name is to have. -/
  value : Value
  /-- What came of the attempt. -/
  result : Except Fault Unit

namespace Attempt

/-- The binding that an attempt adds to a frame, if it succeeded there. -/
def gain? (f : FrameId) (a : Attempt) : Option (String × Value) :=
  match a.result with
  | .ok () => if a.frame = f then some (a.name, a.value) else none
  | .error _ => none

/-- The bindings that attempts add to a frame, in order. -/
def gained (f : FrameId) (as : List Attempt) : Bindings :=
  as.filterMap (gain? f)

/-- What came of the attempts to define a name in a frame, in order. -/
def results (f : FrameId) (x : String) (as : List Attempt) : List (Except Fault Unit) :=
  (as.filter fun a ↦ a.frame = f ∧ a.name = x).map Attempt.result

variable {f : FrameId} {x : String} {v : Value} {as as' : List Attempt}

theorem gained_append : gained f (as ++ as') = gained f as ++ gained f as' :=
  List.filterMap_append

theorem results_append : results f x (as ++ as') = results f x as ++ results f x as' := by
  rw [results, List.filter_append, List.map_append]
  rfl

theorem gained_succeeded (g : FrameId) :
    gained g [⟨f, x, v, .ok ()⟩] = if f = g then [(x, v)] else [] := by
  by_cases hfg : f = g <;> simp [gained, gain?, hfg]

theorem gained_failed (g : FrameId) (e : Fault) : gained g [⟨f, x, v, .error e⟩] = [] := rfl

theorem results_singleton (g : FrameId) (y : String) (r : Except Fault Unit) :
    results g y [⟨f, x, v, r⟩] = if f = g ∧ x = y then [r] else [] := by
  by_cases hfg : f = g ∧ x = y <;> simp [results, hfg]

/-- Every binding that a frame gained was the subject of an attempt that succeeded. -/
theorem mem_of_mem_gained (h : (x, v) ∈ gained f as) : ⟨f, x, v, .ok ()⟩ ∈ as := by
  obtain ⟨⟨g, y, u, r⟩, ha, hgain⟩ := List.mem_filterMap.mp h
  rw [gain?] at hgain
  split at hgain
  · rename_i hr
    split at hgain
    · rename_i hg
      cases hgain
      cases hr
      cases hg
      exact ha
    · cases hgain
  · cases hgain

end Attempt

/-! ## Frames and the names they bind -/

theorem Bindings.nodup_insert {bs : Bindings} (h : (bs.map Prod.fst).Nodup) (x : String)
    (v : Value) : ((bs.insert x v).map Prod.fst).Nodup := by
  fun_induction insert bs x v with
  | case1 => exact List.nodup_cons.mpr ⟨List.not_mem_nil, List.nodup_nil⟩
  | case2 u rest => exact h
  | case3 y u rest hne ih =>
    obtain ⟨hy, hrest⟩ := List.nodup_cons.mp h
    refine List.nodup_cons.mpr ⟨fun hmem ↦ ?_, ih hrest⟩
    obtain ⟨b, hb, hby⟩ := List.mem_map.mp hmem
    rcases mem_insert hb with rfl | hb
    · exact hne hby.symm
    · exact hy (hby ▸ List.mem_map_of_mem hb)

theorem Bindings.nodup_ofPairs (pairs : List (String × Value)) :
    ((ofPairs pairs).map Prod.fst).Nodup := by
  suffices h : ∀ bs : Bindings, (bs.map Prod.fst).Nodup →
      ((pairs.foldl (fun bs p ↦ bs.insert p.1 p.2) bs).map Prod.fst).Nodup from h [] List.nodup_nil
  induction pairs with
  | nil => exact fun _ h ↦ h
  | cons p pairs ih => exact fun bs h ↦ ih _ (nodup_insert h p.1 p.2)

namespace World

variable {w w' : World} {f g : FrameId} {x : String} {v : Value} {F : Frame}

theorem binds_eq (hF : w.frames[f]? = some F) : w.binds f x = (F.value? x).isSome := by
  rw [binds, hF, Option.any_some, Frame.binds]

theorem exists_value_of_binds (h : w.binds f x = true) :
    ∃ F v, w.frames[f]? = some F ∧ F.value? x = some v := by
  cases hF : w.frames[f]? with
  | none => rw [binds, hF] at h; cases h
  | some F =>
    obtain ⟨v, hv⟩ := Option.isSome_iff_exists.mp (binds_eq hF ▸ h)
    exact ⟨F, v, rfl, hv⟩

theorem binds_of_value (hF : w.frames[f]? = some F) (hv : F.value? x = some v) :
    w.binds f x = true := by
  rw [binds_eq hF, hv, Option.isSome_some]

theorem binds_congr (h : w'.frames = w.frames) : w'.binds f x = w.binds f x := by
  rw [binds, binds, h]

theorem define_of_binds (h : w.binds f x = true) :
    w.define f x v = (.error (.program (.alreadyDefined x)), w) := by
  rw [define, if_pos h]

theorem define_of_not_binds (h : w.binds f x = false) :
    w.define f x v = (.ok (), w.bind f x v) := by
  rw [define, if_neg (Bool.not_eq_true _ ▸ h)]

theorem getElem?_bind (w : World) (f g : FrameId) (x : String) (v : Value) :
    (w.bind f x v).frames[g]? = if f = g then w.frames[g]?.map (·.push x v) else w.frames[g]? :=
  Array.getElem?_modify

theorem binds_bind (hf : f < w.frames.size) (g : FrameId) (y : String) :
    (w.bind f x v).binds g y = (w.binds g y || decide (f = g ∧ x = y)) := by
  rw [binds, binds, getElem?_bind]
  by_cases hfg : f = g
  · subst hfg
    rw [if_pos rfl, Array.getElem?_eq_getElem hf, Option.map_some, Option.any_some, Option.any_some,
      Frame.binds, Frame.binds, Frame.value?_push, Option.isSome_or]
    by_cases hxy : y = x
    · simp [hxy]
    · simp [hxy, Ne.symm hxy]
  · simp [hfg]

/-! ## Where names are looked up -/

/-- The frames that a name is looked up in, from the given one outward. -/
def scope (w : World) (f : FrameId) : List FrameId :=
  f ::
    match w.frames[f]?.bind Frame.outer with
    | some g => if g < f then w.scope g else []
    | none => []
termination_by f

theorem find?_eq_find?_scope (w : World) (f : FrameId) (x : String) :
    w.find? f x = (w.scope f).find? (w.binds · x) := by
  induction f using Nat.strongRecOn with
  | ind f ih =>
    rw [find?, scope]
    by_cases hb : w.binds f x
    · rw [if_pos hb, List.find?_cons_of_pos (p := (w.binds · x)) hb]
    · rw [if_neg hb, List.find?_cons_of_neg (p := (w.binds · x)) hb]
      cases w.frames[f]?.bind Frame.outer with
      | none => rfl
      | some g =>
        by_cases hg : g < f
        · simp only [if_pos hg, ih g hg]
        · simp only [if_neg hg, List.find?_nil]

theorem le_of_mem_scope (h : g ∈ w.scope f) : g ≤ f := by
  induction f using Nat.strongRecOn with
  | ind f ih =>
    rw [scope] at h
    rcases List.mem_cons.mp h with rfl | h
    · exact Nat.le_refl _
    split at h
    · split at h
      · rename_i k _ hk
        exact Nat.le_trans (ih k hk h) (Nat.le_of_lt hk)
      · cases h
    · cases h

theorem lookup_eq_ok_iff : w.lookup f x = .ok v ↔
    ∃ g F, w.find? f x = some g ∧ w.frames[g]? = some F ∧ F.value? x = some v := by
  have hbind : w.lookup f x = .ok v ↔
      ((w.find? f x).bind fun g ↦ w.frames[g]?.bind (·.value? x)) = some v := by
    rw [lookup]
    split
    · rename_i u hu
      rw [hu, Except.ok.injEq, Option.some.injEq]
    · rename_i hu
      simp [hu]
  rw [hbind, Option.bind_eq_some_iff]
  simp only [Option.bind_eq_some_iff, exists_and_left]

theorem lt_size_of_find? (h : w.find? f x = some g) : f < w.frames.size := by
  cases hF : w.frames[f]? with
  | none =>
    rw [find?, binds, hF] at h
    cases h
  | some F => exact (Array.getElem?_eq_some_iff.mp hF).1

theorem Intact.find?_eq (hw : w.Intact) (f : FrameId) (x : String) :
    w.find? f x = if w.binds f x then some f
      else (w.frames[f]?.bind Frame.outer).bind (w.find? · x) := by
  rw [find?]
  congr 1
  cases hg : w.frames[f]?.bind Frame.outer with
  | none => rfl
  | some g =>
    obtain ⟨F, hF, houter⟩ := Option.bind_eq_some_iff.mp hg
    exact if_pos (hw.outer hF houter)

/-! ## Histories -/

/-- The attempts made when names are defined in a frame one after the other, up to the first that
fails. -/
def attempts (w : World) (f : FrameId) : Bindings → List Attempt
  | [] => []
  | (x, v) :: bs =>
    ⟨f, x, v, (w.define f x v).1⟩ ::
      match w.define f x v with
      | (.ok (), w') => w'.attempts f bs
      | (.error _, _) => []

/-- The attempts made when a frame is made with bindings. -/
def frameAttempts (w : World) (outer : Option FrameId) (bs : Bindings) : List Attempt :=
  (w.newFrame outer []).2.attempts w.frames.size bs

/-- The second world comes from the first by these attempts to define names, in order, and by making
frames. -/
inductive History : List Attempt → World → World → Prop where
  /-- Frames stay as they are. -/
  | same {w w' : World} (hframes : w'.frames = w.frames) (hclosures : w.closures ≤ w'.closures) :
    History [] w w'
  /-- An empty frame is made, in one that exists or in none. -/
  | newFrame {w : World} {outer : Option FrameId}
    (houter : ∀ g, outer = some g → g < w.frames.size) : History [] w (w.newFrame outer []).2
  /-- A definition is attempted in a frame that exists. -/
  | attempt {w : World} {f : FrameId} (hf : f < w.frames.size) (x : String) (v : Value) :
    History [⟨f, x, v, (w.define f x v).1⟩] w (w.define f x v).2
  /-- One history follows another. -/
  | trans {w w' w'' : World} {as as' : List Attempt} (h : History as w w')
    (h' : History as' w' w'') : History (as ++ as') w w''

namespace History

variable {as : List Attempt} {w'' : World}

theorem trans_same (h : History as w w') (hframes : w''.frames = w'.frames)
    (hclosures : w'.closures ≤ w''.closures) : History as w w'' :=
  List.append_nil as ▸ h.trans (.same hframes hclosures)

theorem refl (w : World) : History [] w w := .same rfl (Nat.le_refl _)

theorem defineAll (hf : f < w.frames.size) (bs : Bindings) :
    History (w.attempts f bs) w (w.defineAll f bs).2 := by
  induction bs generalizing w with
  | nil => exact .refl w
  | cons b bs ih =>
    obtain ⟨x, v⟩ := b
    rw [World.attempts, World.defineAll]
    have hattempt := History.attempt hf x v
    rcases hdefine : w.define f x v with ⟨e | ⟨⟩, w'⟩
    · rw [hdefine] at hattempt
      exact hattempt
    · rw [hdefine] at hattempt
      have hsize : w'.frames.size = w.frames.size := by
        rw [World.define] at hdefine
        split at hdefine <;> cases hdefine
        exact Array.size_modify
      exact hattempt.trans (ih (hsize ▸ hf))

end History

/-- Defining distinct names in a frame just made is the same as making it with them. -/
theorem defineAll_newFrame (w : World) (outer : Option FrameId) {bs₀ bs : Bindings}
    (h : ((bs₀ ++ bs).map Prod.fst).Nodup) :
    (w.newFrame outer bs₀).2.defineAll w.frames.size bs
      = (.ok (), (w.newFrame outer (bs₀ ++ bs)).2) := by
  induction bs generalizing bs₀ with
  | nil => rw [List.append_nil, defineAll]
  | cons b bs ih =>
    obtain ⟨x, v⟩ := b
    have hF : (w.newFrame outer bs₀).2.frames[w.frames.size]? = some ⟨outer, bs₀⟩ :=
      Array.getElem?_push_size
    have hx : (w.newFrame outer bs₀).2.binds w.frames.size x = false := by
      rw [binds_eq hF, Option.isSome_eq_false_iff, Option.isNone_iff_eq_none, Frame.value?,
        List.lookup_eq_none_iff]
      intro p hp
      rw [List.map_append, List.nodup_append] at h
      exact bne_iff_ne.mpr (h.2.2 p.1 (List.mem_map_of_mem hp) x List.mem_cons_self).symm
    have hbind : (w.newFrame outer bs₀).2.bind w.frames.size x v
        = (w.newFrame outer (bs₀ ++ [(x, v)])).2 := by
      rw [bind, newFrame, newFrame, World.mk.injEq]
      refine ⟨Array.ext_getElem? fun i ↦ ?_, rfl, rfl, rfl, rfl⟩
      rw [Array.getElem?_modify, Array.getElem?_push, Array.getElem?_push]
      by_cases hi : i = w.frames.size
      · simp [hi, Frame.push]
      · simp [hi, Ne.symm hi]
    rw [defineAll, define_of_not_binds hx]
    simp only [hbind]
    rw [ih (by rwa [List.append_assoc]), List.append_assoc]
    rfl

namespace History

variable {as : List Attempt} {w'' : World}

/-- A frame with bindings is made empty first, and then its names are defined. -/
theorem frameWith {outer : Option FrameId} (houter : ∀ g, outer = some g → g < w.frames.size)
    {bs : Bindings} (hbs : (bs.map Prod.fst).Nodup) :
    History (w.frameAttempts outer bs) w (w.newFrame outer bs).2 := by
  have hsize : w.frames.size < (w.newFrame outer []).2.frames.size := by
    rw [World.newFrame, Array.size_push]
    exact Nat.lt_succ_self _
  have hall := History.defineAll hsize bs
  rw [w.defineAll_newFrame outer (List.nil_append bs ▸ hbs), List.nil_append] at hall
  exact (History.newFrame houter).trans hall

/-! ### What is left of a history -/

theorem grown (h : History as w w') : w.Grown w' := by
  induction h with
  | same hframes hclosures => exact ⟨Nat.le_of_eq (by rw [hframes]), hclosures⟩
  | newFrame => exact ⟨by rw [World.newFrame, Array.size_push]; exact Nat.le_succ _, Nat.le_refl _⟩
  | attempt =>
    rw [World.define]
    split
    · exact .of_eq rfl rfl
    · exact .of_eq Array.size_modify rfl
  | trans _ _ ih ih' =>
    exact ⟨Nat.le_trans ih.frames ih'.frames, Nat.le_trans ih.closures ih'.closures⟩

/-- **Frames keep what they have**, and gain what was defined in them. -/
theorem frame (h : History as w w') (hF : w.frames[f]? = some F) :
    w'.frames[f]? = some ⟨F.outer, F.bindings ++ Attempt.gained f as⟩ := by
  induction h generalizing F with
  | same hframes => rw [hframes, hF, Attempt.gained, List.filterMap_nil, List.append_nil]
  | newFrame =>
    obtain ⟨hlt, -⟩ := Array.getElem?_eq_some_iff.mp hF
    rw [World.newFrame, Array.getElem?_push_lt hlt, ← Array.getElem?_eq_getElem hlt, hF,
      Attempt.gained, List.filterMap_nil, List.append_nil]
  | @attempt w g hg x v =>
    cases hx : w.binds g x with
    | true => rw [define_of_binds hx, hF, Attempt.gained_failed, List.append_nil]
    | false =>
      rw [define_of_not_binds hx, getElem?_bind, Attempt.gained_succeeded, hF]
      by_cases hgf : g = f
      · rw [if_pos hgf, if_pos hgf]
        rfl
      · rw [if_neg hgf, if_neg hgf, List.append_nil]
  | trans _ _ ih ih' => rw [ih' (ih hF), Attempt.gained_append, List.append_assoc]

theorem gained_eq_nil (h : History as w w') (hf : w'.frames.size ≤ f) :
    Attempt.gained f as = [] := by
  induction h with
  | same => rfl
  | newFrame => rfl
  | @attempt w g hg x v =>
    have hgf : g ≠ f := by
      have hsize := (History.attempt hg x v).grown.frames
      exact Nat.ne_of_lt (Nat.lt_of_lt_of_le hg (Nat.le_trans hsize hf))
    simp only [Attempt.gained, List.filterMap_cons, List.filterMap_nil, Attempt.gain?, if_neg hgf]
    cases (w.define g x v).1 <;> rfl
  | trans _ h' ih ih' =>
    rw [Attempt.gained_append, ih (Nat.le_trans h'.grown.frames hf), ih' hf, List.append_nil]

/-- A frame that was made on the way has the bindings that were defined in it, and no others. -/
theorem madeFrame (h : History as w w') (hf : w.frames.size ≤ f) (hF : w'.frames[f]? = some F) :
    F.bindings = Attempt.gained f as := by
  induction h generalizing F with
  | same hframes =>
    rw [hframes, Array.getElem?_eq_none hf] at hF
    cases hF
  | newFrame =>
    rw [World.newFrame, Array.getElem?_push] at hF
    split at hF
    · cases hF
      rfl
    · rw [Array.getElem?_eq_none hf] at hF
      cases hF
  | @attempt w g hg x v =>
    have hnone : (w.define g x v).2.frames[f]? = none := by
      rw [World.define]
      split
      · exact Array.getElem?_eq_none hf
      · exact Array.getElem?_eq_none (by rwa [World.bind, Array.size_modify])
    rw [hnone] at hF
    cases hF
  | @trans _ w' _ as as' h h' ih ih' =>
    rw [Attempt.gained_append]
    cases hF₁ : w'.frames[f]? with
    | none =>
      -- the frame was made after the first history
      have hf' := Array.getElem?_eq_none_iff.mp hF₁
      rw [h.gained_eq_nil hf', List.nil_append]
      exact ih' hf' hF
    | some F₁ =>
      rw [h'.frame hF₁] at hF
      cases hF
      rw [ih hf hF₁]

theorem value (h : History as w w') (hF : w.frames[f]? = some F) (hv : F.value? x = some v) :
    ∃ F', w'.frames[f]? = some F' ∧ F'.outer = F.outer ∧ F'.value? x = some v := by
  refine ⟨_, h.frame hF, rfl, ?_⟩
  rw [Frame.value?, List.lookup_append]
  exact Option.or_eq_some_iff.mpr (.inl hv)

theorem binds (h : History as w w') (hx : w.binds f x = true) : w'.binds f x = true := by
  obtain ⟨F, v, hF, hv⟩ := exists_value_of_binds hx
  obtain ⟨F', hF', -, hv'⟩ := h.value hF hv
  exact binds_of_value hF' hv'

/-- Where a frame binds a name, all attempts to define it there fail. -/
theorem results_of_binds (h : History as w w') (hx : w.binds f x = true) : ∃ k,
    Attempt.results f x as = List.replicate k (.error (.program (.alreadyDefined x))) := by
  induction h with
  | same => exact ⟨0, rfl⟩
  | newFrame => exact ⟨0, rfl⟩
  | @attempt w g hg y v =>
    rw [Attempt.results_singleton]
    by_cases hgy : g = f ∧ y = x
    · obtain ⟨rfl, rfl⟩ := hgy
      rw [if_pos ⟨rfl, rfl⟩, define_of_binds hx]
      exact ⟨1, rfl⟩
    · rw [if_neg hgy]
      exact ⟨0, rfl⟩
  | trans h _ ih ih' =>
    obtain ⟨k, hk⟩ := ih hx
    obtain ⟨k', hk'⟩ := ih' (h.binds hx)
    exact ⟨k + k', by rw [Attempt.results_append, hk, hk', List.replicate_append_replicate]⟩

/-- **The first attempt succeeds, and no other.** Where a frame does not bind a name, the first
attempt to define it there succeeds and all later ones fail; if there is none the frame still does
not bind the name. -/
theorem results_of_not_binds (h : History as w w') (hx : w.binds f x = false) :
    (w'.binds f x = false ∧ Attempt.results f x as = []) ∨
    (w'.binds f x = true ∧ ∃ k, Attempt.results f x as
      = .ok () :: List.replicate k (.error (.program (.alreadyDefined x)))) := by
  induction h with
  | same hframes => exact .inl ⟨binds_congr hframes ▸ hx, rfl⟩
  | @newFrame w outer houter =>
    refine .inl ⟨?_, rfl⟩
    rw [World.binds, World.newFrame, Array.getElem?_push]
    split
    · rfl
    · exact hx
  | @attempt w g hg y v =>
    rw [Attempt.results_singleton]
    by_cases hgy : g = f ∧ y = x
    · obtain ⟨rfl, rfl⟩ := hgy
      rw [if_pos ⟨rfl, rfl⟩, define_of_not_binds hx, binds_bind hg]
      exact .inr ⟨by simp, 0, rfl⟩
    · refine .inl ⟨?_, if_neg hgy⟩
      cases hy : w.binds g y with
      | true => rwa [define_of_binds hy]
      | false => rw [define_of_not_binds hy, binds_bind hg, hx, decide_eq_false hgy]; rfl
  | trans h h' ih ih' =>
    rw [Attempt.results_append]
    rcases ih hx with ⟨hx', hnone⟩ | ⟨hx', k, hk⟩
    · rw [hnone]
      exact ih' hx'
    · obtain ⟨k', hk'⟩ := h'.results_of_binds hx'
      refine .inr ⟨h'.binds hx', k + k', ?_⟩
      rw [hk, hk', List.cons_append, List.replicate_append_replicate]

theorem scope (h : History as w w') (hf : f < w.frames.size) : w'.scope f = w.scope f := by
  induction f using Nat.strongRecOn with
  | ind f ih =>
    have hF := Array.getElem?_eq_getElem hf
    rw [World.scope, World.scope, h.frame hF, hF, Option.bind_some, Option.bind_some]
    cases w.frames[f].outer with
    | none => rfl
    | some g =>
      by_cases hg : g < f
      · simp only [if_pos hg, ih g hg (Nat.lt_trans hg hf)]
      · simp only [if_neg hg]

/-- A frame that came to bind a name did so by an attempt that succeeded. -/
theorem exists_attempt (h : History as w w') (hf : f < w.frames.size) (hx : w.binds f x = false)
    (hx' : w'.binds f x = true) : ∃ F' v, w'.frames[f]? = some F' ∧ F'.value? x = some v ∧
      ⟨f, x, v, .ok ()⟩ ∈ as := by
  obtain ⟨F', v, hF', hv⟩ := exists_value_of_binds hx'
  refine ⟨F', v, hF', hv, Attempt.mem_of_mem_gained ?_⟩
  have hF := Array.getElem?_eq_getElem hf
  rw [binds_eq hF, Option.isSome_eq_false_iff, Option.isNone_iff_eq_none, Frame.value?] at hx
  obtain rfl : _ = F' := Option.some.inj ((h.frame hF).symm.trans hF')
  rw [Frame.value?, List.lookup_append, hx, Option.none_or] at hv
  exact @Frame.mem_of_value? ⟨none, Attempt.gained f as⟩ x v hv

/-- **A name keeps having a value.** It is the value it had, unless the name was defined since then
in a frame that is searched earlier than the one that bound it. -/
theorem lookup (h : History as w w') (hx : w.lookup f x = .ok v) :
    ∃ nearer g farther, w.scope f = nearer ++ g :: farther ∧ w.find? f x = some g ∧
      (w'.lookup f x = .ok v ∧ w'.find? f x = some g ∨
        ∃ k ∈ nearer, ∃ u, w'.lookup f x = .ok u ∧ w'.find? f x = some k ∧
          ⟨k, x, u, .ok ()⟩ ∈ as) := by
  obtain ⟨g, F, hg, hF, hv⟩ := lookup_eq_ok_iff.mp hx
  have hf := lt_size_of_find? hg
  have hfind := hg
  rw [find?_eq_find?_scope, List.find?_eq_some_iff_append] at hfind
  obtain ⟨hbinds, nearer, farther, hscope, hnearer⟩ := hfind
  refine ⟨nearer, g, farther, hscope, hg, ?_⟩
  have hfind' : w'.find? f x = (nearer ++ g :: farther).find? (w'.binds · x) := by
    rw [find?_eq_find?_scope, h.scope hf, hscope]
  rw [List.find?_append, List.find?_cons_of_pos (p := (w'.binds · x)) (h.binds hbinds)] at hfind'
  cases hk : nearer.find? (w'.binds · x) with
  | none =>
    rw [hk, Option.none_or] at hfind'
    obtain ⟨F', hF', -, hv'⟩ := h.value hF hv
    exact .inl ⟨lookup_eq_ok_iff.mpr ⟨g, F', hfind', hF', hv'⟩, hfind'⟩
  | some k =>
    rw [hk, Option.some_or] at hfind'
    have hmem := List.mem_of_find?_eq_some hk
    have hkbinds : w'.binds k x = true := List.find?_some (p := (w'.binds · x)) hk
    have hkunbound : w.binds k x = false := Bool.not_eq_true' _ ▸ hnearer k hmem
    have hkscope : k ∈ w.scope f := hscope ▸ List.mem_append_left _ hmem
    have hksize : k < w.frames.size := Nat.lt_of_le_of_lt (le_of_mem_scope hkscope) hf
    obtain ⟨F', u, hF', hu, hattempt⟩ := h.exists_attempt hksize hkunbound hkbinds
    exact .inr ⟨k, hmem, u, lookup_eq_ok_iff.mpr ⟨k, F', hfind', hF', hu⟩, hfind', hattempt⟩

end History

end World

end Interleave

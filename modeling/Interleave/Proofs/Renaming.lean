import Interleave.Proofs.Code
import Mathlib.Data.List.Forall2

/-!
# Renaming frames, calls and closures

Frames, records of calls and closures are known by numbers that are given out as they are made. Two
runs of one program in different company give out different numbers, and do the same otherwise.
A `Renaming` says which numbers of one world stand for which of another, and
`World.Renamed` that what they stand for is then the same.

## Names that do not matter

The second world may hold more than the first: frames that have no counterpart, and, in the frames
that have one, bindings of other names. Frames are therefore compared at the names of a vocabulary
only. A program that mentions no other names cannot tell the difference.

## The simulation

`step_renamed` is the main result: steps that are the same up to a renaming lead to configurations
that are the same up to a larger one. A renaming grows when both runs make something, and by numbers
that are new on both sides, so renamings stay one-to-one.
-/

namespace Interleave

/-! ## Renamings -/

/-- Which numbers of one world stand for which numbers of another. -/
structure Renaming where
  frame : FrameId → FrameId → Prop
  call : CallId → CallId → Prop
  serial : Nat → Nat → Prop

/-- No number has two counterparts, on either side. -/
def OneToOne (r : Nat → Nat → Prop) : Prop :=
  ∀ ⦃a a' b b' : Nat⦄, r a a' → r b b' → (a = b ↔ a' = b')

def withPair (r : Nat → Nat → Prop) (a a' : Nat) (b b' : Nat) : Prop :=
  r b b' ∨ b = a ∧ b' = a'

theorem OneToOne.withPair {r : Nat → Nat → Prop} (h : OneToOne r) {a a' : Nat}
    (hnew : ∀ {b b'}, r b b' → b ≠ a ∧ b' ≠ a') : OneToOne (withPair r a a') := by
  rintro b b' d d' (hb | ⟨rfl, rfl⟩) (hd | ⟨rfl, rfl⟩)
  · exact h hb hd
  · exact iff_of_false (hnew hb).1 (hnew hb).2
  · exact iff_of_false (hnew hd).1.symm (hnew hd).2.symm
  · exact iff_of_true rfl rfl

namespace Renaming

/-- The renaming confuses nothing. -/
structure IsOneToOne (ρ : Renaming) : Prop where
  frame : OneToOne ρ.frame
  call : OneToOne ρ.call
  serial : OneToOne ρ.serial

/-- One renaming goes on where the other stops. -/
structure Le (ρ ρ' : Renaming) : Prop where
  frame : ∀ {a a' : FrameId}, ρ.frame a a' → ρ'.frame a a'
  call : ∀ {a a' : CallId}, ρ.call a a' → ρ'.call a a'
  serial : ∀ {a a' : Nat}, ρ.serial a a' → ρ'.serial a a'

theorem Le.refl (ρ : Renaming) : ρ.Le ρ := ⟨id, id, id⟩

end Renaming

/-! ## Values and steps -/

/-- The value is the other one, up to the renaming. -/
inductive Value.Renamed (ρ : Renaming) : Value → Value → Prop where
  | int (n : Int) : Renamed ρ (.int n) (.int n)
  | bool (b : Bool) : Renamed ρ (.bool b) (.bool b)
  | str (s : String) : Renamed ρ (.str s) (.str s)
  | undefined : Renamed ρ .undefined .undefined
  | primitive (p : Primitive) : Renamed ρ (.primitive p) (.primitive p)
  | closure {serial serial' : Nat} {frame frame' : FrameId} (params : List String)
    (body : List Expr) (hserial : ρ.serial serial serial') (hframe : ρ.frame frame frame') :
    Renamed ρ (.closure ⟨serial, params, body, frame⟩) (.closure ⟨serial', params, body, frame'⟩)

/-- The step is the other one, up to the renaming. -/
inductive Step.Renamed (ρ : Renaming) : Step → Step → Prop where
  | evaluate {f f' : FrameId} (e : Expr) (hf : ρ.frame f f') :
    Renamed ρ (.evaluate e f) (.evaluate e f')
  | literal {v v' : Value} (hv : v.Renamed ρ v') : Renamed ρ (.literal v) (.literal v')
  | reference {f f' : FrameId} (x : String) (hf : ρ.frame f f') :
    Renamed ρ (.reference x f) (.reference x f')
  | join {c c' : CallId} (hc : ρ.call c c') : Renamed ρ (.join c) (.join c')
  | apply {c c' : CallId} {f f' : FrameId} (hc : ρ.call c c') (hf : ρ.frame f f') :
    Renamed ρ (.apply c f) (.apply c' f')
  | branch {f f' : FrameId} (t : Expr) (a : Option Expr) (hf : ρ.frame f f') :
    Renamed ρ (.branch t a f) (.branch t a f')
  | define {f f' : FrameId} (x : String) (hf : ρ.frame f f') :
    Renamed ρ (.define x f) (.define x f')
  | closure {f f' : FrameId} (params : List String) (body : List Expr) (hf : ρ.frame f f') :
    Renamed ρ (.closure params body f) (.closure params body f')

abbrev Queue.Renamed (ρ : Renaming) : Queue → Queue → Prop :=
  List.Forall₂ (Step.Renamed ρ)

section Values

variable {ρ ρ' : Renaming} {v v' u u' : Value} {vs vs' : List Value}

theorem Value.Renamed.mono (hle : ρ.Le ρ') (h : v.Renamed ρ v') : v.Renamed ρ' v' := by
  cases h with
  | closure params body hserial hframe =>
    exact .closure params body (hle.serial hserial) (hle.frame hframe)
  | int n => exact .int n
  | bool b => exact .bool b
  | str s => exact .str s
  | undefined => exact .undefined
  | primitive p => exact .primitive p

theorem Step.Renamed.mono {st st' : Step} (hle : ρ.Le ρ') (h : st.Renamed ρ st') :
    st.Renamed ρ' st' := by
  cases h with
  | evaluate e hf => exact .evaluate e (hle.frame hf)
  | literal hv => exact .literal (hv.mono hle)
  | reference x hf => exact .reference x (hle.frame hf)
  | join hc => exact .join (hle.call hc)
  | apply hc hf => exact .apply (hle.call hc) (hle.frame hf)
  | branch t a hf => exact .branch t a (hle.frame hf)
  | define x hf => exact .define x (hle.frame hf)
  | closure params body hf => exact .closure params body (hle.frame hf)

theorem Queue.Renamed.mono {q q' : Queue} (hle : ρ.Le ρ') (h : Queue.Renamed ρ q q') :
    Queue.Renamed ρ' q q' :=
  h.imp fun _ _ ↦ Step.Renamed.mono hle

namespace Value.Renamed

theorem isFalse_eq (h : v.Renamed ρ v') : v.isFalse = v'.isFalse := by
  cases h <;> rfl

theorem display_eq (h : v.Renamed ρ v') : v.display = v'.display := by
  cases h <;> rfl

/-- Programs cannot tell renamed values apart. -/
theorem same_eq (hρ : OneToOne ρ.serial) (h : v.Renamed ρ v') (hu : u.Renamed ρ u') :
    v.same u = v'.same u' := by
  cases h <;> cases hu <;> try rfl
  rename_i m m' _ _ params body hm _ n n' _ _ params' body' hn _
  rw [Value.same, Value.same, Bool.eq_iff_iff, beq_iff_eq, beq_iff_eq]
  exact hρ hm hn

end Value.Renamed

/-! ## Primitives -/

theorem Primitive.integers_renamed (name : String) (h : List.Forall₂ (Value.Renamed ρ) vs vs') :
    integers name vs = integers name vs' := by
  induction h with
  | nil => rfl
  | cons hv _ ih =>
    cases hv with
    | int n => rw [integers, integers, ih]
    | bool b => rfl
    | str s => rfl
    | undefined => rfl
    | primitive p => rfl
    | closure params body hserial hframe => rfl

theorem Primitive.allSame_renamed (hρ : OneToOne ρ.serial)
    (h : List.Forall₂ (Value.Renamed ρ) vs vs') : allSame vs = allSame vs' := by
  cases h with
  | nil => rfl
  | cons hv htail =>
    rw [allSame, allSame]
    induction htail with
    | nil => rfl
    | cons hu _ ih => rw [List.all_cons, List.all_cons, hv.same_eq hρ hu, ih]

theorem Primitive.printedLine_renamed (h : List.Forall₂ (Value.Renamed ρ) vs vs') :
    printedLine vs = printedLine vs' := by
  have hmap : vs.map Value.display = vs'.map Value.display := by
    induction h with
    | nil => rfl
    | cons hv _ ih => rw [List.map_cons, List.map_cons, hv.display_eq, ih]
  rw [printedLine, printedLine, hmap]

theorem Primitive.result_renamed (hρ : OneToOne ρ.serial) (p : Primitive)
    (h : List.Forall₂ (Value.Renamed ρ) vs vs') : p.result vs = p.result vs' := by
  cases p with
  | add => rw [result, result, integers_renamed _ h]
  | sub => rw [result, result, integers_renamed _ h]
  | mul => rw [result, result, integers_renamed _ h]
  | equal => rw [result, result, allSame_renamed hρ h]
  | print => rfl

theorem Primitive.renamed_self_of_result {p : Primitive} (h : p.result vs = .ok v) :
    v.Renamed ρ v := by
  rcases Machine.result_eq_ok h with ⟨n, rfl⟩ | ⟨b, rfl⟩ | rfl
  · exact .int n
  · exact .bool b
  · exact .undefined

end Values

/-! ## Worlds -/

/-- The frame is the other one at the names of a vocabulary, up to the renaming. Both lie in older
frames, or in none. -/
structure Frame.Renamed (ρ : Renaming) (names : String → Prop) (f f' : FrameId) (F F' : Frame) :
    Prop where
  outer : (F.outer = none ∧ F'.outer = none) ∨ ∃ g g', F.outer = some g ∧ F'.outer = some g' ∧
    g < f ∧ g' < f' ∧ ρ.frame g g'
  value : ∀ x, names x → Option.Rel (Value.Renamed ρ) (F.value? x) (F'.value? x)

/-- What stands for each other in two worlds is the same, up to the renaming. -/
structure World.Renamed (ρ : Renaming) (names : String → Prop) (w w' : World) : Prop where
  frame : ∀ {f f' : FrameId}, ρ.frame f f' → ∃ F F', w.frames[f]? = some F ∧
    w'.frames[f']? = some F' ∧ F.Renamed ρ names f f' F'
  call : ∀ {c c' : CallId}, ρ.call c c' → ∃ vs vs', w.calls[c]? = some vs ∧
    w'.calls[c']? = some vs' ∧ List.Forall₂ (Value.Renamed ρ) vs vs'
  serial : ∀ {n n' : Nat}, ρ.serial n n' → n < w.closures ∧ n' < w'.closures

section Worlds

variable {ρ ρ' : Renaming} {names : String → Prop} {w w' x x' : World} {f f' : FrameId}

theorem optionRel_mono {o o' : Option Value} (hle : ρ.Le ρ')
    (h : Option.Rel (Value.Renamed ρ) o o') : Option.Rel (Value.Renamed ρ') o o' := by
  cases h with
  | some hv => exact .some (hv.mono hle)
  | none => exact .none

theorem Frame.Renamed.mono {F F' : Frame} (hle : ρ.Le ρ') (h : F.Renamed ρ names f f' F') :
    F.Renamed ρ' names f f' F' where
  outer := by
    rcases h.outer with hnone | ⟨g, g', hg, hg', hlt, hlt', hr⟩
    · exact .inl hnone
    · exact .inr ⟨g, g', hg, hg', hlt, hlt', hle.frame hr⟩
  value y hy := optionRel_mono hle (h.value y hy)

namespace World.Renamed

theorem frame_lt (h : World.Renamed ρ names w w') (hf : ρ.frame f f') :
    f < w.frames.size ∧ f' < w'.frames.size := by
  obtain ⟨F, F', hF, hF', -⟩ := h.frame hf
  exact ⟨(Array.getElem?_eq_some_iff.mp hF).1, (Array.getElem?_eq_some_iff.mp hF').1⟩

theorem call_lt (h : World.Renamed ρ names w w') {c c' : CallId} (hc : ρ.call c c') :
    c < w.calls.size ∧ c' < w'.calls.size := by
  obtain ⟨vs, vs', hvs, hvs', -⟩ := h.call hc
  exact ⟨(Array.getElem?_eq_some_iff.mp hvs).1, (Array.getElem?_eq_some_iff.mp hvs').1⟩

theorem congr (h : World.Renamed ρ names w w') (hframes : x.frames = w.frames)
    (hcalls : x.calls = w.calls) (hclosures : w.closures ≤ x.closures)
    (hframes' : x'.frames = w'.frames) (hcalls' : x'.calls = w'.calls)
    (hclosures' : w'.closures ≤ x'.closures) :
    World.Renamed ρ names x x' where
  frame := by rw [hframes, hframes']; exact h.frame
  call := by rw [hcalls, hcalls']; exact h.call
  serial hn := ⟨Nat.lt_of_lt_of_le (h.serial hn).1 hclosures,
    Nat.lt_of_lt_of_le (h.serial hn).2 hclosures'⟩

/-! ### Looking names up -/

theorem binds_eq (h : World.Renamed ρ names w w') {y : String} (hy : names y) (hf : ρ.frame f f') :
    w.binds f y = w'.binds f' y := by
  obtain ⟨F, F', hF, hF', hr⟩ := h.frame hf
  rw [World.binds, World.binds, hF, hF', Option.any_some, Option.any_some, Frame.binds,
    Frame.binds]
  generalize hv : F.value? y = o, hv' : F'.value? y = o'
  have hrel := hr.value y hy
  rw [hv, hv'] at hrel
  cases hrel <;> rfl

theorem find?_rel (h : World.Renamed ρ names w w') {y : String} (hy : names y) (hf : ρ.frame f f') :
    Option.Rel ρ.frame (w.find? f y) (w'.find? f' y) := by
  -- a frame lies in an older one on both sides, so the two searches go outwards together
  induction f using Nat.strongRecOn generalizing f' with
  | ind f ih =>
    obtain ⟨F, F', hF, hF', hr⟩ := h.frame hf
    rw [World.find?, World.find?, ← h.binds_eq hy hf]
    by_cases hb : w.binds f y = true
    · rw [if_pos hb, if_pos hb]
      exact .some hf
    · rw [if_neg hb, if_neg hb, hF, hF', Option.bind_some, Option.bind_some]
      rcases hr.outer with ⟨hg, hg'⟩ | ⟨g, g', hg, hg', hlt, hlt', hgg⟩
      · rw [hg, hg']
        exact .none
      · rw [hg, hg']
        simp only [hlt, hlt', if_true]
        exact ih g hlt hgg

theorem lookup_rel (h : World.Renamed ρ names w w') {y : String} (hy : names y)
    (hf : ρ.frame f f') :
    (∃ v v', w.lookup f y = .ok v ∧ w'.lookup f' y = .ok v' ∧ v.Renamed ρ v') ∨
      w.lookup f y = .error (.program (.unbound y)) ∧
        w'.lookup f' y = .error (.program (.unbound y)) := by
  have hfind := h.find?_rel hy hf
  generalize hg : w.find? f y = o, hg' : w'.find? f' y = o' at hfind
  cases hfind with
  | none =>
    rw [World.lookup, World.lookup, hg, hg']
    exact .inr ⟨rfl, rfl⟩
  | @some g g' hgg =>
    obtain ⟨F, F', hF, hF', hr⟩ := h.frame hgg
    have hvalue := hr.value y hy
    generalize hv : F.value? y = o, hv' : F'.value? y = o' at hvalue
    rw [World.lookup, World.lookup, hg, hg', Option.bind_some, Option.bind_some, hF, hF',
      Option.bind_some, Option.bind_some, hv, hv']
    cases hvalue with
    | none => exact .inr ⟨rfl, rfl⟩
    | some hvv => exact .inl ⟨_, _, rfl, rfl, hvv⟩

end World.Renamed

end Worlds

/-! ## Changes to worlds -/

namespace Renaming

/-- One renaming goes on where the other stops, with numbers not yet given out in two worlds. -/
structure Grows (ρ ρ' : Renaming) (w w' : World) : Prop extends ρ.Le ρ' where
  newFrame : ∀ {f f' : FrameId}, ρ'.frame f f' →
    ρ.frame f f' ∨ w.frames.size ≤ f ∧ w'.frames.size ≤ f'
  newCall : ∀ {c c' : CallId}, ρ'.call c c' →
    ρ.call c c' ∨ w.calls.size ≤ c ∧ w'.calls.size ≤ c'

theorem Grows.refl (ρ : Renaming) (w w' : World) : ρ.Grows ρ w w' where
  toLe := .refl ρ
  newFrame := .inl
  newCall := .inl

def addFrame (ρ : Renaming) (f f' : FrameId) : Renaming :=
  { ρ with frame := withPair ρ.frame f f' }

def addCall (ρ : Renaming) (c c' : CallId) : Renaming :=
  { ρ with call := withPair ρ.call c c' }

def addSerial (ρ : Renaming) (n n' : Nat) : Renaming :=
  { ρ with serial := withPair ρ.serial n n' }

theorem le_addFrame (ρ : Renaming) (f f' : FrameId) : ρ.Le (ρ.addFrame f f') := ⟨.inl, id, id⟩

theorem le_addCall (ρ : Renaming) (c c' : CallId) : ρ.Le (ρ.addCall c c') := ⟨id, .inl, id⟩

theorem le_addSerial (ρ : Renaming) (n n' : Nat) : ρ.Le (ρ.addSerial n n') := ⟨id, id, .inl⟩

theorem addFrame_frame (ρ : Renaming) (f f' : FrameId) : (ρ.addFrame f f').frame f f' :=
  .inr ⟨rfl, rfl⟩

theorem addCall_call (ρ : Renaming) (c c' : CallId) : (ρ.addCall c c').call c c' :=
  .inr ⟨rfl, rfl⟩

theorem addSerial_serial (ρ : Renaming) (n n' : Nat) : (ρ.addSerial n n').serial n n' :=
  .inr ⟨rfl, rfl⟩

theorem grows_addFrame (ρ : Renaming) (w w' : World) :
    ρ.Grows (ρ.addFrame w.frames.size w'.frames.size) w w' where
  toLe := ρ.le_addFrame _ _
  newFrame hf := hf.imp_right fun h ↦ ⟨Nat.le_of_eq h.1.symm, Nat.le_of_eq h.2.symm⟩
  newCall := .inl

theorem grows_addCall (ρ : Renaming) (w w' : World) :
    ρ.Grows (ρ.addCall w.calls.size w'.calls.size) w w' where
  toLe := ρ.le_addCall _ _
  newFrame := .inl
  newCall hc := hc.imp_right fun h ↦ ⟨Nat.le_of_eq h.1.symm, Nat.le_of_eq h.2.symm⟩

theorem grows_addSerial (ρ : Renaming) (w w' : World) :
    ρ.Grows (ρ.addSerial w.closures w'.closures) w w' where
  toLe := ρ.le_addSerial _ _
  newFrame := .inl
  newCall := .inl

end Renaming

/-! ### Bindings -/

theorem Bindings.lookup_cons (bs : List (String × Value)) (x y : String) (v : Value) :
    List.lookup y ((x, v) :: bs) = if y = x then some v else bs.lookup y := by
  rw [List.lookup_cons]
  by_cases hy : y = x
  · rw [if_pos hy, beq_iff_eq.mpr hy]
  · rw [if_neg hy, beq_eq_false_iff_ne.mpr hy]

theorem Bindings.lookup_insert (bs : Bindings) (x y : String) (v : Value) :
    (bs.insert x v).lookup y = if y = x then some v else bs.lookup y := by
  fun_induction insert bs x v with
  | case1 => exact Bindings.lookup_cons [] x y v
  | case2 u rest =>
    rw [Bindings.lookup_cons, Bindings.lookup_cons]
    by_cases hy : y = x
    · rw [if_pos hy, if_pos hy]
    · rw [if_neg hy, if_neg hy, if_neg hy]
  | case3 z u rest hne ih =>
    rw [Bindings.lookup_cons, Bindings.lookup_cons, ih]
    by_cases hz : y = z
    · subst hz
      rw [if_pos rfl, if_pos rfl, if_neg hne]
    · rw [if_neg hz, if_neg hz]

theorem Frame.value?_push (F : Frame) (x y : String) (v : Value) :
    (F.push x v).value? y = (F.value? y).or (if y = x then some v else none) := by
  rw [push, value?, value?, List.lookup_append, Bindings.lookup_cons, List.lookup_nil]

section Changes

variable {ρ : Renaming} {names : String → Prop} {w w' : World} {f f' : FrameId}

theorem Bindings.foldl_insert_rel (params : List String) {args args' : List Value}
    (h : List.Forall₂ (Value.Renamed ρ) args args') {bs bs' : Bindings}
    (hbs : ∀ y, Option.Rel (Value.Renamed ρ) (bs.lookup y) (bs'.lookup y)) (y : String) :
    Option.Rel (Value.Renamed ρ)
      (((params.zip args).foldl (fun bs (x, v) ↦ bs.insert x v) bs).lookup y)
      (((params.zip args').foldl (fun bs (x, v) ↦ bs.insert x v) bs').lookup y) := by
  induction params generalizing args args' bs bs' with
  | nil => exact hbs y
  | cons x params ih =>
    cases h with
    | nil => exact hbs y
    | cons hv htail =>
      refine ih htail fun z ↦ ?_
      rw [lookup_insert, lookup_insert]
      by_cases hz : z = x
      · rw [if_pos hz, if_pos hz]
        exact .some hv
      · rw [if_neg hz, if_neg hz]
        exact hbs z

theorem Bindings.ofPairs_rel (params : List String) {args args' : List Value}
    (h : List.Forall₂ (Value.Renamed ρ) args args') (y : String) :
    Option.Rel (Value.Renamed ρ) ((ofPairs (params.zip args)).lookup y)
      ((ofPairs (params.zip args')).lookup y) :=
  foldl_insert_rel params h (fun _ ↦ .none) y

namespace World.Renamed

theorem addFrame_isOneToOne (h : World.Renamed ρ names w w') (hρ : ρ.IsOneToOne) :
    (ρ.addFrame w.frames.size w'.frames.size).IsOneToOne := by
  refine ⟨hρ.frame.withPair fun hf ↦ ?_, hρ.call, hρ.serial⟩
  obtain ⟨hlt, hlt'⟩ := h.frame_lt hf
  exact ⟨Nat.ne_of_lt hlt, Nat.ne_of_lt hlt'⟩

theorem addCall_isOneToOne (h : World.Renamed ρ names w w') (hρ : ρ.IsOneToOne) :
    (ρ.addCall w.calls.size w'.calls.size).IsOneToOne := by
  refine ⟨hρ.frame, hρ.call.withPair fun hc ↦ ?_, hρ.serial⟩
  obtain ⟨hlt, hlt'⟩ := h.call_lt hc
  exact ⟨Nat.ne_of_lt hlt, Nat.ne_of_lt hlt'⟩

theorem addSerial_isOneToOne (h : World.Renamed ρ names w w') (hρ : ρ.IsOneToOne) :
    (ρ.addSerial w.closures w'.closures).IsOneToOne := by
  refine ⟨hρ.frame, hρ.call, hρ.serial.withPair fun hn ↦ ?_⟩
  obtain ⟨hlt, hlt'⟩ := h.serial hn
  exact ⟨Nat.ne_of_lt hlt, Nat.ne_of_lt hlt'⟩

theorem newCall (h : World.Renamed ρ names w w') :
    World.Renamed (ρ.addCall w.calls.size w'.calls.size) names (w.newCall []).2
      (w'.newCall []).2 where
  frame hf := by
    obtain ⟨F, F', hF, hF', hr⟩ := h.frame hf
    exact ⟨F, F', hF, hF', hr.mono (ρ.le_addCall _ _)⟩
  call := by
    rintro c c' (hc | ⟨rfl, rfl⟩)
    · obtain ⟨vs, vs', hvs, hvs', hr⟩ := h.call hc
      obtain ⟨hlt, hlt'⟩ := h.call_lt hc
      refine ⟨vs, vs', ?_, ?_, hr.imp fun _ _ ↦ Value.Renamed.mono (ρ.le_addCall _ _)⟩
      · rw [World.newCall, Array.getElem?_push_lt hlt, ← Array.getElem?_eq_getElem hlt, hvs]
      · rw [World.newCall, Array.getElem?_push_lt hlt', ← Array.getElem?_eq_getElem hlt', hvs']
    · exact ⟨[], [], Array.getElem?_push_size, Array.getElem?_push_size, .nil⟩
  serial := h.serial

theorem newFrame (h : World.Renamed ρ names w w') {g g' : FrameId} (hg : ρ.frame g g')
    (params : List String) {args args' : List Value}
    (hargs : List.Forall₂ (Value.Renamed ρ) args args') :
    World.Renamed (ρ.addFrame w.frames.size w'.frames.size) names
      (w.newFrame (some g) (Bindings.ofPairs (params.zip args))).2
      (w'.newFrame (some g') (Bindings.ofPairs (params.zip args'))).2 where
  frame := by
    have hle := ρ.le_addFrame w.frames.size w'.frames.size
    rintro f f' (hf | ⟨rfl, rfl⟩)
    · obtain ⟨F, F', hF, hF', hr⟩ := h.frame hf
      obtain ⟨hlt, hlt'⟩ := h.frame_lt hf
      refine ⟨F, F', ?_, ?_, hr.mono hle⟩
      · rw [World.newFrame, Array.getElem?_push_lt hlt, ← Array.getElem?_eq_getElem hlt, hF]
      · rw [World.newFrame, Array.getElem?_push_lt hlt', ← Array.getElem?_eq_getElem hlt', hF']
    · refine ⟨_, _, Array.getElem?_push_size, Array.getElem?_push_size, ?_, fun y _ ↦ ?_⟩
      · obtain ⟨hlt, hlt'⟩ := h.frame_lt hg
        exact .inr ⟨g, g', rfl, rfl, hlt, hlt', hle.frame hg⟩
      · exact optionRel_mono hle (Bindings.ofPairs_rel params hargs y)
  call hc := by
    obtain ⟨vs, vs', hvs, hvs', hr⟩ := h.call hc
    exact ⟨vs, vs', hvs, hvs', hr.imp fun _ _ ↦ Value.Renamed.mono (ρ.le_addFrame _ _)⟩
  serial := h.serial

theorem newClosure (h : World.Renamed ρ names w w') (params : List String) (body : List Expr)
    (f f' : FrameId) :
    World.Renamed (ρ.addSerial w.closures w'.closures) names (w.newClosure params body f).2
      (w'.newClosure params body f').2 where
  frame hf := by
    obtain ⟨F, F', hF, hF', hr⟩ := h.frame hf
    exact ⟨F, F', hF, hF', hr.mono (ρ.le_addSerial _ _)⟩
  call hc := by
    obtain ⟨vs, vs', hvs, hvs', hr⟩ := h.call hc
    exact ⟨vs, vs', hvs, hvs', hr.imp fun _ _ ↦ Value.Renamed.mono (ρ.le_addSerial _ _)⟩
  serial := by
    rintro n n' (hn | ⟨rfl, rfl⟩)
    · exact ⟨Nat.lt_succ_of_lt (h.serial hn).1, Nat.lt_succ_of_lt (h.serial hn).2⟩
    · exact ⟨Nat.lt_succ_self _, Nat.lt_succ_self _⟩

theorem collect (h : World.Renamed ρ names w w') (hρ : OneToOne ρ.call) {c c' : CallId}
    (hc : ρ.call c c') {v v' : Value} (hv : v.Renamed ρ v') :
    World.Renamed ρ names (w.collect c v) (w'.collect c' v') where
  frame := h.frame
  call {d d'} hd := by
    obtain ⟨vs, vs', hvs, hvs', hr⟩ := h.call hd
    rw [World.collect, World.collect, Array.getElem?_modify, Array.getElem?_modify, hvs, hvs']
    by_cases hcd : c = d
    · rw [if_pos hcd, if_pos ((hρ hc hd).mp hcd)]
      exact ⟨_, _, rfl, rfl, List.rel_append hr (.cons hv .nil)⟩
    · rw [if_neg hcd, if_neg (mt (hρ hc hd).mpr hcd)]
      exact ⟨vs, vs', rfl, rfl, hr⟩
  serial := h.serial

theorem bind (h : World.Renamed ρ names w w') (hρ : OneToOne ρ.frame) (hf : ρ.frame f f')
    (y : String) {v v' : Value} (hv : v.Renamed ρ v') :
    World.Renamed ρ names (w.bind f y v) (w'.bind f' y v') where
  frame {g g'} hg := by
    obtain ⟨F, F', hF, hF', hr⟩ := h.frame hg
    rw [World.bind, World.bind, Array.getElem?_modify, Array.getElem?_modify, hF, hF']
    by_cases hfg : f = g
    · rw [if_pos hfg, if_pos ((hρ hf hg).mp hfg)]
      refine ⟨_, _, rfl, rfl, hr.outer, fun z hz ↦ ?_⟩
      rw [Frame.value?_push, Frame.value?_push]
      have hvalue := hr.value z hz
      generalize F.value? z = o, F'.value? z = o' at hvalue
      cases hvalue with
      | some hu => exact .some hu
      | none =>
        rw [Option.none_or, Option.none_or]
        by_cases hzy : z = y
        · rw [if_pos hzy, if_pos hzy]
          exact .some hv
        · rw [if_neg hzy, if_neg hzy]
          exact .none
    · rw [if_neg hfg, if_neg (mt (hρ hf hg).mpr hfg)]
      exact ⟨F, F', rfl, rfl, hr⟩
  call := h.call
  serial := h.serial

end World.Renamed

end Changes

end Interleave

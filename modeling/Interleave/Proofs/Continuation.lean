import Interleave.Proofs.Defects
import Interleave.Proofs.Joining

/-!
# Reading on after a line break

Two texts that are joined by a line break are read one after the other (`parse_joined`). Here the
second text may have a defect, and the fault that is reported is the fault of that text by itself,
further on.

The first defect is found by a walk over the tokens, which carries the places of open parentheses
along. Two facts about this walk are enough. Behind a text that can be read it has nothing open, so
it starts afresh with the text that follows (`firstFault_append`). And it looks at places only to
report them, so with all tokens moved it finds the same fault, moved (`firstFault_shift`).

## What moves and what does not

`Fault.shift` moves a fault by a number of characters. A numeral that is too long has no place,
since it is met by the conversion and not by the reader, and its fault is the same wherever the text
stands. All other faults of reading have a place, and it is moved by the length of the first text
and by one for the line break.

Both facts about the walk are proved by induction on the tokens, with any parentheses open, since
the walk comes to a token with whatever is open there.
-/

namespace Interleave

/-! ## Faults further on -/

/-- The fault, so much further on in the text. A fault without a place stays as it is. -/
def Fault.shift (k : Nat) : Fault → Fault
  | .program (.malformed what place) => .program (.malformed what (place.map ((k : Int) + ·)))
  | .program e => .program e
  | .breakdown b => .breakdown b

@[simp] theorem Fault.shift_malformed (k p : Nat) (what : Malformation) :
    Fault.shift k (.program (.malformed what (some (p : Int))))
      = .program (.malformed what (some ((k + p : Nat) : Int))) := by
  simp [Fault.shift]

theorem readWord_add (word : String) (k offset : Nat) :
    readWord word (k + offset) = (readWord word offset).mapError (Fault.shift k) := by
  simp only [readWord]
  split
  · split
    · rfl
    · rfl
  · split
    · simp [Except.mapError]
    · rfl

theorem Token.fault?_shift (k : Nat) (opened : List Nat) (t : Token) :
    (t.shift k).fault? (opened.map (k + ·)) = (t.fault? opened).map (Fault.shift k) := by
  simp only [fault?, Token.shift, List.isEmpty_map]
  cases t.kind with
  | opening => rfl
  | string => rfl
  | closing =>
    dsimp only
    split
    · simp
    · rfl
  | word =>
    dsimp only
    rw [readWord_add]
    cases readWord t.text t.offset <;> rfl

theorem Token.track_shift (k : Nat) (opened : List Nat) (t : Token) :
    (t.shift k).track (opened.map (k + ·)) = (t.track opened).map (k + ·) := by
  simp only [track, Token.shift]
  cases t.kind with
  | opening => rfl
  | closing => exact List.map_tail.symm
  | string => rfl
  | word => rfl

/-- **Places are only reported.** With everything moved the walk finds the same fault, moved. -/
theorem firstFault_shift (k : Nat) (opened : List Nat) (ts : List Token) (quote : Option Nat) :
    firstFault (opened.map (k + ·)) (ts.map (Token.shift k)) (quote.map (k + ·))
      = (firstFault opened ts quote).map (Fault.shift k) := by
  induction ts generalizing opened with
  | nil =>
    cases quote with
    | some p => simp [firstFault]
    | none => cases opened <;> simp [firstFault]
  | cons t ts ih =>
    rw [List.map_cons, firstFault, firstFault, Token.fault?_shift, Token.track_shift, ih]
    cases t.fault? opened <;> rfl

/-! ## Tokens behind a text without defects -/

/-- **Nothing is carried over.** Behind tokens without a defect the walk starts afresh. -/
theorem firstFault_append {opened : List Nat} {ts : List Token}
    (h : firstFault opened ts none = none) (ts' : List Token) (quote : Option Nat) :
    firstFault opened (ts ++ ts') quote = firstFault [] ts' quote := by
  induction ts generalizing opened with
  | nil =>
    -- a parenthesis that is open at the end would be a defect
    cases opened with
    | nil => rfl
    | cons p outer => cases h
  | cons t ts ih =>
    rw [firstFault, Option.or_eq_none_iff] at h
    rw [List.cons_append, firstFault, h.1, Option.none_or, ih h.2]

/-! ## Joined texts -/

theorem parse_eq_error_iff_firstFault {source : String} {f : Fault} :
    parse source = .error f ↔
      firstFault [] (Token.scan source).tokens (Token.scan source).openQuote = some f := by
  rw [parse_eq_error_iff, firstFault_eq_some_iff]

theorem firstFault_of_parse {source : String} {es : List Expr} (h : parse source = .ok es) :
    firstFault [] (Token.scan source).tokens none = none := by
  obtain ⟨hquote, -⟩ := parse_eq_ok_iff.mp h
  cases hfault : firstFault [] (Token.scan source).tokens none with
  | none => rfl
  | some f =>
    rw [← hquote, ← parse_eq_error_iff_firstFault, h] at hfault
    cases hfault

theorem parse_joined_of_error {a b : String} {es : List Expr} {f : Fault} (ha : parse a = .ok es)
    (hb : parse b = .error f) :
    parse (a ++ "\n" ++ b) = .error (f.shift (a.length + 1)) := by
  obtain ⟨hquote, -⟩ := parse_eq_ok_iff.mp ha
  rw [parse_eq_error_iff_firstFault] at hb ⊢
  rw [Token.scan_joined hquote]
  simp only [Token.Scan.followedBy, Token.Scan.shift]
  rw [firstFault_append (firstFault_of_parse ha)]
  have hshift := firstFault_shift (a.length + 1) [] (Token.scan b).tokens (Token.scan b).openQuote
  rwa [hb] at hshift

/-- A fault of reading has a place, unless a numeral is too long. -/
theorem fault_of_parse {source : String} {f : Fault} (h : parse source = .error f) :
    (∃ (what : Malformation) (p : Nat), f = .program (.malformed what (some (p : Int)))) ∨
      ∃ digits, f = .breakdown (.numeralTooLong digits) := by
  obtain ⟨i, hdefect, -⟩ := parse_eq_error_iff.mp h
  cases hdefect with
  | token _ hdefect =>
    cases hdefect with
    | strayClose => exact .inl ⟨_, _, rfl⟩
    | longInteger => exact .inr ⟨_, rfl⟩
    | number => exact .inl ⟨_, _, rfl⟩
  | openString => exact .inl ⟨_, _, rfl⟩
  | unclosed => exact .inl ⟨_, _, rfl⟩

/-- **Joined texts are read in turn.** Behind a text that can be read and a line break, a second
text is read as if it stood by itself. Either it can be read, and its expressions come after those
of the first text. Or it cannot be read, and then the joined text cannot be read for the same
reason: what is malformed is the same and lies further on by the length of what stands before it, or
the same numeral is too long. -/
theorem joined_texts_are_read_in_turn {a : String} {es : List Expr} (ha : parse a = .ok es)
    (b : String) :
    (∀ es', parse b = .ok es' → parse (a ++ "\n" ++ b) = .ok (es ++ es')) ∧
      ∀ f, parse b = .error f →
        (∃ (what : Malformation) (p : Nat), f = .program (.malformed what (some (p : Int))) ∧
          parse (a ++ "\n" ++ b)
            = .error (.program (.malformed what (some ((p + (a.length + 1) : Nat) : Int))))) ∨
        ∃ digits, f = .breakdown (.numeralTooLong digits) ∧
          parse (a ++ "\n" ++ b) = .error (.breakdown (.numeralTooLong digits)) := by
  refine ⟨fun es' hb ↦ parse_joined ha hb, fun f hb ↦ ?_⟩
  have hjoined := parse_joined_of_error ha hb
  rcases fault_of_parse hb with ⟨what, p, rfl⟩ | ⟨digits, rfl⟩
  · rw [Fault.shift_malformed, Nat.add_comm] at hjoined
    exact .inl ⟨what, p, rfl, hjoined⟩
  · exact .inr ⟨digits, rfl, hjoined⟩

/-- The first text ends in a comment with a parenthesis and a quote. Of the three defects of the
second text the one that is met first is reported, fifteen characters further on. -/
theorem joined_texts_are_read_in_turn_comment :
    parse "(f \";\") g ; (\""
        = .ok [.compound [.reference "f", .string ";"], .reference "g"] ∧
      parse "(1y \"z" = .error (.program (.malformed (.number "1y") (some 1))) ∧
      parse ("(f \";\") g ; (\"" ++ "\n" ++ "(1y \"z")
        = .error (.program (.malformed (.number "1y") (some 16))) := by
  have ha : parse "(f \";\") g ; (\""
      = .ok [.compound [.reference "f", .string ";"], .reference "g"] :=
    parse_of_toOption (by decide +kernel)
  have hb : parse "(1y \"z" = .error (.program (.malformed (.number "1y") (some 1))) :=
    parse_eq_error_iff_firstFault.mpr (by decide +kernel)
  refine ⟨ha, hb, ?_⟩
  obtain ⟨what, p, hf, hjoined⟩ | ⟨digits, hf, -⟩ := (joined_texts_are_read_in_turn ha _).2 _ hb
  · cases hf
    exact hjoined
  · cases hf

end Interleave

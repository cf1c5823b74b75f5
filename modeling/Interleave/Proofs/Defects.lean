import Interleave.Proofs.Spelling

/-!
# What is wrong with a text

A text that cannot be read has some defect. Its tokens are gone through from left to right with the
places of the parentheses that are open at each of them (`Token.track`). A token may be at fault
there (`Token.Defect`). After the last token there may be a quote that nothing closes, and after
that the text ends, perhaps with parentheses open. A text may have many defects, each at a time of
its own (`DefectAt`).

The reader stops at the first of them. It keeps the compounds that are open, with what was read of
their elements, and only their places matter for its faults. So its fault is the first that a walk
over the tokens finds (`TokenFeed.restExprs_firstFault`), and the walk finds the first defect
(`firstFault_eq_some_iff`). All is put together in `reading_reports_the_first_defect`.

## Places

A fault names a place, and something malformed of its kind stands there: a quote, a closing or an
opening parenthesis, or a word that begins with a digit (`Malformation.StandsAt`). This needs the
cutting of the text into pieces, because a token is known to stand at its offset only through it.
-/

namespace Interleave

namespace Token

/-- The places of the open parentheses after a token, innermost first. -/
def track (opened : List Nat) (t : Token) : List Nat :=
  match t.kind with
  | .opening => t.offset :: opened
  | .closing => opened.tail
  | .string | .word => opened

/-- A token is at fault where the given parentheses are open. -/
inductive Defect (opened : List Nat) (t : Token) : Fault → Prop where
  /-- It closes a parenthesis where none is open. -/
  | strayClose (hkind : t.kind = .closing) (hopened : opened = []) :
    Defect opened t (.program (.malformed .strayClose (some t.offset)))
  /-- It is an integer with too many digits. -/
  | longInteger {digits : List Char} {n : Int} (hkind : t.kind = .word)
    (hword : IsInteger t.text.toList digits n) (hlong : Numeral.maxDigits < digits.length) :
    Defect opened t (.breakdown (.numeralTooLong digits.length))
  /-- It begins with a digit and is no integer. -/
  | number {c : Char} (hkind : t.kind = .word)
    (hform : ∀ digits n, ¬IsInteger t.text.toList digits n)
    (hfirst : t.text.toList.head? = some c) (hdigit : Text.isDigit c = true) :
    Defect opened t (.program (.malformed (.number t.text) (some t.offset)))

end Token

/-- What is wrong with a text, and when it is met: at a token, at the quote behind the tokens, or at
the end, which comes after the quote. -/
inductive DefectAt (opened : List Nat) (ts : List Token) (quote : Option Nat) :
    Nat → Fault → Prop where
  /-- A token is at fault. -/
  | token {before after : List Token} {t : Token} {f : Fault} (hts : ts = before ++ t :: after)
    (h : t.Defect (before.foldl Token.track opened) f) : DefectAt opened ts quote before.length f
  /-- A quote is never closed. -/
  | openString {p : Nat} (hquote : quote = some p) :
    DefectAt opened ts quote ts.length (.program (.malformed .openString (some p)))
  /-- The text ends with parentheses open. The innermost is to blame. -/
  | unclosed {p : Nat} {outer : List Nat} (hopened : ts.foldl Token.track opened = p :: outer) :
    DefectAt opened ts quote (ts.length + 1) (.program (.malformed .unclosed (some p)))

/-- The first thing that is wrong with a text. -/
def FirstDefect (opened : List Nat) (ts : List Token) (quote : Option Nat) (f : Fault) : Prop :=
  ∃ i, DefectAt opened ts quote i f ∧ ∀ j < i, ∀ g, ¬DefectAt opened ts quote j g

/-! ## The first defect -/

/-- The fault of a token where the given parentheses are open. -/
def Token.fault? (opened : List Nat) (t : Token) : Option Fault :=
  match t.kind with
  | .closing =>
    if opened.isEmpty then some (.program (.malformed .strayClose (some t.offset))) else none
  | .word =>
    match readWord t.text t.offset with
    | .ok _ => none
    | .error f => some f
  | .opening | .string => none

/-- The fault of the first defect that a walk over the tokens finds. -/
def firstFault (opened : List Nat) : List Token → Option Nat → Option Fault
  | [], some p => some (.program (.malformed .openString (some p)))
  | [], none => opened.head?.map fun (p : Nat) ↦ .program (.malformed .unclosed (some p))
  | t :: ts, quote => (t.fault? opened).or (firstFault (t.track opened) ts quote)

/-- A word that is not read is an integer with too many digits, or begins with a digit and is no
integer. -/
theorem readWord_eq_error_iff {word : String} {offset : Nat} {f : Fault} :
    readWord word offset = .error f ↔
      (∃ digits n, IsInteger word.toList digits n ∧ Numeral.maxDigits < digits.length ∧
        f = .breakdown (.numeralTooLong digits.length)) ∨
      (∀ digits n, ¬IsInteger word.toList digits n) ∧
        (∃ c, word.toList.head? = some c ∧ Text.isDigit c = true) ∧
        f = .program (.malformed (.number word) (some offset)) := by
  simp only [readWord]
  constructor
  · intro h
    split at h
    · next hnumeral =>
      split at h
      · cases h
      · next hlen =>
        cases h
        exact .inl ⟨_, _, isInteger_iff.mpr ⟨hnumeral, rfl, rfl⟩, Nat.lt_of_not_le hlen, rfl⟩
    · next hnumeral =>
      split at h
      · next hdigit =>
        cases h
        refine .inr ⟨fun digits n hword ↦ hnumeral (isInteger_iff.mp hword).1, ?_, rfl⟩
        exact (Option.any_eq_true _ _).mp hdigit
      · cases h
  · rintro (⟨digits, n, hword, hlong, rfl⟩ | ⟨hform, ⟨c, hfirst, hdigit⟩, rfl⟩)
    · obtain ⟨hnumeral, rfl, -⟩ := isInteger_iff.mp hword
      rw [if_pos hnumeral, if_neg (Nat.not_le.mpr hlong)]
    · have hnumeral : ¬Numeral.isNumeral word.toList = true := fun hnumeral ↦
        hform _ _ (isInteger_iff.mpr ⟨hnumeral, rfl, rfl⟩)
      rw [if_neg hnumeral, hfirst, Option.any_some, if_pos hdigit]

theorem Token.fault?_eq_some_iff {opened : List Nat} {t : Token} {f : Fault} :
    t.fault? opened = some f ↔ t.Defect opened f := by
  rw [fault?]
  constructor
  · intro h
    split at h
    · next hkind =>
      split at h
      · next hopened =>
        cases h
        exact .strayClose hkind (List.isEmpty_iff.mp hopened)
      · cases h
    · next hkind =>
      split at h
      · cases h
      · next hread =>
        cases h
        rcases readWord_eq_error_iff.mp hread with ⟨digits, n, hword, hlong, rfl⟩ |
            ⟨hform, ⟨c, hfirst, hdigit⟩, rfl⟩
        · exact .longInteger hkind hword hlong
        · exact .number hkind hform hfirst hdigit
    · cases h
    · cases h
  · intro h
    cases h with
    | strayClose hkind hopened =>
      simp only [hkind, hopened]
      rfl
    | longInteger hkind hword hlong =>
      have hread : readWord t.text t.offset = _ :=
        readWord_eq_error_iff.mpr (.inl ⟨_, _, hword, hlong, rfl⟩)
      simp only [hkind, hread]
    | number hkind hform hfirst hdigit =>
      have hread : readWord t.text t.offset = _ :=
        readWord_eq_error_iff.mpr (.inr ⟨hform, ⟨_, hfirst, hdigit⟩, rfl⟩)
      simp only [hkind, hread]

section Walk

variable {opened : List Nat} {t : Token} {ts : List Token} {quote : Option Nat} {i : Nat}
  {f : Fault}

theorem defectAt_nil_iff :
    DefectAt opened [] quote i f ↔
      (i = 0 ∧ ∃ p : Nat, quote = some p ∧ f = .program (.malformed .openString (some p))) ∨
      i = 1 ∧ ∃ (p : Nat) (outer : List Nat), opened = p :: outer ∧
        f = .program (.malformed .unclosed (some p)) := by
  constructor
  · intro h
    cases h with
    | token hts =>
      exact absurd hts.symm (List.append_ne_nil_of_right_ne_nil _ (List.cons_ne_nil _ _))
    | openString hquote => exact .inl ⟨rfl, _, hquote, rfl⟩
    | unclosed hopened => exact .inr ⟨rfl, _, _, hopened, rfl⟩
  · rintro (⟨rfl, p, hquote, rfl⟩ | ⟨rfl, p, outer, hopened, rfl⟩)
    · exact .openString hquote
    · exact .unclosed hopened

theorem defectAt_cons_zero_iff : DefectAt opened (t :: ts) quote 0 f ↔ t.Defect opened f := by
  constructor
  · intro h
    generalize hi : 0 = i at h
    cases h with
    | token hts h =>
      rw [List.eq_nil_of_length_eq_zero hi.symm] at hts h
      cases hts
      exact h
    | openString => cases hi
    | unclosed => cases hi
  · exact @DefectAt.token opened (t :: ts) quote [] ts t f rfl

/-- What is wrong after the first token is wrong with the others, where the parentheses are open
that the first token leaves. -/
theorem defectAt_cons_succ_iff :
    DefectAt opened (t :: ts) quote (i + 1) f ↔ DefectAt (t.track opened) ts quote i f := by
  constructor
  · intro h
    generalize hi : i + 1 = j at h
    cases h with
    | @token before _ _ _ hts h =>
      cases before with
      | nil => cases hi
      | cons u before =>
        cases hts
        cases hi
        exact .token rfl h
    | openString hquote =>
      cases hi
      exact .openString hquote
    | unclosed hopened =>
      cases hi
      exact .unclosed hopened
  · intro h
    cases h with
    | @token before after _ _ hts h =>
      exact @DefectAt.token opened (t :: ts) quote (t :: before) after _ _ (congrArg _ hts) h
    | openString hquote => exact @DefectAt.openString opened (t :: ts) quote _ hquote
    | unclosed hopened => exact @DefectAt.unclosed opened (t :: ts) quote _ _ hopened

theorem firstDefect_iff_of_zero {g : Fault} (h : DefectAt opened ts quote 0 g) :
    FirstDefect opened ts quote f ↔ DefectAt opened ts quote 0 f := by
  constructor
  · rintro ⟨i, hi, hfirst⟩
    cases i with
    | zero => exact hi
    | succ i => exact absurd h (hfirst 0 (Nat.succ_pos i) g)
  · intro h
    exact ⟨0, h, fun j hj ↦ absurd hj (Nat.not_lt_zero j)⟩

theorem firstDefect_cons_iff (h : ∀ g, ¬t.Defect opened g) :
    FirstDefect opened (t :: ts) quote f ↔ FirstDefect (t.track opened) ts quote f := by
  constructor
  · rintro ⟨i, hi, hfirst⟩
    cases i with
    | zero => exact absurd (defectAt_cons_zero_iff.mp hi) (h f)
    | succ i =>
      refine ⟨i, defectAt_cons_succ_iff.mp hi, fun j hj g hg ↦ ?_⟩
      exact hfirst (j + 1) (Nat.succ_lt_succ hj) g (defectAt_cons_succ_iff.mpr hg)
  · rintro ⟨i, hi, hfirst⟩
    refine ⟨i + 1, defectAt_cons_succ_iff.mpr hi, fun j hj g hg ↦ ?_⟩
    cases j with
    | zero => exact h g (defectAt_cons_zero_iff.mp hg)
    | succ j => exact hfirst j (Nat.lt_of_succ_lt_succ hj) g (defectAt_cons_succ_iff.mp hg)

theorem firstDefect_nil_iff :
    FirstDefect opened [] quote f ↔ firstFault opened [] quote = some f := by
  cases quote with
  | some p =>
    rw [firstDefect_iff_of_zero (.openString rfl), defectAt_nil_iff, firstFault]
    simp [eq_comm]
  | none =>
    simp only [FirstDefect, defectAt_nil_iff, firstFault]
    cases opened with
    | nil => simp
    | cons p outer => simp [eq_comm]

/-- **The first defect.** The walk finds a fault exactly if the first defect has it. -/
theorem firstFault_eq_some_iff :
    firstFault opened ts quote = some f ↔ FirstDefect opened ts quote f := by
  induction ts generalizing opened with
  | nil => exact firstDefect_nil_iff.symm
  | cons t ts ih =>
    rw [firstFault]
    cases hfault : t.fault? opened with
    | some g =>
      have hdefect : DefectAt opened (t :: ts) quote 0 g :=
        defectAt_cons_zero_iff.mpr (Token.fault?_eq_some_iff.mp hfault)
      rw [firstDefect_iff_of_zero hdefect, defectAt_cons_zero_iff, ← Token.fault?_eq_some_iff,
        hfault, Option.some_or]
    | none =>
      have hnone (g : Fault) : ¬t.Defect opened g := by
        rw [← Token.fault?_eq_some_iff, hfault]
        simp
      rw [firstDefect_cons_iff hnone, Option.none_or, ih]

end Walk

/-! ## The reader stops at the first defect -/

namespace TokenFeed

/-- The tokens that the feed still holds, in the order in which they are taken. -/
def tokens (s : TokenFeed) : List Token :=
  s.lookahead ++ s.unread.tokens

/-- The fault of the first defect in what the feed still holds. -/
def firstFault (opened : List Nat) (s : TokenFeed) : Option Fault :=
  Interleave.firstFault opened s.tokens s.unread.openQuote

/-- The first fault is that of the token that is taken, or else comes after it. -/
theorem firstFault_eq_take (opened : List Nat) (s : TokenFeed) :
    s.firstFault opened =
      match s.take with
      | (.ok (some t), s') => (t.fault? opened).or (s'.firstFault (t.track opened))
      | (.ok none, _) =>
        opened.head?.map fun (p : Nat) ↦ .program (.malformed .unclosed (some p))
      | (.error f, _) => some f := by
  obtain ⟨lookahead, unread, openQuote⟩ := s
  cases lookahead with
  | cons t ts => rfl
  | nil =>
    cases unread with
    | cons t ts => rfl
    | nil => cases openQuote <;> rfl

/-- Inside compounds the first fault is that of reading them, or else comes after them. -/
theorem readCompound_firstFault (inner : OpenCompound) (outer : List OpenCompound)
    (s : TokenFeed) :
    s.firstFault ((inner :: outer).map OpenCompound.offset) =
      match s.readCompound inner outer with
      | (.ok _, s') => s'.firstFault []
      | (.error f, _) => some f := by
  -- only the places of the open compounds matter, not what was read of their elements
  fun_induction readCompound inner outer s with
  | case1 inner outer s f s' h => rw [firstFault_eq_take, h]
  | case2 inner outer s s' h =>
    rw [firstFault_eq_take, h]
    rfl
  | case3 inner outer s t s' h hkind ih =>
    rw [firstFault_eq_take, h]
    simp only [Token.fault?, Token.track, hkind]
    exact ih
  | case4 inner s t s' h hkind =>
    rw [firstFault_eq_take, h]
    simp only [Token.fault?, Token.track, hkind]
    rfl
  | case5 inner s t s' h hkind next others ih =>
    rw [firstFault_eq_take, h]
    simp only [Token.fault?, Token.track, hkind]
    exact ih
  | case6 inner outer s t s' h hkind ih =>
    rw [firstFault_eq_take, h]
    simp only [Token.fault?, Token.track, hkind]
    exact ih
  | case7 inner outer s t s' h hkind e hread ih =>
    rw [firstFault_eq_take, h]
    simp only [Token.fault?, Token.track, hkind, hread]
    exact ih
  | case8 inner outer s t s' h hkind f hread =>
    rw [firstFault_eq_take, h]
    simp only [Token.fault?, hkind, hread]
    rfl

theorem nextExpr_firstFault (s : TokenFeed) :
    s.firstFault [] =
      match s.nextExpr with
      | (.ok (some _), s') => s'.firstFault []
      | (.ok none, _) => none
      | (.error f, _) => some f := by
  rw [firstFault_eq_take, nextExpr]
  rcases s.take with ⟨f | _ | t, s'⟩
  · rfl
  · rfl
  · simp only [Token.fault?, Token.track]
    cases hkind : t.kind with
    | opening =>
      refine (readCompound_firstFault ⟨t.offset, []⟩ [] s').trans ?_
      rcases s'.readCompound ⟨t.offset, []⟩ [] with ⟨f | e, s''⟩ <;> rfl
    | closing => rfl
    | string => rfl
    | word => cases readWord t.text t.offset <;> rfl

theorem restExprs_firstFault (s : TokenFeed) :
    s.firstFault [] =
      match s.restExprs with
      | (.ok _, _) => none
      | (.error f, _) => some f := by
  fun_induction restExprs s with
  | case1 s f s' h => rw [nextExpr_firstFault, h]
  | case2 s s' h => rw [nextExpr_firstFault, h]
  | case3 s e s' h es s'' hrest ih =>
    rw [nextExpr_firstFault, h]
    rw [hrest] at ih
    exact ih
  | case4 s e s' h f s'' hrest ih =>
    rw [nextExpr_firstFault, h]
    rw [hrest] at ih
    exact ih

end TokenFeed

theorem parse_eq_error_iff {source : String} {f : Fault} :
    parse source = .error f ↔
      FirstDefect [] (Token.scan source).tokens (Token.scan source).openQuote f := by
  rw [← firstFault_eq_some_iff]
  have hfirst := TokenFeed.restExprs_firstFault (.ofSource source)
  change firstFault [] (Token.scan source).tokens (Token.scan source).openQuote = _ at hfirst
  rw [hfirst, parse]
  match (TokenFeed.ofSource source).restExprs with
  | (.ok es, s') => simp
  | (.error g, s') => simp

theorem exists_firstDefect_iff {opened : List Nat} {ts : List Token} {quote : Option Nat} :
    (∃ f, FirstDefect opened ts quote f) ↔ ∃ i f, DefectAt opened ts quote i f := by
  constructor
  · rintro ⟨f, i, h, -⟩
    exact ⟨i, f, h⟩
  · rintro ⟨i, f, h⟩
    induction i using Nat.strong_induction_on generalizing f with
    | _ i ih =>
      by_cases hfirst : ∀ j < i, ∀ g, ¬DefectAt opened ts quote j g
      · exact ⟨f, i, h, hfirst⟩
      · push Not at hfirst
        obtain ⟨j, hj, g, hg⟩ := hfirst
        exact ih j hj g hg

/-! ## Places -/

/-- At this place a quote opens a string that nothing closes. What stands before it is made up of
tokens and gaps, so it is in no string and in no comment. -/
def NeverClosedAt (source : String) (p : Nat) : Prop :=
  ∃ pieces gap body, Token.Decomposes source.toList pieces (gap ++ '"' :: body) ∧
    Token.IsGap gap ∧ Token.NeverCloses body ∧
    p = (pieces.flatMap Token.Piece.text ++ gap).length

theorem openQuote_eq_some_iff {source : String} {p : Nat} :
    (Token.scan source).openQuote = some p ↔ NeverClosedAt source p := by
  constructor
  · intro hquote
    obtain ⟨pieces, rest, h, hrest | ⟨gap, body, rfl, hgap, hbody⟩⟩ :=
      Token.exists_decomposes source.toList
    · rw [Token.scan, h.openQuote_of_isLastGap hrest] at hquote
      cases hquote
    · rw [Token.scan, h.openQuote_of_neverCloses hgap hbody, Nat.zero_add] at hquote
      exact ⟨pieces, gap, body, h, hgap, hbody, (Option.some.inj hquote).symm⟩
  · rintro ⟨pieces, gap, body, h, hgap, hbody, rfl⟩
    rw [Token.scan, h.openQuote_of_neverCloses hgap hbody, Nat.zero_add]

/-- What is malformed stands at this place of the text. -/
def Malformation.StandsAt (source : String) (p : Nat) : Malformation → Prop
  | .openString => source.toList[p]? = some '"'
  | .unexpectedChar c => source.toList[p]? = some c
  | .strayClose => source.toList[p]? = some ')'
  | .unclosed => source.toList[p]? = some '('
  | .number word => word.toList <+: source.toList.drop p ∧
      ∃ c, source.toList[p]? = some c ∧ Text.isDigit c = true
  | .other _ => False

/-- A token of the scan stands at its place and has the shape that its kind demands. -/
theorem Token.standsAt_of_mem_scan {source : String} {t : Token}
    (ht : t ∈ (Token.scan source).tokens) :
    t.text.toList <+: source.toList.drop t.offset ∧ HasShape t.kind t.text.toList := by
  obtain ⟨pieces, rest, h, hrest⟩ := exists_decomposes source.toList
  have hshape : HasShape t.lexeme.1 t.lexeme.2.toList :=
    hasShape_of_mem_lexemes (List.mem_map_of_mem ht)
  rw [scan, h.tokens_scanFrom hrest 0] at ht
  obtain ⟨left, right, htext, hplace⟩ := exists_of_mem_tokensAt ht
  refine ⟨⟨right ++ rest, ?_⟩, hshape⟩
  rw [h.text, htext, hplace, Nat.zero_add, List.append_assoc, List.append_assoc, List.drop_left]

theorem getElem?_of_isPrefix_drop {source cs : List Char} {c : Char} {p : Nat}
    (h : c :: cs <+: source.drop p) : source[p]? = some c := by
  obtain ⟨rest, hrest⟩ := h
  rw [← List.head?_drop, ← hrest]
  rfl

theorem exists_token_of_mem_track {ts : List Token} {opened : List Nat} {p : Nat}
    (h : p ∈ ts.foldl Token.track opened) :
    p ∈ opened ∨ ∃ t ∈ ts, t.kind = .opening ∧ t.offset = p := by
  induction ts generalizing opened with
  | nil => exact .inl h
  | cons t ts ih =>
    rcases ih h with hmem | ⟨u, hu, hkind, hplace⟩
    · rw [Token.track] at hmem
      split at hmem
      · next hkind =>
        rcases List.mem_cons.mp hmem with rfl | hmem
        · exact .inr ⟨t, List.mem_cons_self, hkind, rfl⟩
        · exact .inl hmem
      · exact .inl (List.mem_of_mem_tail hmem)
      · exact .inl hmem
      · exact .inl hmem
    · exact .inr ⟨u, List.mem_cons_of_mem _ hu, hkind, hplace⟩

theorem standsAt_of_defectAt {source : String} {i : Nat} {what : Malformation} {place : Option Int}
    (h : DefectAt [] (Token.scan source).tokens (Token.scan source).openQuote i
      (.program (.malformed what place))) :
    ∃ p : Nat, place = some (p : Int) ∧ what.StandsAt source p := by
  cases h with
  | @token before after t _ hts h =>
    -- a token knows its place, and its kind its first character
    have ht : t ∈ (Token.scan source).tokens :=
      hts ▸ List.mem_append_right _ List.mem_cons_self
    obtain ⟨hplace, hshape⟩ := Token.standsAt_of_mem_scan ht
    cases h with
    | strayClose hkind =>
      rw [hkind] at hshape
      rw [hshape.eq_closing] at hplace
      exact ⟨t.offset, rfl, getElem?_of_isPrefix_drop hplace⟩
    | @number c hkind hform hfirst hdigit =>
      refine ⟨t.offset, rfl, hplace, c, ?_, hdigit⟩
      obtain ⟨cs, hcs⟩ := List.head?_eq_some_iff.mp hfirst
      rw [hcs] at hplace
      exact getElem?_of_isPrefix_drop hplace
  | openString hquote =>
    obtain ⟨pieces, gap, body, h, -, -, rfl⟩ := openQuote_eq_some_iff.mp hquote
    have htext : source.toList = pieces.flatMap Token.Piece.text ++ gap ++ '"' :: body := by
      rw [h.text, List.append_assoc]
    have hdrop : source.toList.drop (pieces.flatMap Token.Piece.text ++ gap).length
        = '"' :: body := by rw [htext, List.drop_left]
    exact ⟨_, rfl, getElem?_of_isPrefix_drop ⟨[], by rw [hdrop, List.append_nil]⟩⟩
  | @unclosed p outer hopened =>
    have hmem : p ∈ (Token.scan source).tokens.foldl Token.track [] :=
      hopened ▸ List.mem_cons_self
    rcases exists_token_of_mem_track hmem with hmem | ⟨t, ht, hkind, rfl⟩
    · cases hmem
    · obtain ⟨hplace, hshape⟩ := Token.standsAt_of_mem_scan ht
      rw [hkind] at hshape
      rw [hshape.eq_opening] at hplace
      exact ⟨t.offset, rfl, getElem?_of_isPrefix_drop hplace⟩

/-- **Reading reports the first defect.** A text is not read exactly if it has a defect, and the
fault that is reported is the one that is met first: a closing parenthesis where none is open, an
integer with too many digits, another word that begins with a digit, a quote that nothing closes,
or, at the end, the innermost of the parentheses that are open. The place that is reported is a
place of the text, and what was found wrong stands there. -/
theorem reading_reports_the_first_defect (source : String) :
    let ts := (Token.scan source).tokens
    let quote := (Token.scan source).openQuote
    (∀ f, parse source = .error f ↔
        ∃ i, DefectAt [] ts quote i f ∧ ∀ j < i, ∀ g, ¬DefectAt [] ts quote j g) ∧
      ((∃ f, parse source = .error f) ↔ ∃ i f, DefectAt [] ts quote i f) ∧
      (∀ p, quote = some p ↔ NeverClosedAt source p) ∧
      (∀ what place, parse source = .error (.program (.malformed what place)) →
        ∃ p : Nat, place = some (p : Int) ∧ what.StandsAt source p) ∧
      Malformation.strayClose.message = "Unexpected ')'" ∧
      Malformation.openString.message = "Unterminated string literal" ∧
      Malformation.unclosed.message = "Unexpected end of input, expected ')'" ∧
      ∀ word, (Malformation.number word).message = "Malformed number " ++ Text.quoted word := by
  intro ts quote
  refine ⟨fun f ↦ parse_eq_error_iff, ?_, fun p ↦ openQuote_eq_some_iff, fun what place h ↦ ?_,
    rfl, rfl, rfl, fun word ↦ rfl⟩
  · simp only [parse_eq_error_iff]
    exact exists_firstDefect_iff
  · obtain ⟨i, hdefect, -⟩ := parse_eq_error_iff.mp h
    exact standsAt_of_defectAt hdefect

theorem reading_reports_the_first_defect_manyDefects :
    parse "(a 1x) ) \"b" = .error (.program (.malformed (.number "1x") (some 3))) ∧
      (Malformation.number "1x").StandsAt "(a 1x) ) \"b" 3 := by
  have hparse : parse "(a 1x) ) \"b" = .error (.program (.malformed (.number "1x") (some 3))) :=
    ((reading_reports_the_first_defect _).1 _).mpr (firstFault_eq_some_iff.mp (by decide +kernel))
  obtain ⟨p, hp, hstands⟩ := (reading_reports_the_first_defect _).2.2.2.1 _ _ hparse
  cases hp
  exact ⟨hparse, hstands⟩

end Interleave

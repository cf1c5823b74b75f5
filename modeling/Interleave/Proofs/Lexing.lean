import Interleave.Proofs.Scanning
import Interleave.Token.Lexer
import Mathlib.Data.List.Chain
import Mathlib.Data.List.TakeWhile

/-!
# Texts as gaps and tokens

The scan walks over a text from left to right. Here a text is described without any walk: it is made
up of pieces, each a gap and a token behind it, and of what is left after the last token
(`Token.Decomposes`). A gap consists of blanks and of comments that end with their lines, and two
words with no gap between them would be one word.

Every text can be cut up in this way until nothing is left but a gap, or a string that is never
closed (`Token.exists_decomposes`), and the scan follows every such cutting
(`Token.Decomposes.scanFrom_eq`). So a text can be cut up in one way only, and the tokens of the
scan are those of the cutting, each at the place where it begins (`lexing_cuts_text_in_one_way`).

## The other way to cut a text

`Token.lex` tries alternatives in order and has an outcome for a character that fits none of them.
It cuts every text as the scan does (`Token.lex_eq_scan`). What carries this is that an alternative
fits whatever does not begin with a blank (`Token.front?_eq_none_iff`), so where none fits behind
the blanks there is nothing left, and the outcome is never met (`Token.lex_ne_unexpected`).
-/

namespace Interleave

namespace Token

/-! ## Gaps, strings and tokens -/

/-- What may stand between two tokens: blanks, and comments that end with their lines. -/
inductive IsGap : List Char → Prop where
  | nil : IsGap []
  | blank {c : Char} {cs : List Char} (hc : Text.isBlank c = true) (h : IsGap cs) : IsGap (c :: cs)
  | comment {text cs : List Char} (htext : '\n' ∉ text) (h : IsGap cs) :
    IsGap (';' :: text ++ '\n' :: cs)

/-- What may stand after the last token: a gap, and a comment that ends with the text. -/
inductive IsLastGap : List Char → Prop where
  | gap {cs : List Char} (h : IsGap cs) : IsLastGap cs
  | comment {cs text : List Char} (h : IsGap cs) (htext : '\n' ∉ text) :
    IsLastGap (cs ++ ';' :: text)

/-- What may stand between the quotes of a string: pairs of a backslash and any character, and
characters other than backslashes and quotes. -/
inductive IsBody : List Char → Prop where
  | nil : IsBody []
  | escape {c : Char} {cs : List Char} (h : IsBody cs) : IsBody ('\\' :: c :: cs)
  | plain {c : Char} {cs : List Char} (hbackslash : c ≠ '\\') (hquote : c ≠ '"') (h : IsBody cs) :
    IsBody (c :: cs)

/-- The text after the opening quote of a string has no quote that closes the string. -/
def NeverCloses (cs : List Char) : Prop :=
  ∀ body rest, IsBody body → cs ≠ body ++ '"' :: rest

/-- The characters make up a token of the kind. -/
inductive HasShape : Kind → List Char → Prop where
  | opening : HasShape .opening ['(']
  | closing : HasShape .closing [')']
  | string {body : List Char} (h : IsBody body) : HasShape .string ('"' :: body ++ ['"'])
  | word {cs : List Char} (h : IsWord cs) : HasShape .word cs

/-- What is left of a text that can be cut up no further: a gap, or a gap and a quote that nothing
closes. -/
def IsEnd (rest : List Char) : Prop :=
  IsLastGap rest ∨ ∃ gap body, rest = gap ++ '"' :: body ∧ IsGap gap ∧ NeverCloses body

/-- A token together with the gap before it. -/
structure Piece where
  /-- What stands before the token. -/
  gap : List Char
  /-- The kind of the token. -/
  kind : Kind
  /-- The characters of the token. -/
  chars : List Char

def Piece.text (p : Piece) : List Char :=
  p.gap ++ p.chars

/-- The text is made up of pieces and of what is left after them. -/
structure Decomposes (cs : List Char) (pieces : List Piece) (rest : List Char) : Prop where
  /-- Nothing is lost. -/
  text : cs = pieces.flatMap Piece.text ++ rest
  /-- Between the tokens there are gaps. -/
  gap : ∀ p ∈ pieces, IsGap p.gap
  /-- The tokens are tokens. -/
  shape : ∀ p ∈ pieces, HasShape p.kind p.chars
  /-- There is something between two words. -/
  apart : pieces.IsChain fun p q ↦ p.kind = .word → q.kind = .word → q.gap ≠ []

/-- The tokens of pieces that begin at the given offset. -/
def tokensAt (offset : Nat) : List Piece → List Token
  | [] => []
  | p :: ps =>
    ⟨p.kind, String.ofList p.chars, offset + p.gap.length⟩ :: tokensAt (offset + p.text.length) ps

/-! ## Strings that are closed -/

theorem IsBody.splitString_eq {body : List Char} (h : IsBody body) (rest : List Char) :
    splitString (body ++ '"' :: rest) = some (body, rest) := by
  induction h with
  | nil => rfl
  | escape _ ih =>
    simp only [List.cons_append]
    rw [splitString, ih, Option.map_some]
  | plain hbackslash hquote _ ih =>
    rw [List.cons_append, splitString.eq_4 _ _ hquote (fun _ _ h _ ↦ hbackslash h), ih,
      Option.map_some]

theorem isBody_of_splitString {cs body rest : List Char} (h : splitString cs = some (body, rest)) :
    IsBody body := by
  fun_induction splitString cs generalizing body rest with
  | case1 => cases h
  | case2 cs =>
    cases h
    exact .nil
  | case3 c cs ih =>
    obtain ⟨⟨b, r⟩, hs, he⟩ := Option.map_eq_some_iff.mp h
    cases he
    exact (ih hs).escape
  | case4 c cs hquote hescape ih =>
    obtain ⟨⟨b, r⟩, hs, he⟩ := Option.map_eq_some_iff.mp h
    cases he
    -- a backslash before the end of the text is closed by nothing
    have hbackslash : c ≠ '\\' := by
      intro hc
      cases cs with
      | nil => cases hs
      | cons c' cs => exact hescape c' cs hc rfl
    exact (ih hs).plain hbackslash hquote

/-- The text after a quote can be cut at the quote that closes the string, and nowhere else. -/
theorem splitString_eq_some_iff {cs body rest : List Char} :
    splitString cs = some (body, rest) ↔ IsBody body ∧ cs = body ++ '"' :: rest := by
  constructor
  · intro h
    exact ⟨isBody_of_splitString h, append_of_splitString h⟩
  · rintro ⟨h, rfl⟩
    exact h.splitString_eq rest

theorem splitString_eq_none_iff {cs : List Char} :
    splitString cs = none ↔ NeverCloses cs := by
  rw [Option.eq_none_iff_forall_ne_some]
  constructor
  · intro h body rest hbody hcs
    exact h (body, rest) (splitString_eq_some_iff.mpr ⟨hbody, hcs⟩)
  · rintro h ⟨body, rest⟩ hsplit
    obtain ⟨hbody, hcs⟩ := splitString_eq_some_iff.mp hsplit
    exact h body rest hbody hcs

/-! ## Words end where gaps and other tokens begin -/

theorem IsGap.delimits {gap rest : List Char} (h : IsGap gap) (hne : gap ≠ []) :
    Delimits (gap ++ rest) := by
  cases h with
  | nil => exact absurd rfl hne
  | blank hc _ => exact delimits_cons (by simp [isWordChar, hc])
  | comment => exact delimits_cons (by decide)

theorem HasShape.delimits {kind : Kind} {cs rest : List Char} (h : HasShape kind cs)
    (hkind : kind ≠ .word) : Delimits (cs ++ rest) := by
  cases h with
  | opening => exact delimits_cons (by decide)
  | closing => exact delimits_cons (by decide)
  | string => exact delimits_cons (by decide)
  | word => exact absurd rfl hkind

theorem HasShape.ne_nil {kind : Kind} {cs : List Char} (h : HasShape kind cs) : cs ≠ [] := by
  cases h with
  | opening | closing | string => exact List.cons_ne_nil _ _
  | word h => exact h.1

theorem IsLastGap.delimits {rest : List Char} (h : IsLastGap rest) : Delimits rest := by
  cases h with
  | gap h =>
    cases h with
    | nil => exact delimits_nil
    | blank hc _ => exact delimits_cons (by simp [isWordChar, hc])
    | comment => exact delimits_cons (by decide)
  | comment h =>
    cases h with
    | nil => exact delimits_cons (by decide)
    | blank hc _ => exact delimits_cons (by simp [isWordChar, hc])
    | comment => exact delimits_cons (by decide)

theorem IsEnd.delimits {rest : List Char} (h : IsEnd rest) : Delimits rest := by
  rcases h with h | ⟨gap, body, rfl, hgap, -⟩
  · exact h.delimits
  · by_cases hempty : gap = []
    · rw [hempty]
      exact delimits_cons (by decide)
    · exact hgap.delimits hempty

theorem IsWord.not_delimits {cs rest : List Char} (h : IsWord cs) : ¬Delimits (cs ++ rest) := by
  intro hdelimits
  cases cs with
  | nil => exact h.1 rfl
  | cons c cs =>
    have hc := h.2 c List.mem_cons_self
    rw [hdelimits c rfl] at hc
    cases hc

/-! ## Cutting a text up -/

/-- A text begins with a gap. What is left then is nothing, a comment that ends with the text, or
begins with a character that belongs to a token. -/
theorem exists_gap (cs : List Char) :
    ∃ gap rest, cs = gap ++ rest ∧ IsGap gap ∧ (rest = [] ∨
      (∃ text, rest = ';' :: text ∧ '\n' ∉ text) ∨
      ∃ c rest', rest = c :: rest' ∧ Text.isBlank c = false ∧ c ≠ ';') := by
  match cs with
  | [] => exact ⟨[], [], rfl, .nil, .inl rfl⟩
  | c :: cs =>
    by_cases hblank : Text.isBlank c = true
    · obtain ⟨gap, rest, rfl, hgap, hrest⟩ := exists_gap cs
      exact ⟨c :: gap, rest, rfl, hgap.blank hblank, hrest⟩
    by_cases hcomment : c = ';'
    · subst hcomment
      by_cases hline : '\n' ∈ cs
      · obtain ⟨text, after, rfl, htext⟩ := List.eq_append_cons_of_mem hline
        obtain ⟨gap, rest, rfl, hgap, hrest⟩ := exists_gap after
        exact ⟨';' :: text ++ '\n' :: gap, rest, by simp, hgap.comment htext, hrest⟩
      · exact ⟨[], _, rfl, .nil, .inr (.inl ⟨cs, rfl, hline⟩)⟩
    · exact ⟨[], _, rfl, .nil, .inr (.inr ⟨c, cs, rfl, Bool.eq_false_iff.mpr hblank, hcomment⟩)⟩
termination_by cs.length

/-- What begins with a character that belongs to a token begins with a token, or with a quote that
nothing closes. -/
theorem exists_shape {c : Char} {cs : List Char} (hblank : Text.isBlank c = false)
    (hcomment : c ≠ ';') :
    (∃ kind chars rest, c :: cs = chars ++ rest ∧ HasShape kind chars ∧
        (kind = .word → Delimits rest)) ∨
      c = '"' ∧ splitString cs = none := by
  by_cases hopening : c = '('
  · subst hopening
    exact .inl ⟨.opening, ['('], cs, rfl, .opening, by simp⟩
  by_cases hclosing : c = ')'
  · subst hclosing
    exact .inl ⟨.closing, [')'], cs, rfl, .closing, by simp⟩
  by_cases hquote : c = '"'
  · subst hquote
    cases hsplit : splitString cs with
    | none => exact .inr ⟨rfl, rfl⟩
    | some bodyRest =>
      obtain ⟨body, rest⟩ := bodyRest
      obtain ⟨hbody, rfl⟩ := splitString_eq_some_iff.mp hsplit
      exact .inl ⟨.string, '"' :: body ++ ['"'], rest, by simp, .string hbody, by simp⟩
  · have hc : isWordChar c = true :=
      isWordChar_iff.mpr ⟨hblank, hopening, hclosing, hquote, hcomment⟩
    refine .inl ⟨.word, c :: cs.takeWhile isWordChar, cs.dropWhile isWordChar, ?_, ?_, ?_⟩
    · rw [List.cons_append, List.takeWhile_append_dropWhile]
    · refine .word ⟨List.cons_ne_nil _ _, List.forall_mem_cons.mpr ⟨hc, ?_⟩⟩
      exact List.all_eq_true.mp List.all_takeWhile
    · intro _ c' hc'
      have := List.head?_dropWhile_not isWordChar cs
      rw [Option.mem_def.mp hc'] at this
      simpa using this

theorem Decomposes.nil (rest : List Char) : Decomposes rest [] rest :=
  ⟨rfl, nofun, nofun, .nil⟩

/-- After a word there is no other word without a gap before it. -/
theorem Decomposes.cons {gap chars cs rest : List Char} {kind : Kind} {pieces : List Piece}
    (hgap : IsGap gap) (hshape : HasShape kind chars) (hword : kind = .word → Delimits cs)
    (h : Decomposes cs pieces rest) :
    Decomposes (gap ++ chars ++ cs) (⟨gap, kind, chars⟩ :: pieces) rest where
  text := by rw [h.text, List.flatMap_cons, Piece.text, List.append_assoc _ _ rest]
  gap := List.forall_mem_cons.mpr ⟨hgap, h.gap⟩
  shape := List.forall_mem_cons.mpr ⟨hshape, h.shape⟩
  apart := by
    cases pieces with
    | nil => exact .singleton _
    | cons q pieces =>
      refine List.isChain_cons_cons.mpr ⟨fun hkind hq hempty ↦ ?_, h.apart⟩
      have hshape := h.shape q List.mem_cons_self
      rw [hq] at hshape
      cases hshape with
      | word hchars =>
        have htext := h.text
        rw [List.flatMap_cons, Piece.text, hempty, List.nil_append, List.append_assoc] at htext
        exact hchars.not_delimits (htext ▸ hword hkind)

/-- **Every text can be cut up.** -/
theorem exists_decomposes (cs : List Char) :
    ∃ pieces rest, Decomposes cs pieces rest ∧ IsEnd rest := by
  obtain ⟨gap, rest, hcs, hgap, rfl | ⟨text, rfl, htext⟩ | ⟨c, cs', rfl, hblank, hcomment⟩⟩ :=
    exists_gap cs
  · rw [List.append_nil] at hcs
    exact ⟨[], cs, .nil cs, .inl (.gap (hcs ▸ hgap))⟩
  · exact ⟨[], cs, .nil cs, .inl (hcs ▸ .comment hgap htext)⟩
  · rcases exists_shape hblank hcomment with ⟨kind, chars, after, hchars, hshape, hword⟩ |
        ⟨rfl, hsplit⟩
    · have hshorter : after.length < cs.length := by
        have hpos := List.length_pos_of_ne_nil hshape.ne_nil
        rw [hcs, hchars, List.length_append, List.length_append]
        omega
      obtain ⟨pieces, rest, h, hrest⟩ := exists_decomposes after
      rw [hcs, hchars, ← List.append_assoc]
      exact ⟨⟨gap, kind, chars⟩ :: pieces, rest, h.cons hgap hshape hword, hrest⟩
    · exact ⟨[], cs, .nil cs, .inr ⟨gap, cs', hcs, hgap, splitString_eq_none_iff.mp hsplit⟩⟩
termination_by cs.length

/-! ## The scan follows every cutting -/

theorem takeWhile_line {text rest : List Char} (htext : '\n' ∉ text)
    (hrest : ∀ c ∈ rest.head?, c = '\n') : (text ++ rest).takeWhile (· != '\n') = text := by
  have hall : ∀ c ∈ text, (c != '\n') = true := by
    intro c hc
    exact bne_iff_ne.mpr fun heq ↦ htext (heq ▸ hc)
  rw [List.takeWhile_append_of_pos hall]
  cases rest with
  | nil => simp
  | cons c rest => simp [hrest c rfl]

theorem scanFrom_comment {offset : Nat} {text rest : List Char} (htext : '\n' ∉ text)
    (hrest : ∀ c ∈ rest.head?, c = '\n') :
    scanFrom offset (';' :: (text ++ rest)) = scanFrom (offset + 1 + text.length) rest := by
  have htake := takeWhile_line htext hrest
  have hdrop : (text ++ rest).dropWhile (· != '\n') = rest := by
    have hsplit := List.takeWhile_append_dropWhile (p := (· != '\n')) (l := text ++ rest)
    rw [htake] at hsplit
    exact List.append_cancel_left hsplit
  rw [scanFrom, if_neg (by decide), if_pos rfl, htake, hdrop]

theorem IsGap.scanFrom_eq {gap : List Char} (h : IsGap gap) (offset : Nat) (rest : List Char) :
    scanFrom offset (gap ++ rest) = scanFrom (offset + gap.length) rest := by
  induction h generalizing offset with
  | nil => rfl
  | blank hc _ ih =>
    rw [List.cons_append, scanFrom_blank hc, ih, List.length_cons, Nat.add_assoc, Nat.add_comm 1]
  | @comment text cs htext _ ih =>
    have hline : scanFrom offset (';' :: text ++ '\n' :: cs ++ rest)
        = scanFrom (offset + 1 + text.length) ('\n' :: (cs ++ rest)) := by
      rw [List.append_assoc, List.cons_append]
      exact scanFrom_comment htext (by simp)
    rw [hline, scanFrom_blank (by decide), ih]
    congr 1
    simp only [List.length_append, List.length_cons]
    omega

theorem IsLastGap.scanFrom_eq {rest : List Char} (h : IsLastGap rest) (offset : Nat) :
    scanFrom offset rest = ⟨[], none⟩ := by
  cases h with
  | gap h =>
    have hgap := h.scanFrom_eq offset []
    rwa [List.append_nil, scanFrom] at hgap
  | @comment gap text h htext =>
    rw [h.scanFrom_eq offset]
    have hcomment : scanFrom (offset + gap.length) (';' :: (text ++ []))
        = scanFrom (offset + gap.length + 1 + text.length) [] := scanFrom_comment htext (by simp)
    rwa [List.append_nil, scanFrom] at hcomment

theorem scanFrom_openQuote {offset : Nat} {body : List Char} (h : NeverCloses body) :
    scanFrom offset ('"' :: body) = ⟨[], some offset⟩ := by
  rw [scanFrom, if_neg (by decide), if_neg (by decide), if_neg (by decide), if_neg (by decide),
    if_pos rfl]
  split
  · rfl
  · rename_i hsplit
    rw [splitString_eq_none_iff.mpr h] at hsplit
    cases hsplit

theorem HasShape.scanFrom_eq {kind : Kind} {chars : List Char} (h : HasShape kind chars)
    (offset : Nat) {rest : List Char} (hword : kind = .word → Delimits rest) :
    scanFrom offset (chars ++ rest) =
      (scanFrom (offset + chars.length) rest).cons ⟨kind, String.ofList chars, offset⟩ := by
  cases h with
  | opening => exact scanFrom_opening
  | closing => exact scanFrom_closing
  | @string body hbody =>
    have hsplit : splitString (body ++ ['"'] ++ rest) = some (body, rest) := by
      rw [List.append_assoc]
      exact hbody.splitString_eq rest
    rw [List.cons_append, List.cons_append, scanFrom_string hsplit]
    simp [Nat.add_assoc]
  | word hchars => exact scanFrom_word hchars (hword rfl)

/-- A text that begins with a piece goes on with the others, and a word ends where they begin. -/
theorem Decomposes.of_cons {cs rest : List Char} {p : Piece} {pieces : List Piece}
    (h : Decomposes cs (p :: pieces) rest) (hrest : Delimits rest) :
    ∃ cs', cs = p.gap ++ (p.chars ++ cs') ∧ Decomposes cs' pieces rest ∧
      (p.kind = .word → Delimits cs') := by
  refine ⟨pieces.flatMap Piece.text ++ rest, ?_, ⟨rfl, ?_, ?_, h.apart.tail⟩, fun hkind ↦ ?_⟩
  · rw [h.text, List.flatMap_cons, Piece.text, List.append_assoc, List.append_assoc]
  · exact fun q hq ↦ h.gap q (List.mem_cons_of_mem _ hq)
  · exact fun q hq ↦ h.shape q (List.mem_cons_of_mem _ hq)
  · cases pieces with
    | nil => exact hrest
    | cons q pieces =>
      have hq : q ∈ p :: q :: pieces := List.mem_cons_of_mem _ List.mem_cons_self
      have hapart := (List.isChain_cons_cons.mp h.apart).1 hkind
      rw [List.flatMap_cons, Piece.text, List.append_assoc, List.append_assoc]
      by_cases hempty : q.gap = []
      · rw [hempty]
        exact (h.shape q hq).delimits fun hword ↦ hapart hword hempty
      · exact (h.gap q hq).delimits hempty

/-- **The scan follows every cutting.** -/
theorem Decomposes.scanFrom_eq {cs rest : List Char} {pieces : List Piece}
    (h : Decomposes cs pieces rest) (hrest : Delimits rest) (offset : Nat) :
    scanFrom offset cs =
      { scanFrom (offset + (pieces.flatMap Piece.text).length) rest with
        tokens := tokensAt offset pieces ++
          (scanFrom (offset + (pieces.flatMap Piece.text).length) rest).tokens } := by
  induction pieces generalizing cs offset with
  | nil =>
    rw [h.text]
    rfl
  | cons p pieces ih =>
    obtain ⟨cs', rfl, h', hword⟩ := h.of_cons hrest
    have hp : p ∈ p :: pieces := List.mem_cons_self
    have hplace : offset + (List.flatMap Piece.text (p :: pieces)).length
        = offset + p.text.length + (pieces.flatMap Piece.text).length := by
      rw [List.flatMap_cons, List.length_append, Nat.add_assoc]
    have hafter : offset + p.gap.length + p.chars.length = offset + p.text.length := by
      rw [Piece.text, List.length_append, Nat.add_assoc]
    rw [(h.gap p hp).scanFrom_eq, (h.shape p hp).scanFrom_eq _ hword, hafter, ih h', hplace]
    rfl

theorem Decomposes.tokens_scanFrom {cs rest : List Char} {pieces : List Piece}
    (h : Decomposes cs pieces rest) (hrest : IsEnd rest) (offset : Nat) :
    (scanFrom offset cs).tokens = tokensAt offset pieces := by
  rw [h.scanFrom_eq hrest.delimits]
  rcases hrest with hrest | ⟨gap, body, rfl, hgap, hbody⟩
  · rw [hrest.scanFrom_eq, List.append_nil]
  · rw [hgap.scanFrom_eq, scanFrom_openQuote hbody, List.append_nil]

theorem Decomposes.openQuote_of_isLastGap {cs rest : List Char} {pieces : List Piece}
    (h : Decomposes cs pieces rest) (hrest : IsLastGap rest) (offset : Nat) :
    (scanFrom offset cs).openQuote = none := by
  rw [h.scanFrom_eq hrest.delimits, hrest.scanFrom_eq]

theorem Decomposes.openQuote_of_neverCloses {cs gap body : List Char} {pieces : List Piece}
    (h : Decomposes cs pieces (gap ++ '"' :: body)) (hgap : IsGap gap) (hbody : NeverCloses body)
    (offset : Nat) :
    (scanFrom offset cs).openQuote = some (offset + (pieces.flatMap Piece.text ++ gap).length) := by
  have hrest : IsEnd (gap ++ '"' :: body) := .inr ⟨gap, body, rfl, hgap, hbody⟩
  rw [h.scanFrom_eq hrest.delimits, hgap.scanFrom_eq, scanFrom_openQuote hbody,
    List.length_append, Nat.add_assoc]

/-! ## Cuttings from tokens -/

theorem eq_of_tokensAt_eq {pieces pieces' : List Piece} {rest rest' : List Char} {offset : Nat}
    (htext : pieces.flatMap Piece.text ++ rest = pieces'.flatMap Piece.text ++ rest')
    (htokens : tokensAt offset pieces = tokensAt offset pieces') :
    pieces = pieces' ∧ rest = rest' := by
  induction pieces generalizing pieces' offset with
  | nil =>
    cases pieces' with
    | nil => exact ⟨rfl, htext⟩
    | cons p' pieces' => cases htokens
  | cons p pieces ih =>
    cases pieces' with
    | nil => cases htokens
    | cons p' pieces' =>
      obtain ⟨gap, kind, chars⟩ := p
      obtain ⟨gap', kind', chars'⟩ := p'
      simp only [tokensAt, List.cons.injEq, Token.mk.injEq, String.ofList_inj] at htokens
      obtain ⟨⟨rfl, rfl, hplace⟩, htokens⟩ := htokens
      simp only [List.flatMap_cons, Piece.text, List.append_assoc] at htext
      obtain ⟨rfl, hchars⟩ := List.append_inj htext (by omega)
      obtain ⟨rfl, hrest⟩ := ih (List.append_cancel_left hchars) htokens
      exact ⟨rfl, hrest⟩

/-- A text can be cut up in one way only. -/
theorem Decomposes.unique {cs rest rest' : List Char} {pieces pieces' : List Piece}
    (h : Decomposes cs pieces rest) (hrest : IsEnd rest) (h' : Decomposes cs pieces' rest')
    (hrest' : IsEnd rest') : pieces = pieces' ∧ rest = rest' := by
  have htokens : tokensAt 0 pieces = tokensAt 0 pieces' := by
    rw [← h.tokens_scanFrom hrest, ← h'.tokens_scanFrom hrest']
  exact eq_of_tokensAt_eq (h.text.symm.trans h'.text) htokens

theorem exists_piece_of_mem_tokensAt {pieces : List Piece} {offset : Nat} {t : Token}
    (ht : t ∈ tokensAt offset pieces) :
    ∃ p ∈ pieces, t.kind = p.kind ∧ t.text = String.ofList p.chars := by
  induction pieces generalizing offset with
  | nil => cases ht
  | cons p pieces ih =>
    rcases List.mem_cons.mp ht with rfl | ht
    · exact ⟨p, List.mem_cons_self, rfl, rfl⟩
    · obtain ⟨q, hq, hkind, htext⟩ := ih ht
      exact ⟨q, List.mem_cons_of_mem _ hq, hkind, htext⟩

theorem exists_of_mem_tokensAt {pieces : List Piece} {offset : Nat} {t : Token}
    (ht : t ∈ tokensAt offset pieces) :
    ∃ left right, pieces.flatMap Piece.text = left ++ t.text.toList ++ right ∧
      t.offset = offset + left.length := by
  induction pieces generalizing offset with
  | nil => cases ht
  | cons p pieces ih =>
    rw [List.flatMap_cons]
    rcases List.mem_cons.mp ht with rfl | ht
    · refine ⟨p.gap, pieces.flatMap Piece.text, ?_, rfl⟩
      rw [String.toList_ofList, Piece.text]
    · obtain ⟨left, right, htext, hplace⟩ := ih ht
      refine ⟨p.text ++ left, right, ?_, ?_⟩
      · rw [htext, List.append_assoc p.text, List.append_assoc p.text]
      · rw [hplace, List.length_append, Nat.add_assoc]

end Token

/-! ## All tokens of a feed -/

/-- Takes tokens from a feed until it is at its end or fails. -/
def TokenFeed.drain (s : TokenFeed) : List Token × Option Fault :=
  match _h : s.take with
  | (.ok (some t), s') => (t :: s'.drain.1, s'.drain.2)
  | (.ok none, _) => ([], none)
  | (.error f, _) => ([], some f)
termination_by s.size
decreasing_by
  all_goals
    have := size_of_take _h
    omega

theorem TokenFeed.drain_unread (ts : List Token) (openQuote : Option Nat) :
    drain ⟨[], ts, openQuote⟩ =
      (ts, openQuote.map fun p ↦ .program (.malformed .openString (some (p : Int)))) := by
  induction ts with
  | nil => cases openQuote <;> rw [drain] <;> rfl
  | cons t ts ih =>
    rw [drain]
    simp only [take, pull, ih]

theorem TokenFeed.drain_ofSource (source : String) :
    (ofSource source).drain = ((Token.scan source).tokens, (Token.scan source).openQuote.map
      fun p ↦ .program (.malformed .openString (some (p : Int)))) :=
  drain_unread _ _

/-! ## The branch that is never taken -/

namespace Token

/-- An alternative fits every text that does not begin with a blank. -/
theorem front?_eq_none_iff {cs : List Char} :
    front? cs = none ↔ ∀ c ∈ cs.head?, Text.isBlank c = true := by
  fun_cases front? cs with
  | case1 => simp
  | case2 | case3 | case4 | case5 | case6 =>
    refine iff_of_false (Option.some_ne_none _) fun h ↦ ?_
    exact absurd (h _ rfl) (by decide)
  | case7 c cs hsemicolon hopening hclosing hquote hword =>
    refine iff_of_false (Option.some_ne_none _) fun h ↦ ?_
    exact absurd (h c rfl) (Bool.eq_false_iff.mp (isWordChar_iff.mp hword).1)
  | case8 c cs hsemicolon hopening hclosing hquote hword =>
    refine iff_of_true rfl ?_
    rintro c' ⟨⟩
    -- what cannot stand in a word and begins no other alternative is blank
    cases hblank : Text.isBlank c with
    | true => rfl
    | false =>
      exact absurd (isWordChar_iff.mpr ⟨hblank, hopening, hclosing, hquote, hsemicolon⟩) hword

theorem scanFrom_dropWhile_isBlank (offset : Nat) (cs : List Char) :
    scanFrom (offset + (cs.takeWhile Text.isBlank).length) (cs.dropWhile Text.isBlank) =
      scanFrom offset cs := by
  induction cs generalizing offset with
  | nil => rfl
  | cons c cs ih =>
    by_cases hc : Text.isBlank c = true
    · rw [List.takeWhile_cons_of_pos hc, List.dropWhile_cons_of_pos hc, scanFrom_blank hc, ← ih,
        List.length_cons, Nat.add_assoc, Nat.add_comm 1]
    · rw [List.takeWhile_cons_of_neg hc, List.dropWhile_cons_of_neg hc]
      rfl

theorem scanFrom_of_front? {cs : List Char} {f : Front} (h : front? cs = some f) (offset : Nat) :
    scanFrom offset cs =
      match f with
      | .comment text rest => scanFrom (offset + text.length) rest
      | .token kind text rest =>
        (scanFrom (offset + text.length) rest).cons ⟨kind, String.ofList text, offset⟩
      | .openQuote => ⟨[], some offset⟩ := by
  fun_cases front? cs with
  | case1 => cases h
  | case2 cs =>
    cases h
    rw [scanFrom, if_neg (by decide), if_pos rfl]
    simp only [List.length_cons, Nat.add_assoc, Nat.add_comm 1]
  | case3 cs =>
    cases h
    exact scanFrom_opening
  | case4 cs =>
    cases h
    exact scanFrom_closing
  | case5 cs body rest hsplit =>
    rw [front?, hsplit] at h
    cases h
    rw [scanFrom_string hsplit]
    -- both go on behind the body and the two quotes around it
    simp [Nat.add_assoc]
  | case6 cs hsplit =>
    rw [front?, hsplit] at h
    cases h
    exact scanFrom_openQuote (splitString_eq_none_iff.mp hsplit)
  | case7 c cs hsemicolon hopening hclosing hquote hword =>
    rw [front?.eq_6 c cs hsemicolon hopening hclosing hquote, if_pos hword] at h
    cases h
    have hblank := Bool.eq_false_iff.mp (isWordChar_iff.mp hword).1
    rw [scanFrom, if_neg hblank, if_neg hsemicolon, if_neg hopening, if_neg hclosing, if_neg hquote]
    simp only [List.length_cons, Nat.add_assoc, Nat.add_comm 1]
  | case8 c cs hsemicolon hopening hclosing hquote hword =>
    rw [front?.eq_6 c cs hsemicolon hopening hclosing hquote, if_neg hword] at h
    cases h

/-- The lexing that comes to the same as a scan. -/
def Scan.lexing (s : Scan) : Lexing :=
  ⟨s.tokens, s.openQuote.elim .complete .openQuote⟩

theorem dropWhile_isBlank_of_front? {cs : List Char}
    (h : front? (cs.dropWhile Text.isBlank) = none) : cs.dropWhile Text.isBlank = [] := by
  have hblank := front?_eq_none_iff.mp h
  cases hcs : cs.dropWhile Text.isBlank with
  | nil => rfl
  | cons c rest =>
    have hfirst := List.head?_dropWhile_not Text.isBlank cs
    rw [hcs] at hblank hfirst
    simp [hblank c rfl] at hfirst

theorem lexFrom_eq_scanFrom (offset : Nat) (cs : List Char) :
    lexFrom offset cs = (scanFrom offset cs).lexing := by
  rw [← scanFrom_dropWhile_isBlank]
  fun_induction lexFrom offset cs with
  | case1 offset cs start text rest hfront ih =>
    rw [scanFrom_of_front? hfront, ih, scanFrom_dropWhile_isBlank]
  | case2 offset cs start kind text rest hfront l ih =>
    rw [scanFrom_of_front? hfront]
    rw [scanFrom_dropWhile_isBlank] at ih
    simp only [l, ih]
    rfl
  | case3 offset cs start hfront =>
    rw [scanFrom_of_front? hfront]
    rfl
  | case4 =>
    rw [List.dropWhile_nil, scanFrom]
    rfl
  | case5 offset c rest hfront hall =>
    rw [dropWhile_isBlank_of_front? hfront, scanFrom]
    rfl
  | case6 offset c rest hfront hall =>
    -- the branch that is never taken: where no alternative fits, all is blank
    have hnil := dropWhile_isBlank_of_front? hfront
    rw [List.dropWhile_eq_nil_iff] at hnil
    exact absurd (List.all_eq_true.mpr hnil) hall

/-- Both ways to cut a text into tokens come to the same. -/
theorem lex_eq_scan (source : String) : lex source = (scan source).lexing :=
  lexFrom_eq_scanFrom 0 source.toList

/-- No character of a text is unexpected. -/
theorem lex_ne_unexpected (source : String) (c : Char) (offset : Nat) :
    (lex source).ending ≠ .unexpected c offset := by
  rw [lex_eq_scan, Scan.lexing]
  cases (scan source).openQuote with
  | none => exact Ending.noConfusion
  | some p => exact Ending.noConfusion

end Token

/-- The feed of a text hands out the tokens of its lexing, and fails as the lexing fails. -/
theorem TokenFeed.drain_eq_lex (source : String) :
    (ofSource source).drain = ((Token.lex source).tokens, (Token.lex source).ending.fault?) := by
  rw [drain_ofSource, Token.lex_eq_scan, Token.Scan.lexing]
  cases (Token.scan source).openQuote <;> rfl

/-! ## The one cutting -/

open Token in
/-- **Lexing cuts a text up in the only possible way.** Lexing comes to the end of the text, or
fails at a quote that opens a string and is never closed.

It comes to the end with some tokens if and only if the text is made up of these tokens, of gaps
between them that no two words lack, and of a last gap, which may end in a comment that has no line
feed. It fails at a quote if and only if the text up to there is made up of tokens and gaps in the
same way and no later quote closes the string. In both cases there is one such cutting, and every
token is given with the place where it begins. -/
theorem lexing_cuts_text_in_one_way (source : String) :
    let lexed := (TokenFeed.ofSource source).drain
    let unterminated (p : Nat) : Fault := .program (.malformed .openString (some (p : Int)))
    (lexed.2 = none ∨ ∃ p, lexed.2 = some (unterminated p)) ∧
      Malformation.openString.message = "Unterminated string literal" ∧
      (∀ tokens, lexed = (tokens, none) ↔ ∃ pieces rest,
        Decomposes source.toList pieces rest ∧ IsLastGap rest ∧ tokens = tokensAt 0 pieces) ∧
      (∀ tokens p, lexed = (tokens, some (unterminated p)) ↔ ∃ pieces gap body,
        Decomposes source.toList pieces (gap ++ '"' :: body) ∧ IsGap gap ∧ NeverCloses body ∧
          tokens = tokensAt 0 pieces ∧ p = (pieces.flatMap Piece.text ++ gap).length) ∧
      (∀ pieces rest pieces' rest', Decomposes source.toList pieces rest → IsEnd rest →
        Decomposes source.toList pieces' rest' → IsEnd rest' → pieces = pieces' ∧ rest = rest') ∧
      ∀ t ∈ lexed.1, ∃ left right,
        source.toList = left ++ t.text.toList ++ right ∧ t.offset = left.length := by
  intro lexed unterminated
  have hlexed : lexed = ((scan source).tokens, (scan source).openQuote.map unterminated) :=
    TokenFeed.drain_ofSource source
  have hinj : ∀ {p p' : Nat}, unterminated p = unterminated p' → p = p' := by
    intro p p' h
    exact Int.ofNat_inj.mp (by simpa [unterminated] using h)
  obtain ⟨pieces, rest, h, hrest⟩ := exists_decomposes source.toList
  have htokens : (scan source).tokens = tokensAt 0 pieces := h.tokens_scanFrom hrest 0
  refine ⟨?_, rfl, fun tokens ↦ ?_, fun tokens p ↦ ?_, ?_, fun t ht ↦ ?_⟩
  · rw [hlexed]
    cases (scan source).openQuote with
    | none => exact .inl rfl
    | some p => exact .inr ⟨p, rfl⟩
  · rw [hlexed, Prod.mk.injEq, Option.map_eq_none_iff]
    constructor
    · rintro ⟨rfl, hquote⟩
      rcases hrest with hrest | ⟨gap, body, rfl, hgap, hbody⟩
      · exact ⟨pieces, rest, h, hrest, htokens⟩
      · have := h.openQuote_of_neverCloses hgap hbody 0
        rw [scan, this] at hquote
        cases hquote
    · rintro ⟨pieces', rest', h', hrest', rfl⟩
      exact ⟨h'.tokens_scanFrom (.inl hrest') 0, h'.openQuote_of_isLastGap hrest' 0⟩
  · rw [hlexed, Prod.mk.injEq]
    constructor
    · rintro ⟨rfl, hquote⟩
      rcases hrest with hrest | ⟨gap, body, rfl, hgap, hbody⟩
      · rw [scan, h.openQuote_of_isLastGap hrest 0] at hquote
        cases hquote
      · rw [scan, h.openQuote_of_neverCloses hgap hbody 0, Option.map_some, Option.some.injEq,
          Nat.zero_add] at hquote
        exact ⟨pieces, gap, body, h, hgap, hbody, htokens, (hinj hquote).symm⟩
    · rintro ⟨pieces', gap, body, h', hgap, hbody, rfl, rfl⟩
      have hrest' : IsEnd (gap ++ '"' :: body) := .inr ⟨gap, body, rfl, hgap, hbody⟩
      refine ⟨h'.tokens_scanFrom hrest' 0, ?_⟩
      rw [scan, h'.openQuote_of_neverCloses hgap hbody 0, Nat.zero_add]
      rfl
  · intro pieces rest pieces' rest' h hrest h' hrest'
    exact h.unique hrest h' hrest'
  · rw [hlexed, htokens] at ht
    obtain ⟨left, right, htext, hplace⟩ := exists_of_mem_tokensAt ht
    refine ⟨left, right ++ rest, ?_, by rw [hplace, Nat.zero_add]⟩
    rw [h.text, htext, List.append_assoc _ right]

end Interleave

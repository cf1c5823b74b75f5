import Interleave.Proofs.Scanning
import Interleave.Proofs.Writable

/-!
# Writing and reading back

Which expressions can be read back from their source text. Expressions that were read can; a tree
put together by hand need not be one of them, since a reference may have a name that no word of a
text stands for, and a number may be longer than what is read. `Expr.isReadable` excludes just that,
and strings are under no restriction.

Text is cut into the same lexemes that the expression was written with (`yields_chars`), and those
spell it (`spells_lexemes`). In the other direction, whatever is read is readable
(`isReadable_of_parse`), so a tree that is not readable cannot come back.

The reader handles nesting of any depth and the writer does not: a tree that is nested deeper than
the limit of `Expr.format` is refused. The main result gives both domains, with a limit and without
one. It is about every limit, and so is the refutation of the plain round trip: whatever the limit,
a tree with one level more is read from its text and cannot be written again.
-/

namespace Interleave

namespace Expr

/-! ## Readable expressions -/

/-- A word of program text stands for the reference to this name. -/
def IsName (name : String) : Prop :=
  Token.IsWord name.toList ∧ Numeral.isNumeral name.toList = false ∧
    name.toList.head?.any Text.isDigit = false

instance (name : String) : Decidable (IsName name) :=
  inferInstanceAs (Decidable (_ ∧ _ ∧ _))

mutual

/-- Whether every number in the expression has few enough digits and every reference a name that can
stand in a text. -/
def isReadable : Expr → Bool
  | .number n => decide ((Nat.toDigits 10 n.natAbs).length ≤ Numeral.maxDigits)
  | .string _ => true
  | .reference name => decide (IsName name)
  | .compound es => isReadableAll es

def isReadableAll : List Expr → Bool
  | [] => true
  | e :: es => isReadable e && isReadableAll es

end

theorem isReadableAll_iff {es : List Expr} :
    isReadableAll es = true ↔ ∀ e ∈ es, e.isReadable = true := by
  induction es with
  | nil => simp [isReadableAll]
  | cons e es ih => simp [isReadableAll, ih]

theorem isReadable_number_iff {n : Int} :
    (number n).isReadable = true ↔ Numeral.isTooLong n = false := by
  rw [Numeral.isTooLong_eq_false_iff, isReadable, decide_eq_true_iff]

/-! ## Lexemes of an expression -/

mutual

/-- The lexemes that the source text of an expression is made of. -/
def lexemes : Expr → List Token.Lexeme
  | .number n => [(.word, Numeral.text n)]
  | .string s => [(.string, String.ofList ('"' :: escape s.toList ++ ['"']))]
  | .reference name => [(.word, name)]
  | .compound es => (.opening, "(") :: lexemesAll es ++ [(.closing, ")")]

/-- The lexemes that the source texts of some expressions are made of. -/
def lexemesAll : List Expr → List Token.Lexeme
  | [] => []
  | e :: es => lexemes e ++ lexemesAll es

end

theorem charsAll_cons_cons (e e' : Expr) (es : List Expr) :
    charsAll (e :: e' :: es) = chars e ++ ' ' :: charsAll (e' :: es) := by
  rw [charsAll]
  exact List.cons_ne_nil _ _

/-! ## Scanning the source text -/

open Token

mutual

/-- The source text of a readable expression is cut into its lexemes, and the scan goes on with what
follows. -/
theorem yields_chars (e : Expr) (he : e.isReadable = true) (offset : Nat) {rest : List Char}
    (hrest : Delimits rest) :
    (scanFrom offset (e.chars ++ rest)).Yields e.lexemes
      (scanFrom (offset + e.chars.length) rest) := by
  match e with
  | .number n =>
    rw [chars, scanFrom_word (Numeral.isWord_chars n) hrest]
    exact Scan.yields_cons _ _
  | .string s =>
    have htext : (string s).chars ++ rest = '"' :: (escape s.toList ++ '"' :: rest) := by
      simp [chars]
    have hlen : offset + (string s).chars.length = offset + (escape s.toList).length + 2 := by
      simp [chars]
      omega
    rw [htext, hlen, scanFrom_string (splitString_escape s.toList rest)]
    exact Scan.yields_cons _ _
  | .reference name =>
    rw [isReadable, decide_eq_true_iff] at he
    rw [chars, scanFrom_word he.1 hrest, String.ofList_toList]
    exact Scan.yields_cons _ _
  | .compound es =>
    have hclose : Delimits (')' :: rest) := delimits_cons (by decide)
    have helements := yields_charsAll es he (offset + 1) hclose
    rw [scanFrom_closing] at helements
    have htext : (compound es).chars ++ rest = '(' :: (charsAll es ++ ')' :: rest) := by
      simp [chars]
    have hlen : offset + (compound es).chars.length = offset + 1 + (charsAll es).length + 1 := by
      simp [chars]
      omega
    rw [htext, hlen, scanFrom_opening]
    exact ((Scan.yields_cons _ _).trans helements).trans (Scan.yields_cons _ _)

theorem yields_charsAll (es : List Expr) (hes : isReadableAll es = true) (offset : Nat)
    {rest : List Char} (hrest : Delimits rest) :
    (scanFrom offset (charsAll es ++ rest)).Yields (lexemesAll es)
      (scanFrom (offset + (charsAll es).length) rest) := by
  match es with
  | [] => exact Scan.Yields.refl _
  | [e] =>
    rw [isReadableAll, Bool.and_eq_true] at hes
    have he := yields_chars e hes.1 offset hrest
    rwa [charsAll, lexemesAll, lexemesAll, List.append_nil]
  | e :: e' :: es =>
    rw [isReadableAll, Bool.and_eq_true] at hes
    have hspace : Delimits (' ' :: (charsAll (e' :: es) ++ rest)) := delimits_cons (by decide)
    have he := yields_chars e hes.1 offset hspace
    rw [scanFrom_blank (by decide)] at he
    have htail := yields_charsAll (e' :: es) hes.2 (offset + e.chars.length + 1) hrest
    have hlen : offset + (charsAll (e :: e' :: es)).length =
        offset + e.chars.length + 1 + (charsAll (e' :: es)).length := by
      simp [charsAll_cons_cons]
      omega
    rw [hlen, charsAll_cons_cons, List.append_assoc, List.cons_append]
    exact he.trans htail

end

/-- The source texts of readable expressions, with one space between two, are cut into their
lexemes. -/
theorem scan_charsAll {es : List Expr} (hes : isReadableAll es = true) :
    (scan (String.ofList (charsAll es))).openQuote = none ∧
      (scan (String.ofList (charsAll es))).lexemes = lexemesAll es :=
  scan_of_yields (yields_charsAll es hes 0 delimits_nil)

/-! ## Reading the lexemes -/

theorem denotes_text {n : Int} (hn : (number n).isReadable = true) :
    Denotes (.word, Numeral.text n) (.number n) := by
  rw [isReadable, decide_eq_true_iff] at hn
  have htext : (Numeral.text n).toList = Numeral.chars n := String.toList_ofList
  have hdenotes : Denotes (.word, Numeral.text n)
      (.number (Numeral.value (Numeral.text n).toList)) := by
    apply Denotes.number
    · rw [htext, Numeral.isNumeral_chars]
    · rwa [htext, Numeral.magnitude_chars]
  rwa [htext, Numeral.value_chars] at hdenotes

mutual

theorem spells_lexemes (e : Expr) (he : e.isReadable = true) : Spells e.lexemes [e] := by
  match e with
  | .number n => exact .atom (denotes_text he) .nil
  | .string s =>
    rw [lexemes, ← readString_escape s]
    exact .atom .string .nil
  | .reference name =>
    rw [isReadable, decide_eq_true_iff] at he
    exact .atom (.reference he.2.1 he.2.2) .nil
  | .compound es => exact (spells_lexemesAll es he).compound .nil

theorem spells_lexemesAll (es : List Expr) (hes : isReadableAll es = true) :
    Spells (lexemesAll es) es := by
  match es with
  | [] => exact .nil
  | e :: es =>
    rw [isReadableAll, Bool.and_eq_true] at hes
    exact (spells_lexemes e hes.1).append (spells_lexemesAll es hes.2)

end

end Expr

theorem parse_charsAll {es : List Expr} (hes : ∀ e ∈ es, e.isReadable = true) :
    parse (String.ofList (Expr.charsAll es)) = .ok es := by
  have hes := Expr.isReadableAll_iff.mpr hes
  obtain ⟨hquote, hlexemes⟩ := Expr.scan_charsAll hes
  refine parse_eq_ok_iff.mpr ⟨hquote, ?_⟩
  rw [hlexemes]
  exact Expr.spells_lexemesAll es hes

/-! ## What is read is readable -/

theorem Denotes.isReadable {l : Token.Lexeme} {e : Expr} (h : Denotes l e)
    (hword : ∀ word, l = (.word, word) → Token.IsWord word.toList) : e.isReadable = true := by
  cases h with
  | number hnumeral hlen =>
    exact Expr.isReadable_number_iff.mpr (Numeral.isTooLong_value hnumeral hlen)
  | reference hnumeral hdigit => exact decide_eq_true ⟨hword _ rfl, hnumeral, hdigit⟩
  | string => rfl

theorem Spells.isReadable {ls : List Token.Lexeme} {es : List Expr} (h : Spells ls es)
    (hwords : ∀ word, (.word, word) ∈ ls → Token.IsWord word.toList) :
    ∀ e ∈ es, e.isReadable = true := by
  induction h with
  | nil => exact List.forall_mem_nil _
  | atom hatom _ ih =>
    have he := hatom.isReadable fun word hword ↦ hwords word (hword ▸ List.mem_cons_self)
    have hrest := ih fun word hword ↦ hwords word (List.mem_cons_of_mem _ hword)
    exact List.forall_mem_cons.mpr ⟨he, hrest⟩
  | compound _ _ ihelements ih =>
    have helements := ihelements fun word hword ↦
      hwords word (List.mem_append_left _ (List.mem_cons_of_mem _ hword))
    have hrest := ih fun word hword ↦
      hwords word (List.mem_append_right _ (List.mem_cons_of_mem _ hword))
    exact List.forall_mem_cons.mpr ⟨Expr.isReadableAll_iff.mpr helements, hrest⟩

theorem isReadable_of_parse {source : String} {es : List Expr} (h : parse source = .ok es) :
    ∀ e ∈ es, e.isReadable = true :=
  (parse_eq_ok_iff.mp h).2.isReadable fun _ ↦ Token.isWord_of_mem_lexemes

/-- An expression is read back from its source text exactly when it is readable, however deeply it
is nested. -/
theorem parse_text_eq_iff {e : Expr} : parse e.text = .ok [e] ↔ e.isReadable = true := by
  constructor
  · intro h
    exact isReadable_of_parse h e List.mem_cons_self
  · intro he
    have htext : e.text = String.ofList (Expr.charsAll [e]) := rfl
    rw [htext]
    exact parse_charsAll (List.forall_mem_singleton.mpr he)

theorem isWritable_of_isReadable {e : Expr} (he : e.isReadable = true) : e.isWritable = true :=
  isWritable_of_parse (parse_text_eq_iff.mpr he) e List.mem_cons_self

/-! ## Formatting -/

namespace Expr

variable {limit : Nat}

theorem format_eq_ok_iff {e : Expr} {text : String} :
    e.format limit = .ok text ↔
      e.nesting ≤ limit ∧ e.isWritable = true ∧ text = e.text := by
  rw [format, source]
  split
  · rename_i hnesting
    split
    · rename_i hwritable
      simp [hnesting, hwritable, eq_comm (a := text)]
    · rename_i hwritable
      simp [hwritable]
  · rename_i hnesting
    simp [hnesting]

theorem format_of_lt_nesting {e : Expr} (h : limit < e.nesting) :
    e.format limit = .error (.breakdown .tooDeep) := by
  rw [format, if_neg (Nat.not_le.mpr h)]

theorem intercalate_chars (es : List Expr) : [' '].intercalate (es.map chars) = charsAll es := by
  induction es with
  | nil => rfl
  | cons e es ih =>
    cases es with
    | nil => simp [charsAll]
    | cons e' es =>
      rw [charsAll_cons_cons, ← ih, List.map_cons, List.map_cons, List.intercalate_cons_cons,
        List.append_assoc, List.singleton_append]

theorem intercalate_text (es : List Expr) :
    " ".intercalate (es.map text) = String.ofList (charsAll es) := by
  have htext : String.toList ∘ text = chars := funext fun e ↦ String.toList_ofList
  have hspace : " ".toList = [' '] := rfl
  apply String.toList_inj.mp
  rw [String.toList_intercalate, List.map_map, htext, hspace, intercalate_chars,
    String.toList_ofList]

theorem mapM_format_of_nesting_le {es : List Expr} (hes : ∀ e ∈ es, e.isWritable = true)
    (hnesting : ∀ e ∈ es, e.nesting ≤ limit) : es.mapM (format limit) = .ok (es.map text) := by
  induction es with
  | nil => rfl
  | cons e es ih =>
    rw [List.forall_mem_cons] at hes hnesting
    rw [List.mapM_cons, format_eq_ok_iff.mpr ⟨hnesting.1, hes.1, rfl⟩, ih hes.2 hnesting.2]
    rfl

theorem mapM_format_of_lt_nesting {es : List Expr} (hes : ∀ e ∈ es, e.isWritable = true)
    (hnesting : ∃ e ∈ es, limit < e.nesting) :
    es.mapM (format limit) = .error (.breakdown .tooDeep) := by
  induction es with
  | nil =>
    obtain ⟨e, he, -⟩ := hnesting
    cases he
  | cons e es ih =>
    rw [List.forall_mem_cons] at hes
    rw [List.mapM_cons]
    by_cases he : limit < e.nesting
    · rw [format_of_lt_nesting he]
      rfl
    · obtain ⟨e', he', hlt⟩ := hnesting
      have hmem : e' ∈ es := by
        rcases List.mem_cons.mp he' with rfl | hmem
        · exact absurd hlt he
        · exact hmem
      rw [format_eq_ok_iff.mpr ⟨Nat.not_lt.mp he, hes.1, rfl⟩, ih hes.2 ⟨e', hmem, hlt⟩]
      rfl

theorem formatAll_of_nesting_le {es : List Expr} (hes : ∀ e ∈ es, e.isWritable = true)
    (hnesting : ∀ e ∈ es, e.nesting ≤ limit) :
    formatAll limit es = .ok (String.ofList (charsAll es)) := by
  rw [formatAll, mapM_format_of_nesting_le hes hnesting, ← intercalate_text]
  rfl

theorem formatAll_of_lt_nesting {es : List Expr} (hes : ∀ e ∈ es, e.isWritable = true)
    (hnesting : ∃ e ∈ es, limit < e.nesting) :
    formatAll limit es = .error (.breakdown .tooDeep) := by
  rw [formatAll, mapM_format_of_lt_nesting hes hnesting]
  rfl

end Expr

/-- **Written and read back.** Whatever the limit on nesting is: an expression is read back from its
formatted text exactly when it is readable and not nested deeper than the limit, and from its full
text exactly when it is readable. Every expression that is read is readable. So the program read
from a text is read back from its formatted text, unless some expression of it is nested deeper than
the limit, and then it is not formatted at all. -/
theorem formatted_text_reads_back_iff_readable (limit : Nat) (e : Expr) :
    ((∃ text, e.format limit = .ok text ∧ parse text = .ok [e]) ↔
      e.isReadable = true ∧ e.nesting ≤ limit) ∧
    (parse e.text = .ok [e] ↔ e.isReadable = true) ∧
    ∀ (source : String) (es : List Expr), parse source = .ok es →
      (∀ e ∈ es, e.isReadable = true) ∧
      ((∀ e ∈ es, e.nesting ≤ limit) →
        ∃ text, Expr.formatAll limit es = .ok text ∧ parse text = .ok es) ∧
      ((∃ e ∈ es, limit < e.nesting) →
        Expr.formatAll limit es = .error (.breakdown .tooDeep)) := by
  refine ⟨⟨?_, ?_⟩, parse_text_eq_iff, fun source es h ↦ ⟨isReadable_of_parse h, ?_, ?_⟩⟩
  · rintro ⟨text, hformat, hparse⟩
    obtain ⟨hnesting, -, rfl⟩ := Expr.format_eq_ok_iff.mp hformat
    exact ⟨parse_text_eq_iff.mp hparse, hnesting⟩
  · rintro ⟨he, hnesting⟩
    refine ⟨e.text, ?_, parse_text_eq_iff.mpr he⟩
    exact Expr.format_eq_ok_iff.mpr ⟨hnesting, isWritable_of_isReadable he, rfl⟩
  · intro hnesting
    exact ⟨_, Expr.formatAll_of_nesting_le (isWritable_of_parse h) hnesting,
      parse_charsAll (isReadable_of_parse h)⟩
  · intro hnesting
    exact Expr.formatAll_of_lt_nesting (isWritable_of_parse h) hnesting

/-- A program with a string of quotes, backslashes, parentheses and a semicolon, a name that begins
like a numeral, and a numeral with a leading zero. -/
def oddAtoms : List Expr :=
  [.compound [.reference "f", .string "a\"; (\\", .reference "--1", .number (-5), .compound []]]

/-- The program is nested two levels deep, so a limit of two is enough for it and one is not. -/
theorem formatted_text_reads_back_iff_readable_oddAtoms :
    parse "(f \"a\\\"; (\\\\\" --1 -05 ())" = .ok oddAtoms ∧
      (∃ text, Expr.formatAll 2 oddAtoms = .ok text ∧ parse text = .ok oddAtoms) ∧
      Expr.formatAll 1 oddAtoms = .error (.breakdown .tooDeep) ∧
      ¬∃ text, (Expr.reference "1").format 2 = .ok text ∧ parse text = .ok [.reference "1"] := by
  have hodd : parse "(f \"a\\\"; (\\\\\" --1 -05 ())" = .ok oddAtoms :=
    parse_of_toOption (by decide +kernel)
  have hshallow : ∀ e ∈ oddAtoms, e.nesting ≤ 2 := by decide
  have hdeep : ∃ e ∈ oddAtoms, 1 < e.nesting := by decide
  -- the name is read, but as a number
  have hname : (Expr.reference "1").isReadable = false := by decide
  obtain ⟨hdomain, -, hread⟩ := formatted_text_reads_back_iff_readable 2 (.reference "1")
  obtain ⟨-, -, hread'⟩ := formatted_text_reads_back_iff_readable 1 (.reference "1")
  refine ⟨hodd, (hread _ _ hodd).2.1 hshallow, (hread' _ _ hodd).2.2 hdeep, fun h ↦ ?_⟩
  rw [hdomain, hname] at h
  exact absurd h.1 (by decide)

/-! ## Nesting beyond the limit -/

/-- An empty compound inside so many others. -/
def nested : Nat → Expr
  | 0 => .compound []
  | n + 1 => .compound [nested n]

theorem isReadable_nested (n : Nat) : (nested n).isReadable = true := by
  induction n with
  | zero => rfl
  | succ n ih => simp [nested, Expr.isReadable, Expr.isReadableAll, ih]

theorem nesting_nested (n : Nat) : (nested n).nesting = n + 1 := by
  induction n with
  | zero => rfl
  | succ n ih => simp [nested, Expr.nesting, Expr.nestingAll, ih]

theorem parse_text_nested (n : Nat) : parse (nested n).text = .ok [nested n] :=
  parse_text_eq_iff.mpr (isReadable_nested n)

theorem lt_nesting_nested (n : Nat) : n < (nested n).nesting := by
  rw [nesting_nested]
  exact Nat.lt_succ_self n

/-- There is no limit up to which formatting every program that is read would do: one level more is
read as any other, and what is read is not formatted. -/
theorem nested_beyond_limit_read_but_not_formatted :
    ¬∃ limit : Nat, ∀ (source : String) (es : List Expr), parse source = .ok es →
      ∃ text, Expr.formatAll limit es = .ok text ∧ parse text = .ok es := by
  rintro ⟨limit, hall⟩
  have hread := parse_text_nested limit
  obtain ⟨text, hformat, -⟩ := hall _ _ hread
  rw [Expr.formatAll_of_lt_nesting (isWritable_of_parse hread)
    ⟨_, List.mem_cons_self, lt_nesting_nested limit⟩] at hformat
  cases hformat

end Interleave

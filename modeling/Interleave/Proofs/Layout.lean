import Interleave.Expr.Layout
import Interleave.Proofs.RoundTrip

/-!
# Laid out and read back

A layout breaks lines between the elements of a compound and nowhere else. A line break with any
indentation behind it, none included, separates tokens as well as the one space that stands there in
the source text. So whichever compounds are broken up, the text is cut into the same lexemes
(`yields_layoutChars`), and it is read as the same expression.

The lines of a layout are not looked at one by one: a string may go over several of them. What is
shown is that the scan comes from the beginning of the layout of an expression to its end with the
lexemes of the expression, whatever delimiter follows.

## The limit

A layout exists for every tree, and what is shown of it holds at any depth. What lays a tree out in
practice breaks off at nesting beyond a limit that is not a matter of the language. So the result
has a part for every limit: up to it formatting gives the layout, and beyond it there is none. The
counterexample takes the limit as given and exceeds it by one level.
-/

namespace Interleave

namespace Expr

open Token

/-! ## Indentation -/

theorem scanFrom_replicate (offset n : Nat) (cs : List Char) :
    scanFrom offset (List.replicate n ' ' ++ cs) = scanFrom (offset + n) cs := by
  induction n generalizing offset with
  | zero => rfl
  | succ n ih =>
    rw [List.replicate_succ, List.cons_append, scanFrom_blank (by decide), ih, Nat.add_assoc,
      Nat.add_comm 1]

theorem scanFrom_newLine (o : LayoutOptions) (level : Int) (offset : Nat) (cs : List Char) :
    scanFrom offset ('\n' :: o.indentation level ++ cs)
      = scanFrom (offset + ('\n' :: o.indentation level).length) cs := by
  rw [List.cons_append, scanFrom_blank (by decide), LayoutOptions.indentation, scanFrom_replicate,
    List.length_cons, List.length_replicate, Nat.add_assoc, Nat.add_comm 1]

theorem delimits_layoutLines (o : LayoutOptions) (level : Int) (es : List Expr) {rest : List Char}
    (hrest : Delimits rest) : Delimits (layoutLines o level es ++ rest) := by
  cases es with
  | nil => exact hrest
  | cons e es => exact delimits_cons (by decide)

/-! ## Scanning the layout -/

mutual

/-- The layout of a readable expression is cut into its lexemes, and the scan goes on with what
follows. -/
theorem yields_layoutChars (o : LayoutOptions) (level : Int) (e : Expr) (he : e.isReadable = true)
    (offset : Nat) {rest : List Char} (hrest : Delimits rest) :
    (scanFrom offset (layoutChars o level e ++ rest)).Yields e.lexemes
      (scanFrom (offset + (layoutChars o level e).length) rest) := by
  match e with
  | .number _ | .string _ | .reference _ | .compound [] => exact yields_chars _ he offset hrest
  | .compound (e :: es) =>
    rw [layoutChars]
    split
    · exact yields_chars _ he offset hrest
    · rw [isReadable, isReadableAll, Bool.and_eq_true] at he
      have hclose : Delimits (')' :: rest) := delimits_cons (by decide)
      have hfirst := yields_layoutChars o (level + 1) e he.1 (offset + 1)
        (delimits_layoutLines o (level + 1) es hclose)
      have hothers := yields_layoutLines o (level + 1) es he.2
        (offset + 1 + (layoutChars o (level + 1) e).length) hclose
      rw [scanFrom_closing] at hothers
      have htext : '(' :: layoutChars o (level + 1) e ++ layoutLines o (level + 1) es ++ [')']
            ++ rest
          = '(' :: (layoutChars o (level + 1) e
            ++ (layoutLines o (level + 1) es ++ ')' :: rest)) := by
        simp
      have hlen : offset + ('(' :: layoutChars o (level + 1) e ++ layoutLines o (level + 1) es
            ++ [')']).length
          = offset + 1 + (layoutChars o (level + 1) e).length
            + (layoutLines o (level + 1) es).length + 1 := by
        simp
        omega
      rw [htext, hlen, scanFrom_opening]
      exact ((Scan.yields_cons _ _).trans (hfirst.trans hothers)).trans (Scan.yields_cons _ _)

theorem yields_layoutLines (o : LayoutOptions) (level : Int) (es : List Expr)
    (hes : isReadableAll es = true) (offset : Nat) {rest : List Char} (hrest : Delimits rest) :
    (scanFrom offset (layoutLines o level es ++ rest)).Yields (lexemesAll es)
      (scanFrom (offset + (layoutLines o level es).length) rest) := by
  match es with
  | [] => exact Scan.Yields.refl _
  | e :: es =>
    rw [isReadableAll, Bool.and_eq_true] at hes
    have hfirst := yields_layoutChars o level e hes.1
      (offset + ('\n' :: o.indentation level).length) (delimits_layoutLines o level es hrest)
    have hothers := yields_layoutLines o level es hes.2 (offset +
      ('\n' :: o.indentation level).length + (layoutChars o level e).length) hrest
    have hlen : offset + (layoutLines o level (e :: es)).length
        = offset + ('\n' :: o.indentation level).length + (layoutChars o level e).length
          + (layoutLines o level es).length := by
      simp [layoutLines]
      omega
    rw [hlen, layoutLines, List.append_assoc, List.append_assoc, scanFrom_newLine]
    exact hfirst.trans hothers

end

/-- The layout of a readable expression is cut into the lexemes of the expression. -/
theorem scan_layout {e : Expr} (he : e.isReadable = true) (o : LayoutOptions) (level : Int) :
    (scan (e.layout o level)).openQuote = none ∧
      (scan (e.layout o level)).lexemes = e.lexemes :=
  scan_of_yields (yields_layoutChars o level e he 0 delimits_nil)

theorem scan_text {e : Expr} (he : e.isReadable = true) :
    (scan e.text).openQuote = none ∧ (scan e.text).lexemes = e.lexemes :=
  scan_of_yields (yields_chars e he 0 delimits_nil)

end Expr

/-- A readable expression is read back from its layout. -/
theorem parse_layout {e : Expr} (he : e.isReadable = true) (o : Expr.LayoutOptions) (level : Int) :
    parse (e.layout o level) = .ok [e] := by
  obtain ⟨hquote, hlexemes⟩ := Expr.scan_layout he o level
  refine parse_eq_ok_iff.mpr ⟨hquote, ?_⟩
  rw [hlexemes]
  exact Expr.spells_lexemes e he

/-! ## Formatting -/

namespace Expr

variable {limit : Nat}

theorem formatLines_of_format {e : Expr} {text : String} (h : e.format limit = .ok text)
    (o : LayoutOptions) (level : Int) : e.formatLines limit o level = .ok (e.layout o level) := by
  rw [formatLines, h]
  rfl

theorem formatLines_of_lt_nesting {e : Expr} (h : limit < e.nesting) (o : LayoutOptions)
    (level : Int) : e.formatLines limit o level = .error (.breakdown .tooDeep) := by
  rw [formatLines, format_of_lt_nesting h]
  rfl

end Expr

/-- **A layout keeps the tokens.** Whatever the level and the options, zero and negative ones
included, the layout of an expression that was read has the tokens of its source text, in kind and
text, and is read as that expression alone. Whatever the limit on nesting, formatting gives the two
texts unless the expression is nested deeper, and then it gives neither. -/
theorem layout_keeps_the_tokens {source : String} {es : List Expr} (h : parse source = .ok es)
    {e : Expr} (he : e ∈ es) (o : Expr.LayoutOptions) (level : Int) :
    (Token.scan (e.layout o level)).lexemes = (Token.scan e.text).lexemes ∧
      (Token.scan (e.layout o level)).openQuote = none ∧ (Token.scan e.text).openQuote = none ∧
      parse (e.layout o level) = .ok [e] ∧
      ∀ limit : Nat,
        (e.nesting ≤ limit →
          e.formatLines limit o level = .ok (e.layout o level) ∧ e.format limit = .ok e.text) ∧
        (limit < e.nesting →
          e.formatLines limit o level = .error (.breakdown .tooDeep) ∧
            e.format limit = .error (.breakdown .tooDeep)) := by
  have hreadable := isReadable_of_parse h e he
  obtain ⟨hquote, hlexemes⟩ := Expr.scan_layout hreadable o level
  obtain ⟨hquote', hlexemes'⟩ := Expr.scan_text hreadable
  refine ⟨hlexemes.trans hlexemes'.symm, hquote, hquote', parse_layout hreadable o level,
    fun limit ↦ ⟨fun hnesting ↦ ?_, fun hnesting ↦ ?_⟩⟩
  · have hformat : e.format limit = .ok e.text :=
      Expr.format_eq_ok_iff.mpr ⟨hnesting, isWritable_of_isReadable hreadable, rfl⟩
    exact ⟨Expr.formatLines_of_format hformat o level, hformat⟩
  · exact ⟨Expr.formatLines_of_lt_nesting hnesting o level, Expr.format_of_lt_nesting hnesting⟩

/-- A compound with a string that goes over two lines and holds a semicolon and a parenthesis. -/
def overLines : Expr :=
  .compound [.reference "f", .compound [.reference "g", .string ";\n(", .compound []], .number (-1)]

/-- At a negative level, where the inner compound fits on a line. The expression is nested three
levels deep. -/
theorem layout_keeps_the_tokens_overLines :
    parse "(f (g \";\n(\" ()) -01)" = .ok [overLines] ∧
      overLines.formatLines 3 { maxLineLength := 12, indentWidth := 3 } (-1)
        = .ok "(f\n(g \";\n(\" ())\n-1)" ∧
      overLines.formatLines 2 { maxLineLength := 12, indentWidth := 3 } (-1)
        = .error (.breakdown .tooDeep) ∧
      parse "(f\n(g \";\n(\" ())\n-1)" = .ok [overLines] := by
  have hparse : parse "(f (g \";\n(\" ()) -01)" = .ok [overLines] :=
    parse_of_toOption (by decide +kernel)
  have htext : overLines.layout { maxLineLength := 12, indentWidth := 3 } (-1)
      = "(f\n(g \";\n(\" ())\n-1)" := by decide +kernel
  obtain ⟨-, -, -, hread, hformat⟩ := layout_keeps_the_tokens hparse List.mem_cons_self
    { maxLineLength := 12, indentWidth := 3 } (-1)
  rw [htext] at hread hformat
  exact ⟨hparse, ((hformat 3).1 (by decide)).1, ((hformat 2).2 (by decide)).1, hread⟩

/-- There is no limit up to which laying out every expression that is read would do: one level more
is read as any other, and what is read is not laid out. -/
theorem nested_beyond_limit_read_but_not_laid_out :
    ¬∃ limit : Nat, ∀ (source : String) (es : List Expr), parse source = .ok es →
      ∀ e ∈ es, ∀ (o : Expr.LayoutOptions) (level : Int),
        ∃ text, e.formatLines limit o level = .ok text ∧ parse text = .ok [e] := by
  rintro ⟨limit, hall⟩
  obtain ⟨text, hformat, -⟩ :=
    hall _ _ (parse_text_nested limit) (nested limit) List.mem_cons_self {} 0
  rw [Expr.formatLines_of_lt_nesting (lt_nesting_nested limit)] at hformat
  cases hformat

end Interleave

import Interleave.Proofs.Lexing

/-!
# Texts joined by a line break

A line break ends whatever the text before it has not ended: a word, a comment, a run of blanks.
Only a string goes on behind it. So two texts that are joined by a line break have the tokens of the
first and then those of the second, which lie further on (`Token.scanFrom_joined`). What they spell
is what the two of them spell one after the other (`parse_joined`).

## The proof

The scan of the joined text is compared with the scan of the first one, along the recursion of the
latter. At each of its steps the line break is still ahead. A comment ends at the line break if it
did not end before, and a word does, since the line break cannot stand in a word. A string that is
closed is closed at the same place, whatever follows the text. A string that is not closed is the
exception, and is excluded by the assumption that no quote is left open.

When the first scan is at its end the other one has the line break before it, passes over it, and
goes on with the second text. That text begins at another offset there, and offsets only go into the
places of tokens (`Token.scanFrom_add`).
-/

namespace Interleave

namespace Token

/-! ## Places -/

def shift (k : Nat) (t : Token) : Token :=
  { t with offset := k + t.offset }

def Scan.shift (k : Nat) (s : Scan) : Scan :=
  ⟨s.tokens.map (Token.shift k), s.openQuote.map (k + ·)⟩

theorem Scan.shift_cons (k : Nat) (t : Token) (s : Scan) :
    (s.cons t).shift k = (s.shift k).cons (t.shift k) := rfl

theorem Scan.lexemes_shift (k : Nat) (s : Scan) : (s.shift k).lexemes = s.lexemes := by
  rw [lexemes, shift, List.map_map]
  rfl

theorem scanFrom_add (k offset : Nat) (cs : List Char) :
    scanFrom (k + offset) cs = (scanFrom offset cs).shift k := by
  fun_induction scanFrom offset cs with
  | case1 offset => rw [scanFrom]; rfl
  | case2 offset c rest hblank ih => rw [scanFrom_blank hblank, Nat.add_assoc, ih]
  | case3 offset rest hblank ih =>
    rw [scanFrom, if_neg hblank, if_pos rfl, ← ih]
    simp only [Nat.add_assoc]
  | case4 offset rest _ _ ih => rw [scanFrom_opening, Nat.add_assoc, ih]; rfl
  | case5 offset rest _ _ _ ih => rw [scanFrom_closing, Nat.add_assoc, ih]; rfl
  | case6 offset rest hsplit =>
    exact scanFrom_openQuote (splitString_eq_none_iff.mp hsplit)
  | case7 offset rest body after hsplit _ _ _ _ ih =>
    rw [scanFrom_string hsplit, Scan.shift_cons, ← ih]
    simp only [Nat.add_assoc]
    rfl
  | case8 offset c rest hblank hcomment hopening hclosing hquote ih =>
    rw [scanFrom, if_neg hblank, if_neg hcomment, if_neg hopening, if_neg hclosing, if_neg hquote,
      Scan.shift_cons, ← ih]
    simp only [Nat.add_assoc]
    rfl

/-! ## Two texts -/

/-- The scan of a text that goes on with another one. -/
def Scan.followedBy (s s' : Scan) : Scan :=
  ⟨s.tokens ++ s'.tokens, s'.openQuote⟩

theorem Scan.cons_followedBy (t : Token) (s s' : Scan) :
    (s.cons t).followedBy s' = (s.followedBy s').cons t := rfl

theorem takeWhile_append_cons {p : Char → Bool} {c : Char} (hc : p c = false)
    (cs more : List Char) : (cs ++ c :: more).takeWhile p = cs.takeWhile p := by
  rw [List.takeWhile_append, List.takeWhile_cons_of_neg (by simp [hc]), List.append_nil]
  split
  · rename_i hlength
    exact ((List.takeWhile_prefix p).eq_of_length hlength).symm
  · rfl

theorem dropWhile_append_cons {p : Char → Bool} {c : Char} (hc : p c = false)
    (cs more : List Char) : (cs ++ c :: more).dropWhile p = cs.dropWhile p ++ c :: more := by
  rw [List.dropWhile_append, List.dropWhile_cons_of_neg (by simp [hc])]
  split
  · rename_i hempty
    rw [List.isEmpty_iff.mp hempty, List.nil_append]
  · rfl

theorem splitString_append {cs body rest : List Char} (h : splitString cs = some (body, rest))
    (more : List Char) : splitString (cs ++ more) = some (body, rest ++ more) := by
  obtain ⟨hbody, rfl⟩ := splitString_eq_some_iff.mp h
  rw [List.append_assoc, List.cons_append]
  exact hbody.splitString_eq _

theorem length_takeWhile_add (p : Char → Bool) (cs : List Char) :
    (cs.takeWhile p).length + (cs.dropWhile p).length = cs.length := by
  rw [← List.length_append, List.takeWhile_append_dropWhile]

/-- **Scanning joined texts.** Unless the first text ends inside a string, the second is scanned as
if it stood by itself. -/
theorem scanFrom_joined {offset : Nat} {a : List Char} (h : (scanFrom offset a).openQuote = none)
    (b : List Char) :
    scanFrom offset (a ++ '\n' :: b)
      = (scanFrom offset a).followedBy (scanFrom (offset + (a.length + 1)) b) := by
  -- along the scan of the first text: it stops at the line break, if not before
  fun_induction scanFrom offset a with
  | case1 offset => exact scanFrom_blank (by decide)
  | case2 offset c rest hblank ih =>
    have hplace : offset + 1 + (rest.length + 1) = offset + (rest.length + 1 + 1) := by omega
    rw [List.cons_append, scanFrom_blank hblank, ih h, List.length_cons, hplace]
  | case3 offset rest hblank ih =>
    have hline := length_takeWhile_add (· != '\n') rest
    have hplace : offset + 1 + (rest.takeWhile (· != '\n')).length
        + ((rest.dropWhile (· != '\n')).length + 1) = offset + (rest.length + 1 + 1) := by omega
    rw [List.cons_append, scanFrom, if_neg hblank, if_pos rfl, takeWhile_append_cons (by decide),
      dropWhile_append_cons (by decide), ih h, List.length_cons, hplace]
  | case4 offset rest _ _ ih =>
    have hplace : offset + 1 + (rest.length + 1) = offset + (rest.length + 1 + 1) := by omega
    rw [List.cons_append, scanFrom_opening, ih h, List.length_cons, hplace,
      Scan.cons_followedBy]
  | case5 offset rest _ _ _ ih =>
    have hplace : offset + 1 + (rest.length + 1) = offset + (rest.length + 1 + 1) := by omega
    rw [List.cons_append, scanFrom_closing, ih h, List.length_cons, hplace,
      Scan.cons_followedBy]
  | case6 => cases h
  | case7 offset rest body after hsplit _ _ _ _ ih =>
    have hlength := congrArg List.length (append_of_splitString hsplit)
    rw [List.length_append, List.length_cons] at hlength
    have hplace : offset + body.length + 2 + (after.length + 1) = offset + (rest.length + 1 + 1) :=
      by omega
    rw [List.cons_append, scanFrom_string (splitString_append hsplit _), ih h, List.length_cons,
      hplace, Scan.cons_followedBy]
  | case8 offset c rest hblank hcomment hopening hclosing hquote ih =>
    have hword := length_takeWhile_add isWordChar rest
    have hplace : offset + 1 + (rest.takeWhile isWordChar).length
        + ((rest.dropWhile isWordChar).length + 1) = offset + (rest.length + 1 + 1) := by omega
    rw [List.cons_append, scanFrom, if_neg hblank, if_neg hcomment, if_neg hopening,
      if_neg hclosing, if_neg hquote, takeWhile_append_cons (by decide),
      dropWhile_append_cons (by decide), ih h, List.length_cons, hplace,
      Scan.cons_followedBy]

theorem scan_joined {a : String} (h : (scan a).openQuote = none) (b : String) :
    scan (a ++ "\n" ++ b) = (scan a).followedBy ((scan b).shift (a.length + 1)) := by
  have hchars : (a ++ "\n" ++ b).toList = a.toList ++ '\n' :: b.toList := by simp
  rw [scan, hchars, scanFrom_joined h, scan, scan, ← scanFrom_add, Nat.zero_add, Nat.add_zero,
    String.length_toList]

end Token

/-- **Reading joined texts.** Two texts that can be read are read one after the other. -/
theorem parse_joined {a b : String} {es es' : List Expr} (ha : parse a = .ok es)
    (hb : parse b = .ok es') : parse (a ++ "\n" ++ b) = .ok (es ++ es') := by
  obtain ⟨hquote, hspells⟩ := parse_eq_ok_iff.mp ha
  obtain ⟨hquote', hspells'⟩ := parse_eq_ok_iff.mp hb
  have hscan := Token.scan_joined hquote b
  refine parse_eq_ok_iff.mpr ⟨?_, ?_⟩
  · rw [hscan, Token.Scan.followedBy, Token.Scan.shift, hquote', Option.map_none]
  · have hlexemes : (Token.scan (a ++ "\n" ++ b)).lexemes
        = (Token.scan a).lexemes ++ (Token.scan b).lexemes := by
      rw [hscan, ← Token.Scan.lexemes_shift (a.length + 1) (Token.scan b)]
      exact List.map_append
    rw [hlexemes]
    exact hspells.append hspells'

end Interleave

import Interleave.Token.Feed

/-!
# Reading expressions

Expressions are read from a feed of tokens. A word that is a numeral is a number, any other word
is a reference unless it begins with a digit, a string token is a string, and a parenthesised
sequence is a compound. The compounds that are still open are kept in a list, innermost first, so
that nesting is limited by nothing but the text.

The first thing found wrong, in the order of the tokens, is the fault reported: a closing
parenthesis with none open, a word that begins with a digit and is no numeral, a numeral that is
too long, a quote that nothing closes, or the end of the text inside a compound. The feed that is
left begins after the offending token, and reading can go on there.

* `TokenFeed.nextExpr` reads one expression.
* `TokenFeed.restExprs` reads all that are left.
* `parse` reads a whole text.
-/

namespace Interleave

/-! ## Words and strings -/

def unescapeChar : Char → Char
  | 'n' => '\n'
  | 't' => '\t'
  | 'r' => '\r'
  | c => c

/-- The contents of a string, from its body with escapes. A backslash at the very end stands for
nothing. -/
def unescape : List Char → List Char
  | [] => []
  | ['\\'] => []
  | '\\' :: c :: cs => unescapeChar c :: unescape cs
  | c :: cs => c :: unescape cs

def readWord (word : String) (offset : Nat) : Except Fault Expr :=
  let cs := word.toList
  if Numeral.isNumeral cs then
    if (Numeral.magnitude cs).length ≤ Numeral.maxDigits then .ok (.number (Numeral.value cs))
    else .error (.breakdown (.numeralTooLong (Numeral.magnitude cs).length))
  else if cs.head?.any Text.isDigit then
    .error (.program (.malformed (.number word) (some offset)))
  else .ok (.reference word)

def readString (text : String) : Expr :=
  .string (String.ofList (unescape (text.toList.drop 1).dropLast))

/-! ## Compounds -/

/-- A compound that is still open. -/
structure OpenCompound where
  /-- The offset of its opening parenthesis. -/
  offset : Nat
  /-- The elements read so far, latest first. -/
  elements : List Expr

namespace OpenCompound

def push (c : OpenCompound) (e : Expr) : OpenCompound :=
  { c with elements := e :: c.elements }

def close (c : OpenCompound) : Expr :=
  .compound c.elements.reverse

end OpenCompound

namespace TokenFeed

/-- Reads on inside the compound `inner`, which lies in the compounds `outer`, until the outermost
of them closes. -/
def readCompound (inner : OpenCompound) (outer : List OpenCompound) (s : TokenFeed) :
    Except Fault Expr × TokenFeed :=
  match _h : s.take with
  | (.error f, s') => (.error f, s')
  | (.ok none, s') => (.error (.program (.malformed .unclosed (some inner.offset))), s')
  | (.ok (some t), s') =>
    match t.kind with
    | .opening => readCompound ⟨t.offset, []⟩ (inner :: outer) s'
    | .closing =>
      match outer with
      | [] => (.ok inner.close, s')
      | next :: others => readCompound (next.push inner.close) others s'
    | .string => readCompound (inner.push (readString t.text)) outer s'
    | .word =>
      match readWord t.text t.offset with
      | .ok e => readCompound (inner.push e) outer s'
      | .error f => (.error f, s')
termination_by s.size
decreasing_by
  all_goals
    have := size_of_take _h
    omega

/-- Reads the next expression; there is none at the end of the text. -/
def nextExpr (s : TokenFeed) : Except Fault (Option Expr) × TokenFeed :=
  match s.take with
  | (.error f, s') => (.error f, s')
  | (.ok none, s') => (.ok none, s')
  | (.ok (some t), s') =>
    match t.kind with
    | .word => ((readWord t.text t.offset).map some, s')
    | .string => (.ok (some (readString t.text)), s')
    | .closing => (.error (.program (.malformed .strayClose (some t.offset))), s')
    | .opening =>
      match s'.readCompound ⟨t.offset, []⟩ [] with
      | (.ok e, s'') => (.ok (some e), s'')
      | (.error f, s'') => (.error f, s'')

theorem size_readCompound_le (inner : OpenCompound) (outer : List OpenCompound) (s : TokenFeed) :
    (s.readCompound inner outer).2.size ≤ s.size := by
  fun_induction readCompound inner outer s with
  | case1 inner outer s f s' h => exact size_take_le h
  | case2 inner outer s s' h => exact size_take_le h
  | case3 inner outer s t s' h _ ih => exact Nat.le_trans ih (size_take_le h)
  | case4 inner s t s' h => exact size_take_le h
  | case5 inner s t s' h _ next others ih => exact Nat.le_trans ih (size_take_le h)
  | case6 inner outer s t s' h _ ih => exact Nat.le_trans ih (size_take_le h)
  | case7 inner outer s t s' h _ e _ ih => exact Nat.le_trans ih (size_take_le h)
  | case8 inner outer s t s' h => exact size_take_le h

theorem size_of_nextExpr {s s' : TokenFeed} {e : Expr} (h : s.nextExpr = (.ok (some e), s')) :
    s'.size < s.size := by
  rw [nextExpr] at h
  split at h
  · simp at h
  · simp at h
  · rename_i t u hadv
    have hsize := size_of_take hadv
    split at h
    · obtain ⟨_, rfl⟩ := Prod.mk.inj h
      omega
    · obtain ⟨_, rfl⟩ := Prod.mk.inj h
      omega
    · simp at h
    · have hle := size_readCompound_le ⟨t.offset, []⟩ [] u
      split at h
      · rename_i hread
        obtain ⟨_, rfl⟩ := Prod.mk.inj h
        rw [hread] at hle
        exact Nat.lt_of_le_of_lt hle (by omega)
      · simp at h

/-- Reads all expressions that are left. -/
def restExprs (s : TokenFeed) : Except Fault (List Expr) × TokenFeed :=
  match _h : s.nextExpr with
  | (.error f, s') => (.error f, s')
  | (.ok none, s') => (.ok [], s')
  | (.ok (some e), s') =>
    match restExprs s' with
    | (.ok es, s'') => (.ok (e :: es), s'')
    | (.error f, s'') => (.error f, s'')
termination_by s.size
decreasing_by exact size_of_nextExpr _h

end TokenFeed

/-- Reads all expressions of a text. -/
def parse (source : String) : Except Fault (List Expr) :=
  (TokenFeed.ofSource source).restExprs.1

end Interleave

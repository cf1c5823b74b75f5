import Interleave.Expr.Reader

/-!
# The grammar of program text

The reader keeps the compounds that are still open in a list and walks over the tokens once.
`Spells` says what it reads without any such list: a sequence of expressions is spelled by the
spellings of its members one after the other, an atom by one token that stands for it (`Denotes`),
and a compound by an opening parenthesis, the spelling of its elements, and a closing one. Offsets
play no part in this, so all is said of lexemes, which are tokens without their places.

The main result is `parse_eq_ok_iff`: a text is read as a program exactly when no quote is left open
in it and its lexemes spell the program. In one direction, what the reader still demands of the
tokens when some compounds are open is written down as `Closes`, and every run that succeeds is
shown to meet that demand. In the other, the spelling of some expressions takes the reader from an
open compound to the same compound with those expressions added.
-/

namespace Interleave

/-- A token without its place in the text. -/
abbrev Token.Lexeme := Token.Kind × String

def Token.lexeme (t : Token) : Token.Lexeme := (t.kind, t.text)

def Token.Scan.lexemes (s : Token.Scan) : List Token.Lexeme := s.tokens.map Token.lexeme

/-- The lexeme by itself stands for the expression. -/
inductive Denotes : Token.Lexeme → Expr → Prop where
  /-- A numeral that is not too long stands for a number. -/
  | number {word : String} (hnumeral : Numeral.isNumeral word.toList = true)
      (hlen : (Numeral.magnitude word.toList).length ≤ Numeral.maxDigits) :
      Denotes (.word, word) (.number (Numeral.value word.toList))
  /-- A word that is no numeral and does not begin with a digit stands for the reference to it. -/
  | reference {name : String} (hnumeral : Numeral.isNumeral name.toList = false)
      (hdigit : name.toList.head?.any Text.isDigit = false) :
      Denotes (.word, name) (.reference name)
  /-- A string token stands for the string that its body makes when the escapes are undone. -/
  | string {text : String} : Denotes (.string, text) (readString text)

/-- The lexemes are a spelling of the expressions. -/
inductive Spells : List Token.Lexeme → List Expr → Prop where
  /-- Nothing spells nothing. -/
  | nil : Spells [] []
  /-- A lexeme that stands for an expression spells it. -/
  | atom {l : Token.Lexeme} {e : Expr} {ls : List Token.Lexeme} {es : List Expr}
      (hatom : Denotes l e) (hrest : Spells ls es) : Spells (l :: ls) (e :: es)
  /-- A spelling between parentheses spells the compound. -/
  | compound {left right : String} {ls ls' : List Token.Lexeme} {es es' : List Expr}
      (helements : Spells ls es) (hrest : Spells ls' es') :
      Spells ((.opening, left) :: ls ++ (.closing, right) :: ls') (.compound es :: es')

theorem Spells.append {ls ls' : List Token.Lexeme} {es es' : List Expr} (h : Spells ls es)
    (h' : Spells ls' es') : Spells (ls ++ ls') (es ++ es') := by
  induction h with
  | nil => exact h'
  | atom hatom _ ih => exact ih.atom hatom
  | compound helements _ _ ih =>
    rw [List.append_assoc]
    exact helements.compound ih

theorem Spells.eq_nil {ls : List Token.Lexeme} (h : Spells ls []) : ls = [] := by
  cases h
  rfl

theorem Spells.of_cons {ls : List Token.Lexeme} {e : Expr} {es : List Expr}
    (h : Spells ls (e :: es)) : ∃ ls₁ ls₂, ls = ls₁ ++ ls₂ ∧ Spells ls₁ [e] ∧ Spells ls₂ es := by
  cases h with
  | atom hatom hrest => exact ⟨[_], _, rfl, .atom hatom .nil, hrest⟩
  | compound helements hrest =>
    exact ⟨_, _, List.append_cons _ _ _, helements.compound .nil, hrest⟩

theorem readWord_eq_ok_iff {word : String} {offset : Nat} {e : Expr} :
    readWord word offset = .ok e ↔ Denotes (.word, word) e := by
  simp only [readWord]
  constructor
  · intro h
    split at h
    · rename_i hnumeral
      split at h
      · rename_i hlen
        cases h
        exact .number hnumeral hlen
      · cases h
    · rename_i hnumeral
      split at h
      · cases h
      · rename_i hdigit
        cases h
        exact .reference (Bool.eq_false_iff.mpr hnumeral) (Bool.eq_false_iff.mpr hdigit)
  · intro h
    cases h with
    | number hnumeral hlen => rw [if_pos hnumeral, if_pos hlen]
    | reference hnumeral hdigit =>
      rw [if_neg (Bool.eq_false_iff.mp hnumeral), if_neg (Bool.eq_false_iff.mp hdigit)]

/-! ## Open compounds -/

theorem OpenCompound.reverse_push (c : OpenCompound) (e : Expr) :
    (c.push e).elements.reverse = c.elements.reverse ++ [e] :=
  List.reverse_cons

/-- The open compound with more elements, given in order. -/
def OpenCompound.extend (c : OpenCompound) (es : List Expr) : OpenCompound :=
  { c with elements := es.reverse ++ c.elements }

theorem OpenCompound.extend_cons (c : OpenCompound) (e : Expr) (es : List Expr) :
    c.extend (e :: es) = (c.push e).extend es := by
  simp [extend, push]

theorem OpenCompound.close_extend (offset : Nat) (es : List Expr) :
    (extend ⟨offset, []⟩ es).close = .compound es := by
  simp [extend, close]

/-! ## Tokens of a feed -/

namespace TokenFeed

/-- The lexemes that the feed still holds, in the order in which they are taken. -/
def lexemes (s : TokenFeed) : List Token.Lexeme :=
  (s.lookahead ++ s.unread.tokens).map Token.lexeme

/-- The lexemes lead from one feed to the other. -/
structure Consumes (s : TokenFeed) (ls : List Token.Lexeme) (s' : TokenFeed) : Prop where
  /-- They are what the first feed holds beyond the second. -/
  lexemes : s.lexemes = ls ++ s'.lexemes
  /-- Whether a quote is left open at the end is the same for both. -/
  openQuote : s'.unread.openQuote = s.unread.openQuote

variable {s s' s'' : TokenFeed} {t : Token}

theorem Consumes.trans {ls ls' : List Token.Lexeme} (h : Consumes s ls s')
    (h' : Consumes s' ls' s'') : Consumes s (ls ++ ls') s'' :=
  ⟨by rw [h.lexemes, h'.lexemes, List.append_assoc], h'.openQuote.trans h.openQuote⟩

/-- A feed that holds a lexeme hands out a token with that lexeme. -/
theorem take_of_lexemes {l : Token.Lexeme} {ls : List Token.Lexeme} (h : s.lexemes = l :: ls) :
    ∃ t s', s.take = (.ok (some t), s') ∧ t.lexeme = l ∧ s'.lexemes = ls ∧
      s'.unread.openQuote = s.unread.openQuote := by
  obtain ⟨lookahead, unread, openQuote⟩ := s
  cases lookahead with
  | cons u us =>
    obtain ⟨rfl, rfl⟩ := List.cons.inj h
    exact ⟨u, _, rfl, rfl, rfl, rfl⟩
  | nil =>
    cases unread with
    | cons u us =>
      obtain ⟨rfl, rfl⟩ := List.cons.inj h
      exact ⟨u, _, rfl, rfl, rfl, rfl⟩
    | nil => cases h

/-- The feed is at its end exactly when it holds no lexeme and no quote is left open. -/
theorem take_eq_none_iff :
    s.take = (.ok none, s') ↔ s' = s ∧ s.lexemes = [] ∧ s.unread.openQuote = none := by
  obtain ⟨lookahead, unread, openQuote⟩ := s
  cases lookahead with
  | cons u us => simp [take, lexemes]
  | nil =>
    cases unread with
    | cons u us => simp [take, pull, lexemes]
    | nil => cases openQuote <;> simp [take, pull, lexemes, eq_comm]

theorem consumes_of_take (h : s.take = (.ok (some t), s')) : Consumes s [t.lexeme] s' := by
  cases hs : s.lexemes with
  | nil =>
    obtain ⟨lookahead, unread, openQuote⟩ := s
    obtain ⟨rfl, rfl⟩ := List.append_eq_nil_iff.mp (List.map_eq_nil_iff.mp hs)
    cases openQuote <;> cases h
  | cons l ls =>
    obtain ⟨u, s₁, htake, rfl, rfl, hquote⟩ := take_of_lexemes hs
    rw [htake] at h
    cases h
    exact ⟨hs, hquote⟩

/-! ## What is read is spelled -/

/-- The lexemes complete the open compounds, of which the outermost becomes the expression. -/
inductive Closes : OpenCompound → List OpenCompound → List Token.Lexeme → Expr → Prop where
  /-- The only open compound takes some more elements and is closed. -/
  | last {inner : OpenCompound} {right : String} {ls : List Token.Lexeme} {es : List Expr}
      (h : Spells ls es) :
      Closes inner [] (ls ++ [(.closing, right)]) (.compound (inner.elements.reverse ++ es))
  /-- The innermost compound takes some more elements, is closed and becomes an element of the
  next. -/
  | next {inner next : OpenCompound} {others : List OpenCompound} {right : String}
      {ls ls' : List Token.Lexeme} {es : List Expr} {e : Expr} (h : Spells ls es)
      (hnext : Closes (next.push (.compound (inner.elements.reverse ++ es))) others ls' e) :
      Closes inner (next :: others) (ls ++ (.closing, right) :: ls') e

theorem Closes.push {inner : OpenCompound} {outer : List OpenCompound}
    {ls ls' : List Token.Lexeme} {e e' : Expr} (he : Spells ls [e])
    (h : Closes (inner.push e) outer ls' e') : Closes inner outer (ls ++ ls') e' := by
  cases h with
  | last h =>
    rw [OpenCompound.reverse_push, List.append_assoc, ← List.append_assoc ls]
    exact .last (he.append h)
  | next h hnext =>
    rw [OpenCompound.reverse_push, List.append_assoc] at hnext
    rw [← List.append_assoc]
    exact .next (he.append h) hnext

/-- A closing parenthesis makes the innermost compound, as it is, an element of the next. -/
theorem Closes.close {inner next : OpenCompound} {others : List OpenCompound} {right : String}
    {ls : List Token.Lexeme} {e : Expr} (h : Closes (next.push inner.close) others ls e) :
    Closes inner (next :: others) ((.closing, right) :: ls) e := by
  rw [OpenCompound.close, ← List.append_nil inner.elements.reverse] at h
  exact .next .nil h

theorem closes_of_readCompound {inner : OpenCompound} {outer : List OpenCompound} {e : Expr}
    (h : s.readCompound inner outer = (.ok e, s')) :
    ∃ ls, Consumes s ls s' ∧ Closes inner outer ls e := by
  -- along the recursion of the reader: the token just taken goes in front of the rest
  fun_induction readCompound inner outer s with
  | case1 => cases h
  | case2 => cases h
  | case3 inner outer s t u htake hkind ih =>
    obtain ⟨ls, hls, hcloses⟩ := ih h
    refine ⟨_, (consumes_of_take htake).trans hls, ?_⟩
    rw [Token.lexeme, hkind]
    cases hcloses with
    | next hspells hnext =>
      rw [List.singleton_append, List.append_cons]
      exact .push (hspells.compound .nil) hnext
  | case4 inner s t u htake hkind =>
    cases h
    refine ⟨_, consumes_of_take htake, ?_⟩
    rw [Token.lexeme, hkind, OpenCompound.close, ← List.append_nil inner.elements.reverse]
    exact .last .nil
  | case5 inner s t u htake hkind next others ih =>
    obtain ⟨ls, hls, hcloses⟩ := ih h
    refine ⟨_, (consumes_of_take htake).trans hls, ?_⟩
    rw [Token.lexeme, hkind]
    exact hcloses.close
  | case6 inner outer s t u htake hkind ih =>
    obtain ⟨ls, hls, hcloses⟩ := ih h
    refine ⟨_, (consumes_of_take htake).trans hls, ?_⟩
    rw [Token.lexeme, hkind]
    exact .push (.atom .string .nil) hcloses
  | case7 inner outer s t u htake hkind e hread ih =>
    obtain ⟨ls, hls, hcloses⟩ := ih h
    refine ⟨_, (consumes_of_take htake).trans hls, ?_⟩
    rw [Token.lexeme, hkind]
    exact .push (.atom (readWord_eq_ok_iff.mp hread) .nil) hcloses
  | case8 => cases h

theorem spells_of_nextExpr {e : Expr} (h : s.nextExpr = (.ok (some e), s')) :
    ∃ ls, Consumes s ls s' ∧ Spells ls [e] := by
  rw [nextExpr] at h
  split at h
  · cases h
  · cases h
  · rename_i t u htake
    have htaken := consumes_of_take htake
    rw [Token.lexeme] at htaken
    split at h
    · rename_i hkind
      rw [Prod.mk.injEq] at h
      obtain ⟨hread, rfl⟩ := h
      rw [hkind] at htaken
      cases hword : readWord t.text t.offset with
      | error f => rw [hword] at hread; cases hread
      | ok e' =>
        rw [hword] at hread
        cases hread
        exact ⟨_, htaken, .atom (readWord_eq_ok_iff.mp hword) .nil⟩
    · rename_i hkind
      cases h
      rw [hkind] at htaken
      exact ⟨_, htaken, .atom .string .nil⟩
    · cases h
    · rename_i hkind
      rw [hkind] at htaken
      split at h
      · rename_i hread
        cases h
        -- with a single compound open, to close it is to spell its elements
        obtain ⟨ls, hls, hcloses⟩ := closes_of_readCompound hread
        refine ⟨_, htaken.trans hls, ?_⟩
        cases hcloses with
        | last hspells => exact hspells.compound .nil
      · cases h

theorem nextExpr_eq_none_iff :
    s.nextExpr = (.ok none, s') ↔ s' = s ∧ s.lexemes = [] ∧ s.unread.openQuote = none := by
  rw [← take_eq_none_iff, nextExpr]
  split
  · rename_i htake
    simp [htake]
  · rename_i htake
    simp [htake]
  · rename_i t u htake
    rw [htake]
    split
    · cases readWord t.text t.offset <;> simp [Except.map]
    · simp
    · simp
    · split <;> simp

theorem spells_of_restExprs {es : List Expr} (h : s.restExprs = (.ok es, s')) :
    s.unread.openQuote = none ∧ Spells s.lexemes es := by
  fun_induction restExprs s generalizing es with
  | case1 => cases h
  | case2 s u hnext =>
    cases h
    obtain ⟨-, hlexemes, hquote⟩ := nextExpr_eq_none_iff.mp hnext
    rw [hlexemes]
    exact ⟨hquote, .nil⟩
  | case3 s e u hnext es' u' hrest ih =>
    cases h
    obtain ⟨ls, hls, hspells⟩ := spells_of_nextExpr hnext
    obtain ⟨hquote, hspells'⟩ := ih hrest
    rw [hls.lexemes]
    exact ⟨hls.openQuote.symm.trans hquote, hspells.append hspells'⟩
  | case4 => cases h

/-! ## What is spelled is read -/

theorem readCompound_of_take (htake : s.take = (.ok (some t), s')) (inner : OpenCompound)
    (outer : List OpenCompound) :
    s.readCompound inner outer =
      match t.kind with
      | .opening => s'.readCompound ⟨t.offset, []⟩ (inner :: outer)
      | .closing =>
        match outer with
        | [] => (.ok inner.close, s')
        | next :: others => s'.readCompound (next.push inner.close) others
      | .string => s'.readCompound (inner.push (readString t.text)) outer
      | .word =>
        match readWord t.text t.offset with
        | .ok e => s'.readCompound (inner.push e) outer
        | .error f => (.error f, s') := by
  rw [readCompound]
  split
  · rename_i h
    rw [htake] at h
    cases h
  · rename_i h
    rw [htake] at h
    cases h
  · rename_i h
    rw [htake] at h
    cases h
    rfl

/-- A lexeme that stands for an expression is read as that expression, inside open compounds and
outside. -/
theorem read_of_denotes {l : Token.Lexeme} {ls : List Token.Lexeme} {e : Expr} (h : Denotes l e)
    (hs : s.lexemes = l :: ls) :
    ∃ u : TokenFeed, u.lexemes = ls ∧ u.unread.openQuote = s.unread.openQuote ∧
      s.nextExpr = (.ok (some e), u) ∧
      ∀ inner outer, s.readCompound inner outer = u.readCompound (inner.push e) outer := by
  obtain ⟨kind, text⟩ := l
  obtain ⟨t, u, htake, ht, hu, hquote⟩ := take_of_lexemes hs
  obtain ⟨hkind, rfl⟩ := Prod.mk.inj ht
  refine ⟨u, hu, hquote, ?_⟩
  cases kind with
  | word =>
    have hread : readWord t.text t.offset = .ok e := readWord_eq_ok_iff.mpr h
    constructor
    · simp only [nextExpr, htake, hkind, hread, Except.map]
    · intro inner outer
      simp only [readCompound_of_take htake, hkind, hread]
  | string =>
    cases h
    constructor
    · simp only [nextExpr, htake, hkind]
    · intro inner outer
      simp only [readCompound_of_take htake, hkind]
  | opening | closing => cases h

/-- The spelling of some expressions leads from an open compound to the same compound with those
expressions added. -/
theorem readCompound_of_spells {ls ls' : List Token.Lexeme} {es : List Expr} (h : Spells ls es)
    (inner : OpenCompound) (outer : List OpenCompound) (hs : s.lexemes = ls ++ ls') :
    ∃ u : TokenFeed, u.lexemes = ls' ∧ u.unread.openQuote = s.unread.openQuote ∧
      s.readCompound inner outer = u.readCompound (inner.extend es) outer := by
  induction h generalizing s ls' inner outer with
  | nil => exact ⟨s, hs, rfl, rfl⟩
  | @atom l e ls es hatom _ ih =>
    obtain ⟨s₁, hs₁, hquote, -, hread⟩ := read_of_denotes hatom hs
    obtain ⟨u, hu, hquote', heq⟩ := ih (inner.push e) outer hs₁
    refine ⟨u, hu, hquote'.trans hquote, ?_⟩
    rw [hread, heq, OpenCompound.extend_cons]
  | @compound left right ls₁ ls₂ es₁ es₂ _ _ ihelements ih =>
    rw [List.append_assoc] at hs
    obtain ⟨t, s₁, htake, ht, hs₁, hquote⟩ := take_of_lexemes hs
    obtain ⟨s₂, hs₂, hquote₂, helements⟩ := ihelements ⟨t.offset, []⟩ (inner :: outer) hs₁
    obtain ⟨t', s₃, htake', ht', hs₃, hquote₃⟩ := take_of_lexemes hs₂
    obtain ⟨u, hu, hquote', heq⟩ := ih (inner.push (.compound es₁)) outer hs₃
    refine ⟨u, hu, by rw [hquote', hquote₃, hquote₂, hquote], ?_⟩
    have hkind : t.kind = .opening := congrArg Prod.fst ht
    have hkind' : t'.kind = .closing := congrArg Prod.fst ht'
    calc s.readCompound inner outer
        = s₁.readCompound ⟨t.offset, []⟩ (inner :: outer) := by
          simp only [readCompound_of_take htake, hkind]
      _ = s₂.readCompound (OpenCompound.extend ⟨t.offset, []⟩ es₁) (inner :: outer) := helements
      _ = s₃.readCompound (inner.push (.compound es₁)) outer := by
          simp only [readCompound_of_take htake', hkind', OpenCompound.close_extend]
      _ = u.readCompound (inner.extend (.compound es₁ :: es₂)) outer := by
          rw [heq, OpenCompound.extend_cons]

theorem nextExpr_of_spells {ls ls' : List Token.Lexeme} {e : Expr} (h : Spells ls [e])
    (hs : s.lexemes = ls ++ ls') :
    ∃ u : TokenFeed, u.lexemes = ls' ∧ u.unread.openQuote = s.unread.openQuote ∧
      s.nextExpr = (.ok (some e), u) := by
  cases h with
  | atom hatom hrest =>
    cases hrest
    obtain ⟨u, hu, hquote, hnext, -⟩ := read_of_denotes hatom hs
    exact ⟨u, hu, hquote, hnext⟩
  | @compound _ _ _ _ es _ helements hrest =>
    cases hrest
    rw [List.append_assoc] at hs
    obtain ⟨t, s₁, htake, ht, hs₁, hquote₁⟩ := take_of_lexemes hs
    obtain ⟨s₂, hs₂, hquote₂, hread⟩ := readCompound_of_spells helements ⟨t.offset, []⟩ [] hs₁
    obtain ⟨t', u, htake', ht', hu, hquote⟩ := take_of_lexemes hs₂
    have hkind : t.kind = .opening := congrArg Prod.fst ht
    have hkind' : t'.kind = .closing := congrArg Prod.fst ht'
    have hclose : s₁.readCompound ⟨t.offset, []⟩ [] = (.ok (.compound es), u) := by
      simp only [hread, readCompound_of_take htake', hkind', OpenCompound.close_extend]
    refine ⟨u, hu, by rw [hquote, hquote₂, hquote₁], ?_⟩
    simp only [nextExpr, htake, hkind, hclose]

theorem restExprs_of_none (h : s.nextExpr = (.ok none, s')) : s.restExprs = (.ok [], s') := by
  rw [restExprs]
  split <;> simp_all

theorem restExprs_of_some {u : TokenFeed} {e : Expr} {es : List Expr}
    (h : s.nextExpr = (.ok (some e), u)) (hrest : u.restExprs = (.ok es, s')) :
    s.restExprs = (.ok (e :: es), s') := by
  rw [restExprs]
  split <;> simp_all

theorem restExprs_of_spells {es : List Expr} (h : Spells s.lexemes es)
    (hquote : s.unread.openQuote = none) : ∃ s', s.restExprs = (.ok es, s') := by
  induction es generalizing s with
  | nil =>
    have hnext : s.nextExpr = (.ok none, s) :=
      nextExpr_eq_none_iff.mpr ⟨rfl, Spells.eq_nil h, hquote⟩
    exact ⟨s, restExprs_of_none hnext⟩
  | cons e es ih =>
    obtain ⟨ls, ls', hs, he, hes⟩ := Spells.of_cons h
    obtain ⟨u, rfl, hquote', hnext⟩ := nextExpr_of_spells he hs
    obtain ⟨s', hs'⟩ := ih hes (hquote'.trans hquote)
    exact ⟨s', restExprs_of_some hnext hs'⟩

end TokenFeed

/-- **The grammar.** A text is read as a program exactly when no quote is left open in it and its
lexemes spell the program. -/
theorem parse_eq_ok_iff {source : String} {es : List Expr} :
    parse source = .ok es ↔
      (Token.scan source).openQuote = none ∧ Spells (Token.scan source).lexemes es := by
  constructor
  · intro h
    exact TokenFeed.spells_of_restExprs (Prod.ext h rfl)
  · rintro ⟨hquote, hspells⟩
    have hlexemes : Spells (TokenFeed.ofSource source).lexemes es := hspells
    obtain ⟨s', hs'⟩ := TokenFeed.restExprs_of_spells hlexemes hquote
    exact congrArg Prod.fst hs'

/-- Programs can be compared and faults need not be, so this is how the reading of a given text is
worked out. -/
theorem parse_of_toOption {source : String} {es : List Expr}
    (h : (parse source).toOption = some es) : parse source = .ok es := by
  cases hparse : parse source with
  | error f =>
    rw [hparse] at h
    cases h
  | ok program =>
    rw [hparse] at h
    cases h
    rfl

end Interleave

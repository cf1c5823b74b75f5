import Interleave.Proofs.Defects

/-!
# What reading an expression comes to

Reading from a feed goes on until an expression is complete, or until something stands in its way.
Here is said which of the two it comes to and how much of the feed is used up then, in terms of the
grammar and without a reader.

What lies ahead in a feed is a list of items: its tokens and, behind them, the fault of a quote that
nothing closes. Reading one expression uses up the tokens that spell it. If it fails, it has used up
tokens that are the beginning of an expression (`IsBeginning`) and the one item behind them with
which they are not (`TokenFeed.ReadsOne`). No spelling of an expression is the beginning of
another, so what lies ahead allows one outcome only (`TokenFeed.ReadsOne.unique`), and it is the
outcome of the reader (`TokenFeed.nextExpr_eq_iff`). Reading all expressions comes to what reading
one after the other comes to (`TokenFeed.restExprs_eq_iff`).
-/

namespace Interleave

/-! ## Beginnings of expressions -/

/-- Something is missing behind the tokens, and with it they spell an expression. -/
def IsBeginning (ts : List Token) : Prop :=
  ∃ more e, more ≠ [] ∧ Spells (ts.map Token.lexeme ++ more) [e]

theorem isBeginning_nil : IsBeginning [] :=
  ⟨[(.opening, "("), (.closing, ")")], .compound [], List.cons_ne_nil _ _, .compound .nil .nil⟩

/-- No spelling of an expression is the beginning of another. -/
theorem Spells.eq_of_append {ls ls' : List Token.Lexeme} {e e' : Expr} (h : Spells ls [e])
    (h' : Spells (ls ++ ls') [e']) : ls' = [] ∧ e = e' := by
  -- the reader reads one expression from all these lexemes and stops at one place
  have hs := TokenFeed.lexemes_ofLexemes (ls ++ ls')
  obtain ⟨u, hu, -, hnext⟩ := TokenFeed.nextExpr_of_spells h hs
  obtain ⟨u', hu', -, hnext'⟩ :=
    TokenFeed.nextExpr_of_spells h' (hs.trans (List.append_nil _).symm)
  rw [hnext] at hnext'
  cases hnext'
  exact ⟨hu.symm.trans hu', rfl⟩

theorem not_spells_of_isBeginning {ts ts' : List Token} {e : Expr}
    (h : IsBeginning (ts ++ ts')) : ¬Spells (ts.map Token.lexeme) [e] := by
  intro hspells
  obtain ⟨more, e', hmore, h⟩ := h
  rw [List.map_append, List.append_assoc] at h
  obtain ⟨hnil, -⟩ := hspells.eq_of_append h
  exact hmore (List.append_eq_nil_iff.mp hnil).2

/-- No token is at fault where what it stands in can be completed. -/
theorem not_defect_of_spells {before after : List Token} {t : Token} {more : List Token.Lexeme}
    {es : List Expr} (h : Spells ((before ++ t :: after).map Token.lexeme ++ more) es) (f : Fault) :
    ¬t.Defect (before.foldl Token.track []) f := by
  intro hdefect
  let s : TokenFeed := ⟨before ++ t :: after, ⟨(TokenFeed.ofLexemes more).lookahead, none⟩⟩
  have hmore : (TokenFeed.ofLexemes more).lookahead.map Token.lexeme = more := by
    simpa [TokenFeed.lexemes, TokenFeed.ofLexemes] using TokenFeed.lexemes_ofLexemes more
  have hs : s.lexemes = (before ++ t :: after).map Token.lexeme ++ more := by
    rw [TokenFeed.lexemes, List.map_append, hmore]
  rw [← hs] at h
  obtain ⟨s', hread⟩ := TokenFeed.restExprs_of_spells h rfl
  have hnone := TokenFeed.restExprs_firstFault s
  rw [hread] at hnone
  have hat : DefectAt [] s.tokens none before.length f :=
    .token (List.append_assoc before (t :: after) _) hdefect
  obtain ⟨g, hfirst⟩ := exists_firstDefect_iff.mpr ⟨_, _, hat⟩
  have hsome : s.firstFault [] = some g := firstFault_eq_some_iff.mpr hfirst
  rw [hnone] at hsome
  cases hsome

theorem Token.Defect.not_spells {ts : List Token} {t : Token} {f : Fault}
    (h : t.Defect (ts.foldl Token.track []) f) (more : List Token.Lexeme) (es : List Expr) :
    ¬Spells ((ts ++ [t]).map Token.lexeme ++ more) es :=
  fun hspells ↦ not_defect_of_spells hspells f h

theorem Token.Defect.of_readWord {t : Token} {opened : List Nat} {f : Fault}
    (hkind : t.kind = .word) (h : readWord t.text t.offset = .error f) : t.Defect opened f := by
  refine Token.fault?_eq_some_iff.mp ?_
  simp only [Token.fault?, hkind, h]

theorem denotes_of_kind_string {t : Token} (hkind : t.kind = .string) :
    Denotes t.lexeme (readString t.text) := by
  rw [Token.lexeme, hkind]
  exact .string

theorem denotes_of_readWord {t : Token} {e : Expr} (hkind : t.kind = .word)
    (h : readWord t.text t.offset = .ok e) : Denotes t.lexeme e := by
  rw [Token.lexeme, hkind]
  exact readWord_eq_ok_iff.mp h

/-! ## What lies ahead -/

/-- The tokens of a scan and, behind them, the fault of a quote that nothing closes. -/
def Token.Scan.items (s : Token.Scan) : List (Except Fault Token) :=
  s.tokens.map .ok ++
    (s.openQuote.map fun (p : Nat) ↦
      Except.error (.program (.malformed .openString (some (p : Int))))).toList

namespace TokenFeed

/-- What a feed comes to next: a token, or the fault of a quote that nothing closes. -/
abbrev Item := Except Fault Token

def items (s : TokenFeed) : List Item :=
  s.lookahead.map .ok ++ s.unread.items

theorem items_ofSource (source : String) : (ofSource source).items = (Token.scan source).items :=
  List.nil_append _

/-- What stands in front: a token, a fault, or nothing at the end. -/
def front : List Item → Except Fault (Option Token)
  | [] => .ok none
  | x :: _ => x.map some

/-- The feed after so many tokens have been taken. -/
def takes (s : TokenFeed) : Nat → TokenFeed
  | 0 => s
  | n + 1 => s.take.2.takes n

theorem takes_add (s : TokenFeed) (m n : Nat) : s.takes (m + n) = (s.takes m).takes n := by
  induction m generalizing s with
  | zero => rw [Nat.zero_add, takes]
  | succ m ih => rw [Nat.add_right_comm, takes, takes, ih]

/-- Taking some items leads from one feed to the other. -/
structure HandsOut (s : TokenFeed) (taken : List Item) (s' : TokenFeed) : Prop where
  /-- They are what the first feed has beyond the second. -/
  items : s.items = taken ++ s'.items
  /-- They are taken one at a time. -/
  takes : s' = s.takes taken.length

section HandsOut

variable {s s' s'' : TokenFeed} {x : Item} {taken taken' : List Item}

theorem HandsOut.refl (s : TokenFeed) : s.HandsOut [] s := ⟨rfl, rfl⟩

theorem HandsOut.trans (h : s.HandsOut taken s') (h' : s'.HandsOut taken' s'') :
    s.HandsOut (taken ++ taken') s'' := by
  constructor
  · rw [h.items, h'.items, List.append_assoc]
  · rw [h'.takes, h.takes, List.length_append, takes_add]

theorem take_eq_items (s : TokenFeed) :
    s.take.1 = front s.items ∧ s.take.2.items = s.items.tail := by
  obtain ⟨lookahead, unread, openQuote⟩ := s
  cases lookahead with
  | cons t ts => exact ⟨rfl, rfl⟩
  | nil =>
    cases unread with
    | cons t ts => exact ⟨rfl, rfl⟩
    | nil => cases openQuote <;> exact ⟨rfl, rfl⟩

theorem handsOut_of_take (h : s.take = (x.map some, s')) : s.HandsOut [x] s' := by
  obtain ⟨hfst, hsnd⟩ := s.take_eq_items
  rw [h] at hfst hsnd
  refine ⟨?_, by rw [List.length_singleton, takes, takes, h]⟩
  rw [hsnd]
  cases hs : s.items with
  | nil =>
    rw [hs] at hfst
    cases x <;> cases hfst
  | cons y ys =>
    rw [hs] at hfst
    cases x <;> cases y <;> cases hfst <;> rfl

theorem items_takes (s : TokenFeed) (n : Nat) : (s.takes n).items = s.items.drop n := by
  induction n generalizing s with
  | zero => rfl
  | succ n ih => rw [takes, ih, s.take_eq_items.2, List.drop_tail]

theorem handsOut_takes {rest : List Item} (h : s.items = taken ++ rest) :
    s.HandsOut taken (s.takes taken.length) ∧ (s.takes taken.length).items = rest := by
  have hrest : (s.takes taken.length).items = rest := by rw [items_takes, h, List.drop_left]
  exact ⟨⟨by rw [hrest, h], rfl⟩, hrest⟩

theorem HandsOut.split (h : s.HandsOut (taken ++ taken') s'') :
    ∃ s', s.HandsOut taken s' ∧ s'.HandsOut taken' s'' := by
  obtain ⟨htaken, hrest⟩ := handsOut_takes (h.items.trans (List.append_assoc _ _ _))
  refine ⟨_, htaken, hrest, ?_⟩
  rw [h.takes, List.length_append, takes_add]

theorem items_of_take_none (h : s.take = (.ok none, s')) : s.items = [] ∧ s' = s := by
  obtain ⟨rfl, hlexemes, hquote⟩ := take_eq_none_iff.mp h
  refine ⟨?_, rfl⟩
  rw [lexemes, List.map_append, List.append_eq_nil_iff] at hlexemes
  rw [items, Token.Scan.items, hquote, List.map_eq_nil_iff.mp hlexemes.1,
    List.map_eq_nil_iff.mp hlexemes.2]
  rfl

end HandsOut

/-! ## Outcomes -/

/-- Behind the beginning of an expression, with parentheses open at the given places, reading comes
to nothing more than a fault. -/
inductive Stops (opened : List Nat) : (next rest : List Item) → Fault → Prop where
  /-- The next token is at fault. -/
  | token {t : Token} {rest : List Item} {f : Fault} (h : t.Defect opened f) :
    Stops opened [.ok t] rest f
  /-- A quote is never closed. -/
  | quote {rest : List Item} {f : Fault} : Stops opened [.error f] rest f
  /-- There is nothing more, and the innermost parenthesis is never closed. -/
  | unclosed {p : Nat} {outer : List Nat} (h : opened = p :: outer) :
    Stops opened [] [] (.program (.malformed .unclosed (some (p : Int))))

/-- Reading one expression uses up the items, with the rest behind them, and has the outcome. -/
inductive ReadsOne : (taken rest : List Item) → Except Fault (Option Expr) → Prop where
  /-- The tokens spell an expression. -/
  | expr {ts : List Token} {rest : List Item} {e : Expr} (h : Spells (ts.map Token.lexeme) [e]) :
    ReadsOne (ts.map .ok) rest (.ok (some e))
  /-- There is nothing to be read. -/
  | done : ReadsOne [] [] (.ok none)
  /-- The tokens are the beginning of an expression, and what comes next is a fault. -/
  | fault {ts : List Token} {next rest : List Item} {f : Fault} (hts : IsBeginning ts)
    (h : Stops (ts.foldl Token.track []) next rest f) :
    ReadsOne (ts.map .ok ++ next) rest (.error f)

/-- Reading all expressions uses up the items, with the rest behind them, and has the outcome. -/
inductive ReadsAll : (taken rest : List Item) → Except Fault (List Expr) → Prop where
  /-- The tokens spell the expressions, and there is nothing more. -/
  | done {ts : List Token} {es : List Expr} (h : Spells (ts.map Token.lexeme) es) :
    ReadsAll (ts.map .ok) [] (.ok es)
  /-- The tokens spell some expressions, and reading the next one fails. -/
  | fault {ts : List Token} {es : List Expr} {taken rest : List Item} {f : Fault}
    (hts : Spells (ts.map Token.lexeme) es) (h : ReadsOne taken rest (.error f)) :
    ReadsAll (ts.map .ok ++ taken) rest (.error f)

/-! ## There is one outcome -/

/-- Of two lists of tokens in front of the same items one goes on where the other ends. -/
theorem map_ok_append_cases {ts ts' : List Token} {xs xs' : List Item}
    (h : ts.map Except.ok ++ xs = ts'.map Except.ok ++ xs') :
    (ts = ts' ∧ xs = xs') ∨
      (∃ t us, ts' = ts ++ t :: us ∧ xs = .ok t :: (us.map Except.ok ++ xs')) ∨
      ∃ t us, ts = ts' ++ t :: us ∧ xs' = .ok t :: (us.map Except.ok ++ xs) := by
  induction ts generalizing ts' with
  | nil =>
    cases ts' with
    | nil => exact .inl ⟨rfl, h⟩
    | cons t us => exact .inr (.inl ⟨t, us, rfl, h⟩)
  | cons t ts ih =>
    cases ts' with
    | nil => exact .inr (.inr ⟨t, ts, rfl, h.symm⟩)
    | cons t' ts' =>
      rw [List.map_cons, List.map_cons, List.cons_append, List.cons_append] at h
      obtain ⟨ht, htail⟩ := List.cons.inj h
      cases ht
      rcases ih htail with ⟨rfl, rfl⟩ | ⟨u, us, rfl, rfl⟩ | ⟨u, us, rfl, rfl⟩
      · exact .inl ⟨rfl, rfl⟩
      · exact .inr (.inl ⟨u, us, rfl, rfl⟩)
      · exact .inr (.inr ⟨u, us, rfl, rfl⟩)

section Unique

variable {opened : List Nat} {next next' rest rest' taken taken' : List Item} {f f' : Fault}

theorem Stops.defect {t : Token} {xs : List Item} (h : Stops opened next rest f)
    (heq : next ++ rest = .ok t :: xs) : t.Defect opened f := by
  cases h with
  | token h =>
    cases heq
    exact h
  | quote => cases heq
  | unclosed => cases heq

theorem Stops.unique (h : Stops opened next rest f) (h' : Stops opened next' rest' f')
    (heq : next ++ rest = next' ++ rest') : next = next' ∧ f = f' := by
  cases h with
  | @token t _ _ h =>
    have hfault := Token.fault?_eq_some_iff.mpr h
    rw [Token.fault?_eq_some_iff.mpr (h'.defect heq.symm)] at hfault
    cases hfault
    cases h' with
    | token => cases heq; exact ⟨rfl, rfl⟩
    | quote => cases heq
    | unclosed => cases heq
  | quote =>
    cases h' with
    | token => cases heq
    | quote => cases heq; exact ⟨rfl, rfl⟩
    | unclosed => cases heq
  | unclosed h =>
    cases h' with
    | token => cases heq
    | quote => cases heq
    | unclosed h' =>
      rw [h] at h'
      cases h'
      exact ⟨rfl, rfl⟩

theorem ReadsOne.not_fault_of_spells {ts ts' : List Token} {e : Expr}
    (h : Spells (ts.map Token.lexeme) [e]) (hts' : IsBeginning ts')
    (hstops : Stops (ts'.foldl Token.track []) next rest f) {xs : List Item} :
    ts.map Except.ok ++ xs ≠ ts'.map Except.ok ++ (next ++ rest) := by
  intro heq
  rcases map_ok_append_cases heq with ⟨rfl, -⟩ | ⟨t, us, rfl, -⟩ | ⟨t, us, rfl, hnext⟩
  · rw [← List.append_nil ts] at hts'
    exact not_spells_of_isBeginning hts' h
  · exact not_spells_of_isBeginning hts' h
  · rw [← List.append_nil ((ts' ++ t :: us).map Token.lexeme)] at h
    exact not_defect_of_spells h f (hstops.defect hnext)

/-- The beginning of an expression that reading fails behind has no token that it fails at. -/
theorem Stops.next_ne {ts us : List Token} {t : Token} {xs : List Item}
    (h : Stops (ts.foldl Token.track []) next rest f) (hts : IsBeginning (ts ++ t :: us)) :
    next ++ rest ≠ .ok t :: xs := by
  intro heq
  obtain ⟨more, e, -, hspells⟩ := hts
  exact not_defect_of_spells hspells f (h.defect heq)

theorem ReadsOne.eq_none {r : Except Fault (Option Expr)} (h : ReadsOne taken rest r)
    (heq : taken ++ rest = []) : r = .ok none := by
  obtain ⟨htaken, -⟩ := List.append_eq_nil_iff.mp heq
  cases h with
  | expr h =>
    rw [List.map_eq_nil_iff.mp htaken] at h
    cases h
  | done => rfl
  | fault hts hstops =>
    obtain ⟨hnil, rfl⟩ := List.append_eq_nil_iff.mp htaken
    rw [List.map_eq_nil_iff.mp hnil] at hstops
    cases hstops with
    | unclosed h => cases h

theorem ReadsOne.of_none (h : ReadsOne taken rest (.ok none)) : taken = [] ∧ rest = [] := by
  cases h
  exact ⟨rfl, rfl⟩

theorem ReadsOne.of_some {e : Expr} (h : ReadsOne taken rest (.ok (some e))) :
    ∃ ts : List Token, taken = ts.map Except.ok ∧ Spells (ts.map Token.lexeme) [e] := by
  cases h with
  | expr h => exact ⟨_, rfl, h⟩

/-- **One outcome.** What lies ahead settles the outcome of reading one expression and how much is
used up for it. -/
theorem ReadsOne.unique {r r' : Except Fault (Option Expr)} (h : ReadsOne taken rest r)
    (h' : ReadsOne taken' rest' r') (heq : taken ++ rest = taken' ++ rest') :
    taken = taken' ∧ r = r' := by
  cases h with
  | done =>
    obtain ⟨rfl, -⟩ := List.append_eq_nil_iff.mp heq.symm
    exact ⟨rfl, (h'.eq_none heq.symm).symm⟩
  | @expr ts _ e h =>
    cases h' with
    | done => cases (ReadsOne.expr h).eq_none heq
    | @expr ts' _ e' h' =>
      -- one spelling would be the beginning of the other, so they are the same
      rcases map_ok_append_cases heq with ⟨rfl, -⟩ | ⟨t, us, rfl, -⟩ | ⟨t, us, rfl, -⟩
      · cases h.unique h'
        exact ⟨rfl, rfl⟩
      · rw [List.map_append] at h'
        cases (h.eq_of_append h').1
      · rw [List.map_append] at h
        cases (h'.eq_of_append h).1
    | fault hts' hstops' =>
      rw [List.append_assoc] at heq
      exact absurd heq (not_fault_of_spells h hts' hstops')
  | @fault ts next _ f hts hstops =>
    cases h' with
    | done => cases (ReadsOne.fault hts hstops).eq_none heq
    | expr h' =>
      rw [List.append_assoc] at heq
      exact absurd heq.symm (not_fault_of_spells h' hts hstops)
    | @fault ts' next' _ f' hts' hstops' =>
      rw [List.append_assoc, List.append_assoc] at heq
      -- a beginning that reading fails behind has no proper part with the same property
      rcases map_ok_append_cases heq with ⟨rfl, hnext⟩ | ⟨t, us, rfl, hnext⟩ | ⟨t, us, rfl, hnext⟩
      · obtain ⟨rfl, rfl⟩ := hstops.unique hstops' hnext
        exact ⟨rfl, rfl⟩
      · exact absurd hnext (hstops.next_ne hts')
      · exact absurd hnext (hstops'.next_ne hts)

end Unique

/-! ## The outcome of the reader -/

/-- The tokens have been read, and the compounds are open behind them. -/
structure Inside (ts : List Token) (inner : OpenCompound) (outer : List OpenCompound) : Prop where
  /-- The compounds stand at the places of the open parentheses. -/
  opened : ts.foldl Token.track [] = (inner :: outer).map OpenCompound.offset
  /-- What completes the compounds completes the tokens. -/
  completed : ∀ {more e}, Closes inner outer more e → Spells (ts.map Token.lexeme ++ more) [e]

theorem exists_closes (inner : OpenCompound) (outer : List OpenCompound) :
    ∃ more e, more ≠ [] ∧ Closes inner outer more e := by
  induction outer generalizing inner with
  | nil => exact ⟨[(.closing, ")")], _, List.cons_ne_nil _ _, .last .nil⟩
  | cons next others ih =>
    obtain ⟨more, e, -, h⟩ := ih (next.push (.compound (inner.elements.reverse ++ [])))
    exact ⟨(.closing, ")") :: more, e, List.cons_ne_nil _ _, .next .nil h⟩

section Inside

variable {ts : List Token} {t : Token} {inner next : OpenCompound} {outer : List OpenCompound}

theorem Inside.isBeginning (h : Inside ts inner outer) : IsBeginning ts := by
  obtain ⟨more, e, hmore, hcloses⟩ := exists_closes inner outer
  exact ⟨more, e, hmore, h.completed hcloses⟩

theorem Inside.first (hkind : t.kind = .opening) : Inside [t] ⟨t.offset, []⟩ [] := by
  refine ⟨by simp [Token.track, hkind], fun hcloses ↦ ?_⟩
  cases hcloses with
  | last hspells =>
    rw [List.map_singleton, Token.lexeme, hkind]
    exact hspells.compound .nil

/-- One more token changes the open compounds in such a way that what completes them then completes
those before, with the token in front. -/
theorem Inside.snoc {inner' : OpenCompound} {outer' : List OpenCompound}
    (h : Inside ts inner outer)
    (hopened : t.track ((inner :: outer).map OpenCompound.offset)
      = (inner' :: outer').map OpenCompound.offset)
    (hcloses : ∀ {more e}, Closes inner' outer' more e → Closes inner outer (t.lexeme :: more) e) :
    Inside (ts ++ [t]) inner' outer' := by
  constructor
  · rw [List.foldl_append, h.opened]
    exact hopened
  · intro more e hmore
    rw [List.map_append, List.append_assoc]
    exact h.completed (hcloses hmore)

theorem Inside.opening (h : Inside ts inner outer) (hkind : t.kind = .opening) :
    Inside (ts ++ [t]) ⟨t.offset, []⟩ (inner :: outer) := by
  refine h.snoc (by simp [Token.track, hkind]) fun hcloses ↦ ?_
  cases hcloses with
  | next hspells hnext =>
    rw [Token.lexeme, hkind, ← List.cons_append, List.append_cons]
    exact .push (hspells.compound .nil) hnext

theorem Inside.closing (h : Inside ts inner (next :: outer)) (hkind : t.kind = .closing) :
    Inside (ts ++ [t]) (next.push inner.close) outer := by
  refine h.snoc (by simp [Token.track, hkind, OpenCompound.push]) fun hcloses ↦ ?_
  rw [Token.lexeme, hkind]
  exact hcloses.close

theorem Inside.atom {e : Expr} (h : Inside ts inner outer) (hatom : Denotes t.lexeme e) :
    Inside (ts ++ [t]) (inner.push e) outer := by
  refine h.snoc ?_ fun hcloses ↦ .push (.atom hatom .nil) hcloses
  rw [Token.lexeme] at hatom
  cases hkind : t.kind with
  | word | string => simp [Token.track, hkind, OpenCompound.push]
  | opening | closing =>
    rw [hkind] at hatom
    cases hatom

theorem Inside.last (h : Inside ts inner []) (hkind : t.kind = .closing) :
    Spells ((ts ++ [t]).map Token.lexeme) [inner.close] := by
  rw [List.map_append, List.map_singleton, Token.lexeme, hkind, OpenCompound.close,
    ← List.append_nil inner.elements.reverse]
  exact h.completed (.last .nil)

end Inside

/-- The tokens have been read. Reading on from the feed has the outcome and leaves the other
feed. -/
def ComesTo (ts : List Token) (s : TokenFeed) (r : Except Fault (Option Expr)) (s' : TokenFeed) :
    Prop :=
  ∃ taken, s.HandsOut taken s' ∧ ReadsOne (ts.map .ok ++ taken) s'.items r

section ComesTo

variable {ts : List Token} {t : Token} {s s' u : TokenFeed} {f : Fault}

theorem ComesTo.of_take {r : Except Fault (Option Expr)} (htake : s.take = (.ok (some t), u))
    (h : ComesTo (ts ++ [t]) u r s') : ComesTo ts s r s' := by
  obtain ⟨taken, htaken, h⟩ := h
  refine ⟨.ok t :: taken, (handsOut_of_take (x := .ok t) htake).trans htaken, ?_⟩
  rwa [List.map_append, List.append_assoc] at h

theorem comesTo_expr {e : Expr} (h : Spells (ts.map Token.lexeme) [e]) :
    ComesTo ts s (.ok (some e)) s :=
  ⟨[], .refl s, by rw [List.append_nil]; exact .expr h⟩

theorem comesTo_defect (htake : s.take = (.ok (some t), u)) (hts : IsBeginning ts)
    (h : t.Defect (ts.foldl Token.track []) f) : ComesTo ts s (.error f) u :=
  ⟨_, handsOut_of_take (x := .ok t) htake, .fault hts (.token h)⟩

theorem comesTo_quote (htake : s.take = (.error f, u)) (hts : IsBeginning ts) :
    ComesTo ts s (.error f) u :=
  ⟨_, handsOut_of_take (x := .error f) htake, .fault hts .quote⟩

theorem readCompound_comesTo (inner : OpenCompound) (outer : List OpenCompound) (s : TokenFeed)
    (h : Inside ts inner outer) :
    ComesTo ts s ((s.readCompound inner outer).1.map some) (s.readCompound inner outer).2 := by
  -- along the recursion of the reader: the token just taken goes to those that were read
  fun_induction readCompound inner outer s generalizing ts with
  | case1 inner outer s f s' htake => exact comesTo_quote htake h.isBeginning
  | case2 inner outer s s' htake =>
    obtain ⟨hnil, rfl⟩ := items_of_take_none htake
    refine ⟨[], .refl _, ?_⟩
    rw [hnil]
    exact .fault h.isBeginning (.unclosed h.opened)
  | case3 inner outer s t s' htake hkind ih => exact .of_take htake (ih (h.opening hkind))
  | case4 inner s t s' htake hkind => exact .of_take htake (comesTo_expr (h.last hkind))
  | case5 inner s t s' htake hkind next others ih => exact .of_take htake (ih (h.closing hkind))
  | case6 inner outer s t s' htake hkind ih =>
    exact .of_take htake (ih (h.atom (denotes_of_kind_string hkind)))
  | case7 inner outer s t s' htake hkind e hread ih =>
    exact .of_take htake (ih (h.atom (denotes_of_readWord hkind hread)))
  | case8 inner outer s t s' htake hkind f hread =>
    exact comesTo_defect htake h.isBeginning (.of_readWord hkind hread)

theorem nextExpr_comesTo (s : TokenFeed) : ComesTo [] s s.nextExpr.1 s.nextExpr.2 := by
  rw [nextExpr]
  split
  · next f s' htake => exact comesTo_quote htake isBeginning_nil
  · next s' htake =>
    obtain ⟨hnil, rfl⟩ := items_of_take_none htake
    refine ⟨[], .refl _, ?_⟩
    rw [hnil]
    exact .done
  · next t s' htake =>
    split
    · next hkind =>
      cases hread : readWord t.text t.offset with
      | error f => exact comesTo_defect htake isBeginning_nil (.of_readWord hkind hread)
      | ok e => exact .of_take htake (comesTo_expr (.atom (denotes_of_readWord hkind hread) .nil))
    · next hkind =>
      exact .of_take htake (comesTo_expr (.atom (denotes_of_kind_string hkind) .nil))
    · next hkind => exact comesTo_defect htake isBeginning_nil (.strayClose hkind rfl)
    · next hkind =>
      have h := readCompound_comesTo ⟨t.offset, []⟩ [] s' (.first hkind)
      split
      · next hread =>
        rw [hread] at h
        exact .of_take htake h
      · next hread =>
        rw [hread] at h
        exact .of_take htake h

end ComesTo

/-- **Reading one expression.** The outcome of the reader, and the feed that it leaves, are those
that the grammar settles. -/
theorem nextExpr_eq_iff {s s' : TokenFeed} {r : Except Fault (Option Expr)} :
    s.nextExpr = (r, s') ↔ ∃ taken, s.HandsOut taken s' ∧ ReadsOne taken s'.items r := by
  obtain ⟨taken, htaken, h⟩ := s.nextExpr_comesTo
  constructor
  · intro hnext
    rw [hnext] at htaken h
    exact ⟨taken, htaken, h⟩
  · rintro ⟨taken', htaken', h'⟩
    obtain ⟨rfl, rfl⟩ := h.unique h' (htaken.items.symm.trans htaken'.items)
    exact Prod.ext rfl (htaken.takes.trans htaken'.takes.symm)

/-! ## Reading all expressions -/

theorem restExprs_of_error {s s' : TokenFeed} {f : Fault} (h : s.nextExpr = (.error f, s')) :
    s.restExprs = (.error f, s') := by
  rw [restExprs]
  split <;> simp_all

theorem restExprs_of_nextExpr {s s' : TokenFeed} {e : Expr} (h : s.nextExpr = (.ok (some e), s')) :
    s.restExprs = s'.restExprs.map (Except.map (e :: ·)) id := by
  cases hrest : s'.restExprs with
  | mk r s'' =>
    rw [restExprs]
    cases r <;> split <;> simp_all [Except.map]

theorem ReadsAll.cons {ts : List Token} {e : Expr} {taken rest : List Item}
    {r : Except Fault (List Expr)} (he : Spells (ts.map Token.lexeme) [e])
    (h : ReadsAll taken rest r) : ReadsAll (ts.map .ok ++ taken) rest (r.map (e :: ·)) := by
  have happend {ts' : List Token} {es : List Expr} (hts' : Spells (ts'.map Token.lexeme) es) :
      Spells ((ts ++ ts').map Token.lexeme) (e :: es) := by
    rw [List.map_append]
    exact he.append hts'
  cases h with
  | done hts' =>
    rw [← List.map_append]
    exact .done (happend hts')
  | fault hts' h =>
    rw [← List.append_assoc, ← List.map_append]
    exact .fault (happend hts') h

theorem restExprs_readsAll (s : TokenFeed) :
    ∃ taken, s.HandsOut taken s.restExprs.2 ∧ ReadsAll taken s.restExprs.2.items s.restExprs.1 := by
  -- an expression that is read goes in front of what reading the others comes to
  have hcons {s s' : TokenFeed} {e : Expr} (hnext : s.nextExpr = (.ok (some e), s'))
      (h : ∃ taken, s'.HandsOut taken s'.restExprs.2 ∧
        ReadsAll taken s'.restExprs.2.items s'.restExprs.1) :
      ∃ taken, s.HandsOut taken s'.restExprs.2 ∧
        ReadsAll taken s'.restExprs.2.items (s'.restExprs.1.map (e :: ·)) := by
    obtain ⟨taken, htaken, hone⟩ := nextExpr_eq_iff.mp hnext
    obtain ⟨taken', htaken', hall⟩ := h
    obtain ⟨ts, rfl, he⟩ := hone.of_some
    exact ⟨_, htaken.trans htaken', .cons he hall⟩
  fun_induction restExprs s with
  | case1 s f s' hnext =>
    obtain ⟨taken, htaken, h⟩ := nextExpr_eq_iff.mp hnext
    exact ⟨taken, htaken, @ReadsAll.fault [] [] _ _ _ .nil h⟩
  | case2 s s' hnext =>
    obtain ⟨taken, htaken, h⟩ := nextExpr_eq_iff.mp hnext
    obtain ⟨rfl, hrest⟩ := h.of_none
    refine ⟨[], htaken, ?_⟩
    rw [hrest]
    exact @ReadsAll.done [] [] .nil
  | case3 s e s' hnext es s'' hrest ih =>
    have h := hcons hnext ih
    rwa [hrest] at h
  | case4 s e s' hnext f s'' hrest ih =>
    have h := hcons hnext ih
    rwa [hrest] at h

/-- The spelling of some expressions is read, and reading goes on behind it. -/
theorem restExprs_of_handsOut {ts : List Token} {es : List Expr} {s s' : TokenFeed}
    (h : Spells (ts.map Token.lexeme) es) (hs : s.HandsOut (ts.map .ok) s') :
    s.restExprs = s'.restExprs.map (Except.map (es ++ ·)) id := by
  induction es generalizing s ts with
  | nil =>
    rw [List.map_eq_nil_iff.mp h.eq_nil] at hs
    obtain rfl : s' = s := hs.takes
    rcases s'.restExprs with ⟨_ | _, _⟩ <;> rfl
  | cons e es ih =>
    obtain ⟨ls, ls', hls, he, hes⟩ := h.of_cons
    obtain ⟨ts₁, ts₂, rfl, rfl, rfl⟩ := List.map_eq_append_iff.mp hls
    rw [List.map_append] at hs
    obtain ⟨u, hu, hs⟩ := hs.split
    rw [restExprs_of_nextExpr (nextExpr_eq_iff.mpr ⟨_, hu, .expr he⟩), ih hes hs]
    rcases s'.restExprs with ⟨_ | _, _⟩ <;> rfl

/-- **Reading all expressions.** The outcome of the reader, and the feed that it leaves, are those
that the grammar settles. -/
theorem restExprs_eq_iff {s s' : TokenFeed} {r : Except Fault (List Expr)} :
    s.restExprs = (r, s') ↔ ∃ taken, s.HandsOut taken s' ∧ ReadsAll taken s'.items r := by
  constructor
  · intro hrest
    have h := s.restExprs_readsAll
    rwa [hrest] at h
  · rintro ⟨taken, hs, h⟩
    generalize hitems : s'.items = rest at h
    cases h with
    | done h =>
      have hnext : s'.nextExpr = (.ok none, s') :=
        nextExpr_eq_iff.mpr ⟨[], .refl s', by rw [hitems]; exact .done⟩
      rw [restExprs_of_handsOut h hs, restExprs_of_none hnext]
      simp [Except.map]
    | fault h hone =>
      obtain ⟨u, hu, hs⟩ := hs.split
      have hnext := nextExpr_eq_iff.mpr ⟨_, hs, hitems ▸ hone⟩
      rw [restExprs_of_handsOut h hu, restExprs_of_error hnext]
      rfl

end TokenFeed

end Interleave

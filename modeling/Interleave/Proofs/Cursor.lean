import Interleave.Expr.Request
import Interleave.Proofs.Outcomes

/-!
# Feeds are cursors

A feed may hold a token back that was looked at, and it fails once where the scan of the text
failed. Requests to it come in any order, and a request may fail in the middle of a compound. Seen
from outside none of this matters: a feed is a plain cursor in front of the items that lie ahead.

A run of the cursor cuts the items into pieces, one for each request in turn, and leaves the rest
(`TokenFeed.CursorRun`). What a request is answered depends on its piece and on what stands behind
it (`TokenFeed.Turn.Fits`). The feed answers its requests in this way
(`TokenFeed.exists_cursorRun`), and there is no other way (`TokenFeed.CursorRun.unique`).

## What is gained

With the run at hand, questions about feeds become questions about lists. No token is lost or handed
out twice, since the pieces make up the items. Nobody is told of the end before it is there. The
fault of an open quote is used up by one turn at most, and nothing comes after it. And where no such
fault lies ahead, requests that only look can be left out without a change to the other answers
(`TokenFeed.serveAll_filter`).

Existence and uniqueness are proved for one request first, and then for all by induction on the
requests.
-/

namespace Interleave

namespace TokenFeed

/-! ## Runs of a cursor -/

/-- A request, its answer, and the items that were used up for it. -/
@[ext]
structure Turn where
  /-- What was asked. -/
  request : Request
  /-- What was answered. -/
  answer : Answer
  /-- The items that were used up. -/
  taken : List Item

/-- The turn is right in front of the given items, which are left behind it. -/
inductive Turn.Fits : Turn → List Item → Prop where
  /-- A token is seen and stays. -/
  | seesToken {t : Token} {rest : List Item} :
    Fits ⟨.peek, .token (.ok (some t)), []⟩ (.ok t :: rest)
  /-- A fault is met and is gone. -/
  | meetsFault {f : Fault} {rest : List Item} :
    Fits ⟨.peek, .token (.error f), [.error f]⟩ rest
  /-- The end is seen. -/
  | seesEnd : Fits ⟨.peek, .token (.ok none), []⟩ []
  /-- A token is taken, or a fault is met. -/
  | takesItem {x : Item} {rest : List Item} : Fits ⟨.take, .token (x.map some), [x]⟩ rest
  /-- There is nothing to be taken. -/
  | takesEnd : Fits ⟨.take, .token (.ok none), []⟩ []
  /-- An expression is read, or is not. -/
  | readsOne {taken rest : List Item} {r : Except Fault (Option Expr)}
    (h : ReadsOne taken rest r) : Fits ⟨.nextExpr, .expr r, taken⟩ rest
  /-- All expressions are read, or are not. -/
  | readsAll {taken rest : List Item} {r : Except Fault (List Expr)}
    (h : ReadsAll taken rest r) : Fits ⟨.restExprs, .exprs r, taken⟩ rest

/-- A plain cursor goes over the items in these turns and leaves the others. -/
structure CursorRun (items : List Item) (turns : List Turn) (left : List Item) : Prop where
  /-- The turns cut up the items from the first on. -/
  cut : items = turns.flatMap Turn.taken ++ left
  /-- Every turn is right where it stands. -/
  fits : ∀ {before later : List Turn} {turn : Turn}, turns = before ++ turn :: later →
    turn.Fits (later.flatMap Turn.taken ++ left)

theorem cursorRun_nil_iff {items left : List Item} : CursorRun items [] left ↔ items = left := by
  constructor
  · intro h
    exact h.cut
  · intro h
    refine ⟨h, fun {before later turn} hturns ↦ ?_⟩
    exact absurd hturns.symm (List.append_ne_nil_of_right_ne_nil _ (List.cons_ne_nil _ _))

theorem cursorRun_cons_iff {items left : List Item} {turn : Turn} {turns : List Turn} :
    CursorRun items (turn :: turns) left ↔
      ∃ rest, items = turn.taken ++ rest ∧ turn.Fits rest ∧ CursorRun rest turns left := by
  constructor
  · intro h
    refine ⟨turns.flatMap Turn.taken ++ left, ?_, @h.fits [] turns turn rfl, rfl, ?_⟩
    · rw [h.cut, List.flatMap_cons, List.append_assoc]
    · intro before later turn' hturns
      exact @h.fits (turn :: before) later turn' (congrArg _ hturns)
  · rintro ⟨rest, rfl, hfits, h⟩
    constructor
    · rw [h.cut, List.flatMap_cons, List.append_assoc]
    · intro before later turn' hturns
      cases before with
      | nil =>
        cases hturns
        rwa [← h.cut]
      | cons _ before =>
        cases hturns
        exact h.fits rfl

/-! ## Feeds run as cursors do -/

theorem peek_eq_items (s : TokenFeed) :
    s.peek.1 = front s.items ∧
      s.peek.2.items =
        match s.items with
        | .error _ :: xs => xs
        | xs => xs := by
  obtain ⟨lookahead, unread, openQuote⟩ := s
  cases lookahead with
  | cons t ts => exact ⟨rfl, rfl⟩
  | nil =>
    cases unread with
    | cons t ts => exact ⟨rfl, rfl⟩
    | nil => cases openQuote <;> exact ⟨rfl, rfl⟩

theorem serve_fits (s : TokenFeed) (request : Request) :
    ∃ taken, s.items = taken ++ (s.serve request).2.items ∧
      Turn.Fits ⟨request, (s.serve request).1, taken⟩ (s.serve request).2.items := by
  cases request with
  | peek =>
    obtain ⟨hfst, hsnd⟩ := s.peek_eq_items
    simp only [serve, Prod.map_fst, Prod.map_snd, id, hfst, hsnd]
    cases s.items with
    | nil => exact ⟨[], rfl, .seesEnd⟩
    | cons x xs =>
      cases x with
      | error f => exact ⟨[.error f], rfl, .meetsFault⟩
      | ok t => exact ⟨[], rfl, .seesToken⟩
  | take =>
    obtain ⟨hfst, hsnd⟩ := s.take_eq_items
    simp only [serve, Prod.map_fst, Prod.map_snd, id, hfst, hsnd]
    cases s.items with
    | nil => exact ⟨[], rfl, .takesEnd⟩
    | cons x xs => exact ⟨[x], rfl, .takesItem⟩
  | nextExpr =>
    obtain ⟨taken, htaken, h⟩ := nextExpr_eq_iff.mp (Eq.refl s.nextExpr)
    exact ⟨taken, htaken.items, .readsOne h⟩
  | restExprs =>
    obtain ⟨taken, htaken, h⟩ := restExprs_eq_iff.mp (Eq.refl s.restExprs)
    exact ⟨taken, htaken.items, .readsAll h⟩

theorem serve_of_fits {s : TokenFeed} {turn : Turn} {rest : List Item} (h : turn.Fits rest)
    (hs : s.items = turn.taken ++ rest) :
    (s.serve turn.request).1 = turn.answer ∧ (s.serve turn.request).2.items = rest := by
  obtain ⟨hpeek, hpeek'⟩ := s.peek_eq_items
  obtain ⟨htake, htake'⟩ := s.take_eq_items
  rw [hs] at hpeek hpeek' htake htake'
  cases h with
  | seesToken => exact ⟨congrArg _ hpeek, hpeek'⟩
  | meetsFault => exact ⟨congrArg _ hpeek, hpeek'⟩
  | seesEnd => exact ⟨congrArg _ hpeek, hpeek'⟩
  | takesItem => exact ⟨congrArg _ htake, htake'⟩
  | takesEnd => exact ⟨congrArg _ htake, htake'⟩
  | readsOne h =>
    obtain ⟨htaken, hrest⟩ := handsOut_takes hs
    have hnext := nextExpr_eq_iff.mpr ⟨_, htaken, hrest.symm ▸ h⟩
    simp only [serve, hnext]
    exact ⟨rfl, hrest⟩
  | readsAll h =>
    obtain ⟨htaken, hrest⟩ := handsOut_takes hs
    have hnext := restExprs_eq_iff.mpr ⟨_, htaken, hrest.symm ▸ h⟩
    simp only [serve, hnext]
    exact ⟨rfl, hrest⟩

/-- **Feeds run as cursors do.** -/
theorem exists_cursorRun (s : TokenFeed) (requests : List Request) :
    ∃ turns, turns.map Turn.request = requests ∧
      turns.map Turn.answer = (s.serveAll requests).1 ∧
      CursorRun s.items turns (s.serveAll requests).2.items := by
  induction requests generalizing s with
  | nil => exact ⟨[], rfl, rfl, cursorRun_nil_iff.mpr rfl⟩
  | cons request requests ih =>
    obtain ⟨taken, htaken, hfits⟩ := s.serve_fits request
    obtain ⟨turns, hrequests, hanswers, hrun⟩ := ih (s.serve request).2
    refine ⟨⟨request, (s.serve request).1, taken⟩ :: turns, ?_, ?_, ?_⟩
    · rw [List.map_cons, hrequests]
    · rw [List.map_cons, hanswers, serveAll]
    · exact cursorRun_cons_iff.mpr ⟨_, htaken, hfits, hrun⟩

/-- **There is one run.** In front of a feed a cursor can take its turns in one way only. -/
theorem CursorRun.unique {s : TokenFeed} {turns turns' : List Turn} {left left' : List Item}
    (h : CursorRun s.items turns left) (h' : CursorRun s.items turns' left')
    (hrequests : turns.map Turn.request = turns'.map Turn.request) :
    turns = turns' ∧ left = left' := by
  induction turns generalizing s turns' with
  | nil =>
    rw [List.map_eq_nil_iff.mp hrequests.symm] at h' ⊢
    exact ⟨rfl, (cursorRun_nil_iff.mp h).symm.trans (cursorRun_nil_iff.mp h')⟩
  | cons turn turns ih =>
    cases turns' with
    | nil => cases hrequests
    | cons turn' turns' =>
      obtain ⟨hrequest, hothers⟩ := List.cons.inj hrequests
      obtain ⟨rest, hs, hfits, hrun⟩ := cursorRun_cons_iff.mp h
      obtain ⟨rest', hs', hfits', hrun'⟩ := cursorRun_cons_iff.mp h'
      obtain ⟨hanswer, hrest⟩ := serve_of_fits hfits hs
      obtain ⟨hanswer', hrest'⟩ := serve_of_fits hfits' hs'
      rw [hrequest] at hanswer hrest
      obtain rfl : rest = rest' := hrest.symm.trans hrest'
      have htaken : turn.taken = turn'.taken := List.append_cancel_right (hs.symm.trans hs')
      obtain rfl : turn = turn' := Turn.ext hrequest (hanswer.symm.trans hanswer') htaken
      rw [← hrest] at hrun hrun'
      obtain ⟨rfl, rfl⟩ := ih hrun hrun' hothers
      exact ⟨rfl, rfl⟩

/-! ## What the turns use up -/

section Turns

variable {turn : Turn} {taken rest : List Item} {f : Fault}

theorem error_not_mem_map_ok (ts : List Token) : Except.error f ∉ ts.map Except.ok := by
  simp

theorem Turn.Fits.not_mem_of_peek (h : turn.Fits rest) (hpeek : turn.request = .peek) (t : Token) :
    .ok t ∉ turn.taken := by
  cases h with
  | seesToken | seesEnd => exact List.not_mem_nil
  | meetsFault => simp
  | takesItem | takesEnd | readsOne | readsAll => cases hpeek

def Answer.fault? : Answer → Option Fault
  | .token (.error f) | .expr (.error f) | .exprs (.error f) => some f
  | _ => none

theorem ReadsOne.eq_error_of_mem {r : Except Fault (Option Expr)} (h : ReadsOne taken rest r)
    (hf : .error f ∈ taken) : r = .error f := by
  cases h with
  | expr => exact absurd hf (error_not_mem_map_ok _)
  | done => cases hf
  | fault _ hstops =>
    rcases List.mem_append.mp hf with hf | hf
    · exact absurd hf (error_not_mem_map_ok _)
    · cases hstops with
      | token => simp at hf
      | quote => simpa [eq_comm] using hf
      | unclosed => cases hf

theorem ReadsOne.mem_of_openString {p : Option Int}
    (h : ReadsOne taken rest (.error (.program (.malformed .openString p)))) :
    .error (.program (.malformed .openString p)) ∈ taken := by
  cases h with
  | fault _ hstops =>
    cases hstops with
    | token hdefect => cases hdefect
    | quote => simp

/-- A turn fails with the fault of an open quote exactly if it has used that fault up. -/
theorem Turn.Fits.fault?_eq_some_iff (h : turn.Fits rest) {p : Option Int} :
    turn.answer.fault? = some (.program (.malformed .openString p)) ↔
      .error (.program (.malformed .openString p)) ∈ turn.taken := by
  cases h with
  | seesToken | seesEnd | takesEnd => simp [Answer.fault?]
  | meetsFault => simp [Answer.fault?, eq_comm]
  | @takesItem x => cases x <;> simp [Answer.fault?, Except.map, eq_comm]
  | @readsOne _ _ r h =>
    constructor
    · intro hfault
      cases r with
      | ok => cases hfault
      | error g =>
        cases hfault
        exact h.mem_of_openString
    · intro hmem
      rw [h.eq_error_of_mem hmem, Answer.fault?]
  | @readsAll _ _ r h =>
    cases h with
    | done => simp [Answer.fault?]
    | fault hts h =>
      constructor
      · intro hfault
        cases hfault
        exact List.mem_append_right _ h.mem_of_openString
      · intro hmem
        rcases List.mem_append.mp hmem with hmem | hmem
        · exact absurd hmem (error_not_mem_map_ok _)
        · cases h.eq_error_of_mem hmem
          rfl

/-- The answer to a request when there is nothing ahead. -/
def Request.answerAtEnd : Request → Answer
  | .peek | .take => .token (.ok none)
  | .nextExpr => .expr (.ok none)
  | .restExprs => .exprs (.ok [])

theorem Turn.Fits.eq_answerAtEnd (h : turn.Fits rest) (htaken : turn.taken = [])
    (hrest : rest = []) : turn.answer = turn.request.answerAtEnd := by
  cases h with
  | seesToken => cases hrest
  | meetsFault | takesItem => cases htaken
  | seesEnd | takesEnd => rfl
  | readsOne h =>
    rw [h.eq_none (List.append_eq_nil_iff.mpr ⟨htaken, hrest⟩)]
    rfl
  | readsAll h =>
    cases h with
    | done h =>
      rw [List.map_eq_nil_iff.mp htaken] at h
      cases h
      rfl
    | fault hts h =>
      obtain ⟨-, htaken⟩ := List.append_eq_nil_iff.mp htaken
      cases h.eq_none (List.append_eq_nil_iff.mpr ⟨htaken, hrest⟩)

/-- An answer that tells of the end is given only at the end. -/
theorem Turn.Fits.rest_eq_nil (h : turn.Fits rest)
    (hanswer : turn.answer = turn.request.answerAtEnd) : rest = [] := by
  cases h with
  | seesToken | meetsFault => cases hanswer
  | seesEnd | takesEnd => rfl
  | @takesItem x => cases x <;> cases hanswer
  | readsOne h =>
    cases hanswer
    exact h.of_none.2
  | readsAll h =>
    cases hanswer
    cases h
    rfl

/-- The items that a reading with this fault has used up end with what is to blame: a token with
which those before it are no beginning of an expression any more, or the fault of an open quote, or
nothing where nothing is left. -/
def EndsAtOffender (taken left : List Item) (f : Fault) : Prop :=
  ∃ ts, IsBeginning ts ∧
    ((∃ t, taken = (ts ++ [t]).map .ok ∧ t.Defect (ts.foldl Token.track []) f ∧
        ∀ more e, ¬Spells ((ts ++ [t]).map Token.lexeme ++ more) [e]) ∨
      taken = ts.map .ok ++ [.error f] ∨
      taken = ts.map .ok ∧ left = [] ∧
        ∃ (p : Nat) (outer : List Nat), ts.foldl Token.track [] = p :: outer ∧
          f = .program (.malformed .unclosed (some (p : Int))))

theorem EndsAtOffender.mono {left : List Item} (h : EndsAtOffender taken rest f)
    (hleft : rest = [] → left = []) : EndsAtOffender taken left f := by
  obtain ⟨ts, hts, htoken | hquote | ⟨htaken, hrest, hopened⟩⟩ := h
  · exact ⟨ts, hts, .inl htoken⟩
  · exact ⟨ts, hts, .inr (.inl hquote)⟩
  · exact ⟨ts, hts, .inr (.inr ⟨htaken, hleft hrest, hopened⟩)⟩

theorem Turn.Fits.endsAtOffender (h : turn.Fits rest) (hanswer : turn.answer = .expr (.error f)) :
    EndsAtOffender turn.taken rest f := by
  cases h with
  | seesToken | meetsFault | seesEnd | takesItem | takesEnd | readsAll => cases hanswer
  | readsOne h =>
    cases hanswer
    cases h with
    | @fault ts _ _ _ hts hstops =>
      refine ⟨ts, hts, ?_⟩
      cases hstops with
      | @token t _ _ hdefect =>
        refine .inl ⟨t, ?_, hdefect, fun more e ↦ hdefect.not_spells more [e]⟩
        rw [List.map_append, List.map_singleton]
      | quote => exact .inr (.inl rfl)
      | unclosed hopened => exact .inr (.inr ⟨List.append_nil _, rfl, _, _, hopened, rfl⟩)

end Turns

/-! ## The fault of an open quote -/

theorem eq_nil_of_error_mem {ts : List Token} {x : Option Item} {xs ys : List Item} {f : Fault}
    (h : ts.map Except.ok ++ x.toList = xs ++ ys) (hf : .error f ∈ xs) : ys = [] := by
  induction ts generalizing xs with
  | nil =>
    cases xs with
    | nil => cases hf
    | cons y xs =>
      cases x with
      | none => cases h
      | some x =>
        obtain ⟨-, hnil⟩ := List.cons.inj h
        exact (List.append_eq_nil_iff.mp hnil.symm).2
  | cons t ts ih =>
    cases xs with
    | nil => cases hf
    | cons y xs =>
      obtain ⟨rfl, htail⟩ := List.cons.inj h
      exact ih htail (List.mem_of_ne_of_mem (by simp) hf)

/-- When a turn has used up the fault of an open quote, the cursor is at its end. -/
theorem CursorRun.at_end {scan : Token.Scan} {turns before later : List Turn} {turn : Turn}
    {left : List Item} {f : Fault} (h : CursorRun scan.items turns left)
    (hturns : turns = before ++ turn :: later) (hf : .error f ∈ turn.taken) :
    left = [] ∧ ∀ u ∈ later, u.taken = [] ∧ u.answer = u.request.answerAtEnd := by
  have hcut := h.cut
  rw [hturns, List.flatMap_append, List.flatMap_cons, ← List.append_assoc,
    List.append_assoc] at hcut
  obtain ⟨hlater, rfl⟩ :=
    List.append_eq_nil_iff.mp (eq_nil_of_error_mem hcut (List.mem_append_right _ hf))
  refine ⟨rfl, fun u hu ↦ ?_⟩
  have htaken : ∀ v ∈ later, v.taken = [] := List.flatMap_eq_nil_iff.mp hlater
  obtain ⟨mid, last, rfl⟩ := List.append_of_mem hu
  have hfits := h.fits (hturns.trans (List.append_assoc before (turn :: mid) (u :: last)).symm)
  refine ⟨htaken u hu, hfits.eq_answerAtEnd (htaken u hu) ?_⟩
  rw [List.append_nil, List.flatMap_eq_nil_iff]
  intro v hv
  exact htaken v (List.mem_append_right _ (List.mem_cons_of_mem _ hv))

/-! ## The token that is held back -/

theorem length_lookahead_take_le (s : TokenFeed) :
    s.take.2.lookahead.length ≤ s.lookahead.length := by
  obtain ⟨lookahead, unread, openQuote⟩ := s
  cases lookahead with
  | cons t ts => exact Nat.le_succ _
  | nil =>
    cases unread with
    | cons t ts => exact Nat.le_of_eq rfl
    | nil => cases openQuote <;> exact Nat.le_of_eq rfl

theorem length_lookahead_takes_le (s : TokenFeed) (n : Nat) :
    (s.takes n).lookahead.length ≤ s.lookahead.length := by
  induction n generalizing s with
  | zero => exact Nat.le_of_eq rfl
  | succ n ih => exact (ih s.take.2).trans s.length_lookahead_take_le

theorem length_lookahead_peek_le (s : TokenFeed) :
    s.peek.2.lookahead.length ≤ max 1 s.lookahead.length := by
  obtain ⟨lookahead, unread, openQuote⟩ := s
  cases lookahead with
  | cons t ts => exact Nat.le_max_right _ _
  | nil =>
    cases unread with
    | cons t ts => exact Nat.le_max_left _ _
    | nil => cases openQuote <;> exact Nat.zero_le _

/-- But for looking, all that a request does to the feed is to take tokens. -/
theorem exists_serve_eq_takes (s : TokenFeed) {request : Request} (h : request ≠ .peek) :
    ∃ n, (s.serve request).2 = s.takes n := by
  cases request with
  | peek => exact absurd rfl h
  | take => exact ⟨1, rfl⟩
  | nextExpr =>
    obtain ⟨taken, htaken, -⟩ := nextExpr_eq_iff.mp (Eq.refl s.nextExpr)
    exact ⟨_, htaken.takes⟩
  | restExprs =>
    obtain ⟨taken, htaken, -⟩ := restExprs_eq_iff.mp (Eq.refl s.restExprs)
    exact ⟨_, htaken.takes⟩

theorem length_lookahead_serve_le (s : TokenFeed) (request : Request) :
    (s.serve request).2.lookahead.length ≤ max 1 s.lookahead.length := by
  by_cases h : request = .peek
  · subst h
    exact s.length_lookahead_peek_le
  · obtain ⟨n, hn⟩ := s.exists_serve_eq_takes h
    rw [hn]
    exact (s.length_lookahead_takes_le n).trans (Nat.le_max_right _ _)

theorem length_lookahead_serveAll_le (s : TokenFeed) (requests : List Request) :
    (s.serveAll requests).2.lookahead.length ≤ max 1 s.lookahead.length := by
  induction requests generalizing s with
  | nil => exact Nat.le_max_right _ _
  | cons request requests ih =>
    have h := s.length_lookahead_serve_le request
    exact (ih (s.serve request).2).trans (by omega)

/-! ## Looking -/

theorem serve_congr {s s' : TokenFeed} (h : s.items = s'.items) (request : Request) :
    (s.serve request).1 = (s'.serve request).1 ∧
      (s.serve request).2.items = (s'.serve request).2.items := by
  obtain ⟨taken, htaken, hfits⟩ := s'.serve_fits request
  exact serve_of_fits hfits (h.trans htaken)

theorem items_serve_peek {s : TokenFeed} (h : ∀ f, .error f ∉ s.items) :
    (s.serve .peek).2.items = s.items := by
  refine s.peek_eq_items.2.trans ?_
  split
  · next f xs hs => exact absurd (hs ▸ List.mem_cons_self) (h f)
  · rfl

/-- **Looking changes nothing.** Where no fault lies ahead, the other requests are answered as if
nobody had looked. -/
theorem serveAll_filter {s s' : TokenFeed} (h : s.items = s'.items) (hs : ∀ f, .error f ∉ s.items)
    (requests : List Request) :
    (requests.filter (· ≠ .peek)).zip (s.serveAll (requests.filter (· ≠ .peek))).1
      = (requests.zip (s'.serveAll requests).1).filter (·.1 ≠ .peek) := by
  induction requests generalizing s s' with
  | nil => rfl
  | cons request requests ih =>
    by_cases hpeek : request = .peek
    · subst hpeek
      have hpeek : (s'.serve .peek).2.items = s'.items := items_serve_peek (h ▸ hs)
      simpa [serveAll] using ih (h.trans hpeek.symm) hs
    · obtain ⟨hanswer, hitems⟩ := serve_congr h request
      obtain ⟨taken, htaken, -⟩ := s.serve_fits request
      have hrest : ∀ f, .error f ∉ (s.serve request).2.items := fun f hf ↦
        hs f (htaken ▸ List.mem_append_right _ hf)
      simpa [serveAll, hpeek, hanswer] using ih hitems hrest

/-- **Feeds are cursors.** Whatever is asked of the feed of a text, in whatever order, the answers
are those of a plain cursor over the tokens of the text and, behind them, the fault of a quote that
nothing closes. There is one way for such a cursor to take its turns.

The turns use up tokens and fault in order, each in one turn. Looking uses up no token, and of the
feed's tokens one at most is held back, also while an expression is read. Where reading an
expression fails, the turn ends with what is to blame. The end is told only when nothing is ahead,
so the fault of the open quote is not passed by. It is the answer of the turn that uses it up and of
no other, and afterwards the cursor is at its end. In a text without open quotes the other requests
are answered as if nobody had looked. -/
theorem feeds_are_plain_cursors (source : String) (requests : List Request) :
    let feed := ofSource source
    let answers := (feed.serveAll requests).1
    let after := (feed.serveAll requests).2
    let items := (Token.scan source).items
    (∃ turns : List Turn,
      turns.map Turn.request = requests ∧ turns.map Turn.answer = answers ∧
      (∀ turns' left, turns'.map Turn.request = requests →
        (CursorRun items turns' left ↔ turns' = turns ∧ left = after.items)) ∧
      items = turns.flatMap Turn.taken ++ after.items ∧
      (∀ turn ∈ turns, turn.request = .peek → ∀ t, .ok t ∉ turn.taken) ∧
      (∀ turn ∈ turns, ∀ f, turn.answer = .expr (.error f) →
        EndsAtOffender turn.taken after.items f) ∧
      (∀ turn ∈ turns, turn.answer = turn.request.answerAtEnd → after.items = []) ∧
      (∀ turn ∈ turns, ∀ p, turn.answer.fault? = some (.program (.malformed .openString p)) ↔
        .error (.program (.malformed .openString p)) ∈ turn.taken) ∧
      ∀ before turn later f, turns = before ++ turn :: later → .error f ∈ turn.taken →
        after.items = [] ∧ ∀ u ∈ later, u.taken = [] ∧ u.answer = u.request.answerAtEnd) ∧
    (∀ n, (after.takes n).lookahead.length ≤ 1) ∧
    (∀ request ≠ .peek, ∃ n, (after.serve request).2 = after.takes n) ∧
    ((Token.scan source).openQuote = none →
      (requests.filter (· ≠ .peek)).zip (feed.serveAll (requests.filter (· ≠ .peek))).1
        = (requests.zip answers).filter (·.1 ≠ .peek)) := by
  intro feed answers after items
  obtain ⟨turns, hrequests, hanswers, hrun⟩ := exists_cursorRun feed requests
  have hitems : feed.items = items := items_ofSource source
  -- every turn fits in front of what the later turns use up and of what is left in the end
  have hfits : ∀ turn ∈ turns, ∃ later : List Turn,
      turn.Fits (later.flatMap Turn.taken ++ after.items) := by
    intro turn hturn
    obtain ⟨before, later, hturns⟩ := List.append_of_mem hturn
    exact ⟨later, hrun.fits hturns⟩
  refine ⟨⟨turns, hrequests, hanswers, ?_, ?_, ?_, ?_, ?_, ?_, ?_⟩, ?_, ?_, ?_⟩
  · intro turns' left hrequests'
    rw [← hitems]
    constructor
    · intro hrun'
      exact hrun'.unique hrun (hrequests'.trans hrequests.symm)
    · rintro ⟨rfl, rfl⟩
      exact hrun
  · exact hitems.symm.trans hrun.cut
  · intro turn hturn hpeek
    obtain ⟨later, hfits⟩ := hfits turn hturn
    exact hfits.not_mem_of_peek hpeek
  · intro turn hturn f hanswer
    obtain ⟨later, hfits⟩ := hfits turn hturn
    exact (hfits.endsAtOffender hanswer).mono fun hnil ↦ (List.append_eq_nil_iff.mp hnil).2
  · intro turn hturn hend
    obtain ⟨later, hfits⟩ := hfits turn hturn
    exact (List.append_eq_nil_iff.mp (hfits.rest_eq_nil hend)).2
  · intro turn hturn p
    obtain ⟨later, hfits⟩ := hfits turn hturn
    exact hfits.fault?_eq_some_iff
  · intro before turn later f hturns hf
    rw [hitems] at hrun
    exact hrun.at_end hturns hf
  · intro n
    exact (after.length_lookahead_takes_le n).trans (feed.length_lookahead_serveAll_le requests)
  · intro request hrequest
    exact after.exists_serve_eq_takes hrequest
  · intro hquote
    refine serveAll_filter rfl (fun f ↦ ?_) requests
    rw [hitems]
    simp [items, Token.Scan.items, hquote]

/-- In the first text two faults are met before that of the open quote, the first of them in the
middle of a compound, and each time the cursor goes on. In the second there is no open quote. -/
theorem feeds_are_plain_cursors_faultyText :
    ((ofSource "(1x ) \"").serveAll [.peek, .nextExpr, .restExprs, .peek, .take]).1 =
        [.token (.ok (some ⟨.opening, "(", 0⟩)),
          .expr (.error (.program (.malformed (.number "1x") (some 1)))),
          .exprs (.error (.program (.malformed .strayClose (some 4)))),
          .token (.error (.program (.malformed .openString (some 6)))),
          .token (.ok none)] ∧
      EndsAtOffender [.ok ⟨.opening, "(", 0⟩, .ok ⟨.word, "1x", 1⟩] []
        (.program (.malformed (.number "1x") (some 1))) ∧
      (Token.scan "a ) b").openQuote = none ∧
      ([.nextExpr, .restExprs, .take] : List Request).zip
          ((ofSource "a ) b").serveAll [.nextExpr, .restExprs, .take]).1
        = (([.nextExpr, .peek, .restExprs, .peek, .take] : List Request).zip
            ((ofSource "a ) b").serveAll [.nextExpr, .peek, .restExprs, .peek, .take]).1).filter
          (·.1 ≠ .peek) := by
  have hitems : (Token.scan "(1x ) \"").items = [.ok ⟨.opening, "(", 0⟩, .ok ⟨.word, "1x", 1⟩,
      .ok ⟨.closing, ")", 4⟩, .error (.program (.malformed .openString (some 6)))] := by
    have hscan : Token.scan "(1x ) \"" =
        ⟨[⟨.opening, "(", 0⟩, ⟨.word, "1x", 1⟩, ⟨.closing, ")", 4⟩], some 6⟩ := by decide +kernel
    rw [hscan]
    rfl
  have hbeginning : IsBeginning [⟨.opening, "(", 0⟩] :=
    ⟨[(.closing, ")")], .compound [], List.cons_ne_nil _ _, .compound .nil .nil⟩
  have hnumber (rest : List Item) : ReadsOne [.ok ⟨.opening, "(", 0⟩, .ok ⟨.word, "1x", 1⟩] rest
      (.error (.program (.malformed (.number "1x") (some 1)))) :=
    ReadsOne.fault hbeginning (.token (Token.fault?_eq_some_iff.mp (by decide +kernel)))
  have hstray (rest : List Item) : ReadsAll [.ok ⟨.closing, ")", 4⟩] rest
      (.error (.program (.malformed .strayClose (some 4)))) :=
    @ReadsAll.fault [] [] _ _ _ .nil
      (@ReadsOne.fault [] _ _ _ isBeginning_nil (.token (.strayClose rfl rfl)))
  have hcursor : CursorRun (Token.scan "(1x ) \"").items
      [⟨.peek, .token (.ok (some ⟨.opening, "(", 0⟩)), []⟩,
        ⟨.nextExpr, .expr (.error (.program (.malformed (.number "1x") (some 1)))),
          [.ok ⟨.opening, "(", 0⟩, .ok ⟨.word, "1x", 1⟩]⟩,
        ⟨.restExprs, .exprs (.error (.program (.malformed .strayClose (some 4)))),
          [.ok ⟨.closing, ")", 4⟩]⟩,
        ⟨.peek, .token (.error (.program (.malformed .openString (some 6)))),
          [.error (.program (.malformed .openString (some 6)))]⟩,
        ⟨.take, .token (.ok none), []⟩] [] := by
    rw [hitems]
    refine cursorRun_cons_iff.mpr ⟨_, rfl, .seesToken, ?_⟩
    refine cursorRun_cons_iff.mpr ⟨_, rfl, .readsOne (hnumber _), ?_⟩
    refine cursorRun_cons_iff.mpr ⟨_, rfl, .readsAll (hstray _), ?_⟩
    refine cursorRun_cons_iff.mpr ⟨_, rfl, .meetsFault, ?_⟩
    exact cursorRun_cons_iff.mpr ⟨_, rfl, .takesEnd, cursorRun_nil_iff.mpr rfl⟩
  obtain ⟨⟨turns, hrequests, hanswers, hrun, -, -, hoffender, -⟩, -⟩ :=
    feeds_are_plain_cursors "(1x ) \"" [.peek, .nextExpr, .restExprs, .peek, .take]
  obtain ⟨rfl, hleft⟩ := (hrun _ _ rfl).mp hcursor
  have hquote : (Token.scan "a ) b").openQuote = none := by decide +kernel
  refine ⟨hanswers.symm, ?_, hquote, ?_⟩
  · have h := hoffender _ (List.mem_cons_of_mem _ List.mem_cons_self) _ rfl
    rwa [← hleft] at h
  · obtain ⟨-, -, -, hlooking⟩ :=
      feeds_are_plain_cursors "a ) b" [.nextExpr, .peek, .restExprs, .peek, .take]
    exact hlooking hquote

end TokenFeed

end Interleave

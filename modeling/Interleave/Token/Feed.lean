import Interleave.Fault
import Interleave.Token.Basic

/-!
# Feeds of tokens

A feed hands out the tokens of a text one at a time. A token can be looked at before it is taken;
it is then held back as lookahead. If the scan of the text ended at a quote that nothing closes, the
first request that gets so far fails there, and the feed is at its end afterwards.

Every operation returns the feed that is left together with its result, also when it fails.

## Lookahead

The lookahead is a list, although no operation puts a second token in it: looking gives the first
one that is held back if there is one. The order of the list is the order of the text, so what a
feed has still to give is the lookahead followed by what is unread.

## Faults are used up

A scan that meets a quote which nothing closes is over. The fault is reported once, to the request
that gets so far, and after that there are no more tokens and no more faults. So a reader that goes
on after a fault comes to an end. The size of a feed, which bounds how often a token can be taken
from it, is what the recursion of readers is on.
-/

namespace Interleave

/-- Tokens yet to be taken. -/
structure TokenFeed where
  /-- Tokens that were looked at and not yet taken, oldest first. -/
  lookahead : List Token
  /-- What the scan of the text has still to give. -/
  unread : Token.Scan
  deriving DecidableEq

namespace TokenFeed

def ofSource (source : String) : TokenFeed :=
  ⟨[], Token.scan source⟩

def size (s : TokenFeed) : Nat :=
  s.lookahead.length + s.unread.tokens.length

/-- The next token of the scan, or its failure, or nothing at the end. -/
def pull (s : TokenFeed) : Except Fault (Option Token) × TokenFeed :=
  match s.unread with
  | ⟨t :: ts, openQuote⟩ => (.ok (some t), { s with unread := ⟨ts, openQuote⟩ })
  | ⟨[], some offset⟩ =>
    (.error (.program (.malformed .openString (some offset))), { s with unread := ⟨[], none⟩ })
  | ⟨[], none⟩ => (.ok none, s)

/-- Looks at the next token without taking it. -/
def peek (s : TokenFeed) : Except Fault (Option Token) × TokenFeed :=
  match s.lookahead with
  | t :: _ => (.ok (some t), s)
  | [] =>
    match s.pull with
    | (.ok (some t), s') => (.ok (some t), { s' with lookahead := s'.lookahead ++ [t] })
    | other => other

/-- Takes the next token. -/
def take (s : TokenFeed) : Except Fault (Option Token) × TokenFeed :=
  match s.lookahead with
  | t :: ts => (.ok (some t), { s with lookahead := ts })
  | [] => s.pull

theorem size_of_take {s s' : TokenFeed} {t : Token} (h : s.take = (.ok (some t), s')) :
    s.size = s'.size + 1 := by
  obtain ⟨lookahead, unread, openQuote⟩ := s
  cases lookahead with
  | cons u us =>
    simp only [take, Prod.mk.injEq] at h
    obtain ⟨_, rfl⟩ := h
    simp only [size, List.length_cons]
    omega
  | nil =>
    cases unread with
    | cons u us =>
      simp only [take, pull, Prod.mk.injEq] at h
      obtain ⟨_, rfl⟩ := h
      simp [size]
    | nil => cases openQuote <;> simp [take, pull] at h

theorem size_take_le {s s' : TokenFeed} {r : Except Fault (Option Token)}
    (h : s.take = (r, s')) : s'.size ≤ s.size := by
  obtain ⟨lookahead, unread, openQuote⟩ := s
  cases lookahead with
  | cons u us =>
    simp only [take, Prod.mk.injEq] at h
    obtain ⟨_, rfl⟩ := h
    simp only [size, List.length_cons]
    omega
  | nil =>
    cases unread with
    | cons u us =>
      simp only [take, pull, Prod.mk.injEq] at h
      obtain ⟨_, rfl⟩ := h
      simp [size]
    | nil =>
      cases openQuote <;>
        (simp only [take, pull, Prod.mk.injEq] at h; obtain ⟨_, rfl⟩ := h; simp [size])

end TokenFeed

end Interleave

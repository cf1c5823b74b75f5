import Interleave.Expr.Reader

/-!
# Requests to a feed

A text can be read bit by bit: tokens are looked at or taken, and expressions are read one at a time
or all at once, in any order and from one feed. `TokenFeed.serve` answers one request.
`TokenFeed.serveAll` answers a sequence of them, each from the feed that the one before it left,
also where that one failed.

## Why requests are data

The order in which a reader is asked for tokens and for expressions is up to whoever holds the feed,
and so is whether to go on after a fault. A theorem about all such uses has to be about all
sequences of requests. With a request as a value and its answer as another, such a sequence is a
list, and a use of the feed is a run of `TokenFeed.serveAll`.

Looking at a token is a request like the others. It does not take the token, but it can meet the
fault of a quote that nothing closes, and then the fault is used up by looking.
-/

namespace Interleave

namespace TokenFeed

/-- What can be asked of a feed. -/
inductive Request where
  /-- To look at the next token. -/
  | peek
  /-- To take the next token. -/
  | take
  /-- To read the next expression. -/
  | nextExpr
  /-- To read all expressions that are left. -/
  | restExprs
  deriving DecidableEq

/-- The answer to a request, which may be a fault. -/
inductive Answer where
  /-- A token, or nothing at the end. -/
  | token (r : Except Fault (Option Token))
  /-- An expression, or nothing at the end. -/
  | expr (r : Except Fault (Option Expr))
  /-- Some expressions. -/
  | exprs (r : Except Fault (List Expr))

/-- Answers a request. -/
def serve (s : TokenFeed) : Request → Answer × TokenFeed
  | .peek => s.peek.map .token id
  | .take => s.take.map .token id
  | .nextExpr => s.nextExpr.map .expr id
  | .restExprs => s.restExprs.map .exprs id

def serveAll (s : TokenFeed) : List Request → List Answer × TokenFeed
  | [] => ([], s)
  | request :: requests =>
    let (answer, s') := s.serve request
    let (answers, s'') := s'.serveAll requests
    (answer :: answers, s'')

end TokenFeed

end Interleave

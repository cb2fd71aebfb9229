import LexDef.Stream.Basic
/-!
# Sessions

A session is a stream in use: requests come in and are answered in turn. Iterating shows the plain
tokens or the lexemes, as the view of the session says.
-/

namespace LexDef

inductive View where
  | tokens
  | lexemes
deriving DecidableEq, Repr, Inhabited

inductive Request where
  | token
  | lexeme
  | next
  | skip (count : Nat)
  | peek (count : Nat)
  | view (view : View)
deriving DecidableEq, Repr

inductive Answer where
  | token (token : Token)
  | lexeme (lexeme : Lexeme)
  | error (error : Error)
  | skipped (count : Nat)
  | peeked (peek : Peek)
  /-- The stream was finished, or there is nothing to tell. -/
  | nothing
deriving DecidableEq, Repr

structure Session where
  stream : Stream
  view : View := .tokens
deriving DecidableEq, Repr

namespace View

def answer (view : View) : Except Error Lexeme → Answer
  | .error e => .error e
  | .ok x =>
    match view with
    | tokens => .token x.token
    | lexemes => .lexeme x

end View

namespace Session

def answer (session : Session) : Request → Answer × Session
  | .token =>
    let (x, stream) := session.stream.pull
    (View.tokens.answer x, { session with stream })
  | .lexeme =>
    let (x, stream) := session.stream.pull
    (View.lexemes.answer x, { session with stream })
  | .next =>
    let (x, stream) := session.stream.next?
    (x.elim .nothing session.view.answer, { session with stream })
  | .skip count =>
    let (skipped, stream) := session.stream.skip count
    (.skipped skipped, { session with stream })
  | .peek count =>
    match session.stream.peek count with
    | .ok peek => (.peeked peek, session)
    | .error e => (.error e, session)
  | .view view => (.nothing, { session with view })

def answers (session : Session) : List Request → List (Answer × Session)
  | [] => []
  | request :: requests =>
    let (answer, session) := session.answer request
    (answer, session) :: session.answers requests

end Session

end LexDef

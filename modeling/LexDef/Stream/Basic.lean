import LexDef.Scanner.Run
/-!
# Streams

A stream delivers the lexemes of a text one at a time. It ends with the end of the text or with the
first failure, and keeps which of the two it was: pulled again, it gives the end, or the error, once
more.
-/

namespace LexDef

inductive Stream.State where
  | running (place : Place)
  | ended (stop : Position)
  | failed (failure : Failure)
deriving DecidableEq, Repr

structure Stream where
  scanner : Scanner
  state : Stream.State
deriving DecidableEq, Repr

inductive Peek where
  /-- As many lexemes as were asked for. -/
  | lexemes (xs : List Lexeme)
  /-- The lexemes up to the end of the text, which is the last of them. -/
  | reachedEnd (xs : List Lexeme)
deriving DecidableEq, Repr

def Peek.cons (x : Lexeme) : Peek → Peek
  | lexemes xs => lexemes (x :: xs)
  | reachedEnd xs => reachedEnd (x :: xs)

def Scanner.stream (scanner : Scanner) (text : String) : Stream :=
  { scanner, state := .running (.ofString text) }

def Scanner.peek (scanner : Scanner) (place : Place) : Nat → Except Error Peek
  | 0 => .ok (.lexemes [])
  | n + 1 =>
    match scanner.next place with
    | .error f => .error f.error
    | .ok (x, after) =>
      if x.token = .endOfText then .ok (.reachedEnd [x])
      else (scanner.peek after n).map (.cons x)

namespace Stream

/-- Where the next lexeme is searched, or where reading ended. -/
def position (stream : Stream) : Position :=
  match stream.state with
  | .running place => place.pos
  | .ended stop => stop
  | .failed f => f.stop

def isDone (stream : Stream) : Bool :=
  match stream.state with
  | .running _ => false
  | .ended _ | .failed _ => true

def pull (stream : Stream) : Except Error Lexeme × Stream :=
  match stream.state with
  | .failed f => (.error f.error, stream)
  | .ended stop => (.ok (.endAt stop), stream)
  | .running place =>
    match stream.scanner.next place with
    | .error f => (.error f.error, { stream with state := .failed f })
    | .ok (x, after) =>
      let state := if x.token = .endOfText then .ended after.pos else .running after
      (.ok x, { stream with state })

def next? (stream : Stream) : Option (Except Error Lexeme) × Stream :=
  if stream.isDone then (none, stream)
  else
    let (x, stream) := stream.pull
    (some x, stream)

/-- Drops at most `n` lexemes, an error included, and counts them. -/
def skip (stream : Stream) : Nat → Nat × Stream
  | 0 => (0, stream)
  | n + 1 =>
    match stream.next? with
    | (none, stream) => (0, stream)
    | (some _, stream) =>
      let (count, stream) := stream.skip n
      (count + 1, stream)

/-- Looks at `n` lexemes ahead, fewer if the text ends before. A stream that has ended shows its end
whatever the number. -/
def peek (stream : Stream) (n : Nat) : Except Error Peek :=
  match stream.state with
  | .failed f => .error f.error
  | .ended stop => .ok (.reachedEnd [.endAt stop])
  | .running place => stream.scanner.peek place n

end Stream

end LexDef

import LexDef.Scanner.Token
/-!
# Runs

A run is all that a scanner reads from a text: its lexemes in order, and how it ends, either with
the lexeme for the end of the text or with a failure. It ends because each lexeme takes at least
one character.
-/

namespace LexDef

structure Run where
  lexemes : List Lexeme
  /-- The last lexeme and the place after it, or the failure. -/
  final : Except Failure (Lexeme × Place)

namespace Scanner

def runFrom (scanner : Scanner) (place : Place) : Run :=
  match h : scanner.next place with
  | .error f => { lexemes := [], final := .error f }
  | .ok (x, after) =>
    if hx : x.token = .endOfText then { lexemes := [], final := .ok (x, after) }
    else
      have := length_lt_of_next h hx
      let run := scanner.runFrom after
      { run with lexemes := x :: run.lexemes }
termination_by place.rest.length

theorem runFrom_of_error {scanner : Scanner} {place : Place} {f : Failure}
    (h : scanner.next place = .error f) :
    scanner.runFrom place = { lexemes := [], final := .error f } := by
  rw [runFrom]
  split <;> simp_all

theorem runFrom_of_end {scanner : Scanner} {place after : Place} {x : Lexeme}
    (h : scanner.next place = .ok (x, after)) (hx : x.token = .endOfText) :
    scanner.runFrom place = { lexemes := [], final := .ok (x, after) } := by
  rw [runFrom]
  split <;> simp_all

theorem runFrom_of_ok {scanner : Scanner} {place after : Place} {x : Lexeme}
    (h : scanner.next place = .ok (x, after)) (hx : x.token ≠ .endOfText) :
    scanner.runFrom place =
      { scanner.runFrom after with lexemes := x :: (scanner.runFrom after).lexemes } := by
  rw [runFrom]
  split <;> simp_all

def run (scanner : Scanner) (text : String) : Run := scanner.runFrom (.ofString text)

/-- All lexemes of a text, the last one being its end; or the error that a failure comes from. -/
def lexemes (scanner : Scanner) (text : String) : Except Error (List Lexeme) :=
  let run := scanner.run text
  match run.final with
  | .ok (last, _) => .ok (run.lexemes ++ [last])
  | .error f => .error f.error

end Scanner

end LexDef

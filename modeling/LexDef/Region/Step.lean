import LexDef.Error
import LexDef.Literal.Character
/-!
# Steps inside a region

Inside a region a text is read in steps. A step takes at least one character, and says what it adds
to the text that the region stands for and whether it opens a region or closes this one. Each kind
of region has its own rule, `Region.step` chooses it.
-/

namespace LexDef

namespace Region

inductive Move where
  | stay
  | opens (inner : Region)
  | closes
deriving DecidableEq, Repr

structure Step where
  move : Move := .stay
  /-- What the step adds to the text of the region. -/
  text : List Char := []
  /-- How many characters it takes after the first one. -/
  more : Nat := 0
deriving DecidableEq, Repr

/-- The step at a backslash in a string, where `s` follows it: a line break is left out, three
decimal digits are a character code, a named character has its meaning, and any other backslash
stands for itself. -/
def escapeStep : List Char → Except Fault Step
  | '\n' :: _ => .ok { more := 1 }
  | '\r' :: '\n' :: _ => .ok { more := 2 }
  | d₁ :: d₂ :: d₃ :: _ =>
    if d₁.isDigit && d₂.isDigit && d₃.isDigit then
      (fun code => { text := [Char.ofNat code.toNat], more := 3 }) <$> Escape.decimal d₁ d₂ d₃
    else .ok (named d₁)
  | c :: _ => .ok (named c)
  | [] => .ok { text := ['\\'] }
where
  named (c : Char) : Step :=
    if Escape.hasMeaning c then { text := [Escape.meaning c], more := 1 } else { text := ['\\'] }

def stringStep (c : Char) (s : List Char) : Except Fault Step :=
  match c with
  | '"' => .ok { move := .closes }
  | '\\' => escapeStep s
  | c => .ok { text := [c] }

/-- The step at `c` in action code. Its text is verbatim, with the closing brace. A backslash takes
a quote or a backslash after it along, so that they do not count. -/
def codeStep (p : Position) (c : Char) (s : List Char) : Step :=
  match c, s with
  | '}', _ => { move := .closes, text := ['}'] }
  | '{', _ => { move := .opens ⟨.code, p⟩, text := ['{'] }
  | '"', _ => { move := .opens ⟨.codeString, p⟩, text := ['"'] }
  | '\\', '"' :: _ => { text := ['\\', '"'], more := 1 }
  | '\\', '\\' :: _ => { text := ['\\', '\\'], more := 1 }
  | c, _ => { text := [c] }

def codeStringStep (c : Char) (s : List Char) : Step :=
  match c, s with
  | '"', _ => { move := .closes, text := ['"'] }
  | '\\', '"' :: _ => { text := ['\\', '"'], more := 1 }
  | '\\', '\\' :: _ => { text := ['\\', '\\'], more := 1 }
  | c, _ => { text := [c] }

/-- The step at `c` in a comment, which adds no text. A character literal is passed over as a whole,
so that a quote in it opens no string. -/
def commentStep (p : Position) (c : Char) (s : List Char) : Step :=
  match c, s with
  | '*', ')' :: _ => { move := .closes, more := 1 }
  | '(', '*' :: _ => { move := .opens ⟨.comment, p⟩, more := 1 }
  | '"', _ => { move := .opens ⟨.string, p⟩ }
  | '\'', s =>
    match CharForm.ofText? ('\'' :: s) with
    | some (form, _) => { more := form.body.length + 1 }
    | none => {}
  | _, _ => {}

/-- The step inside a region at the character `c`, which is at `p` and followed by `s`. A fault is
located at `p`. -/
def step (r : Region) (p : Position) (c : Char) (s : List Char) : Except Error Step :=
  match r.kind with
  | .string => (stringStep c s).mapError fun fault => { fault, location := some p }
  | .code => .ok (codeStep p c s)
  | .codeString => .ok (codeStringStep c s)
  | .comment => .ok (commentStep p c s)

end Region

end LexDef

/-!
# Positions in a text

A `Position` counts lines and columns from one and bytes of the UTF-8 form from zero. It moves over
one character at a time, and only a line feed starts a new line, so a carriage return before it
makes no difference: `after_crlf`.
-/

namespace LexDef

structure Position where
  line : Nat := 1
  column : Nat := 1
  offset : Nat := 0
deriving DecidableEq, Repr, Inhabited

namespace Position

def right (p : Position) (c : Char) : Position :=
  { p with column := p.column + 1, offset := p.offset + c.utf8Size }

/-- The start of the next line, after a line break of `width` bytes. -/
def down (p : Position) (width : Nat) : Position :=
  { line := p.line + 1, column := 1, offset := p.offset + width }

def next (p : Position) (c : Char) : Position :=
  if c = '\n' then p.down 1 else p.right c

def after (p : Position) (s : List Char) : Position :=
  s.foldl next p

instance : ToString Position where
  toString p := "line: " ++ toString p.line ++ ", column: " ++ toString p.column

@[simp] theorem after_nil (p : Position) : p.after [] = p := rfl

@[simp] theorem after_cons (p : Position) (c : Char) (s : List Char) :
    p.after (c :: s) = (p.next c).after s := rfl

@[simp] theorem after_append (p : Position) (s t : List Char) :
    p.after (s ++ t) = (p.after s).after t :=
  List.foldl_append

theorem after_crlf (p : Position) : p.after ['\r', '\n'] = p.down 2 := rfl

end Position

end LexDef

import LexDef.Literal.Escape
import LexDef.Token.Basic
/-!
# Character literals

The seven forms of a character literal, how each is spelled, how one is recognised at the start of a
text, and the token that it denotes. What is recognised is the spelling of its form:
`eq_of_ofText?`.
-/

namespace LexDef

/-- A form of character literal, with the characters that fill it. -/
inductive CharForm where
  | plain (c : Char)
  | escaped (c : Char)
  | decimal (d₁ d₂ d₃ : Char)
  | hexByte (h₁ h₂ : Char)
  | hexUnit (digits : List Char)
  | codePoint (digits : List Char)
  | category (c₁ c₂ : Char)
deriving DecidableEq, Repr

namespace CharForm

def body : CharForm → List Char
  | plain c => [c]
  | escaped c => ['\\', c]
  | decimal d₁ d₂ d₃ => ['\\', d₁, d₂, d₃]
  | hexByte h₁ h₂ => ['\\', 'x', h₁, h₂]
  | hexUnit digits => '\\' :: 'u' :: digits
  | codePoint digits => '\\' :: 'U' :: digits
  | category c₁ c₂ => ['\\', c₁, c₂]

def spelling (f : CharForm) : List Char :=
  '\'' :: (f.body ++ ['\''])

/-- Whether `c` breaks a line, so that no literal may hold it. -/
def isLineBreak (c : Char) : Bool := c = '\n' || c = '\r'

/-- The first `n` characters, if all satisfy `p` and the closing quote follows; and what is left. -/
def closedRun? (p : Char → Bool) (n : Nat) (s : List Char) : Option (List Char × List Char) :=
  match s.drop n with
  | '\'' :: rest => if (s.take n).all p then some (s.take n, rest) else none
  | _ => none

def codePoint? : List Char → Option (CharForm × List Char)
  | 'U' :: s => (closedRun? Hex.isDigit 8 s).map fun (digits, rest) => (codePoint digits, rest)
  | _ => none

def hexUnit? : List Char → Option (CharForm × List Char)
  | 'u' :: s => (closedRun? Hex.isDigit 4 s).map fun (digits, rest) => (hexUnit digits, rest)
  | _ => none

def hexByte? : List Char → Option (CharForm × List Char)
  | 'x' :: h₁ :: h₂ :: '\'' :: rest =>
    if Hex.isDigit h₁ && Hex.isDigit h₂ then some (hexByte h₁ h₂, rest) else none
  | _ => none

def decimal? : List Char → Option (CharForm × List Char)
  | d₁ :: d₂ :: d₃ :: '\'' :: rest =>
    if d₁.isDigit && d₂.isDigit && d₃.isDigit then some (decimal d₁ d₂ d₃, rest) else none
  | _ => none

def category? : List Char → Option (CharForm × List Char)
  | c₁ :: c₂ :: '\'' :: rest =>
    if c₁.isUpper && c₂.isLower then some (category c₁ c₂, rest) else none
  | _ => none

def escaped? : List Char → Option (CharForm × List Char)
  | c :: '\'' :: rest => if isLineBreak c then none else some (escaped c, rest)
  | _ => none

def plain? : List Char → Option (CharForm × List Char)
  | c :: '\'' :: rest => if isLineBreak c then none else some (plain c, rest)
  | _ => none

/-- The form at the start of a text that begins with the opening quote, and the text after its
closing quote. A backslash always opens an escape, so a plain character is never one. -/
def ofText? : List Char → Option (CharForm × List Char)
  | '\'' :: '\\' :: s =>
    codePoint? s <|> hexUnit? s <|> hexByte? s <|> decimal? s <|> category? s <|> escaped? s
  | '\'' :: s => plain? s
  | _ => none

def token (p : Position) : CharForm → Except Fault Token
  | plain c => ofChar c
  | escaped c => ofChar (Escape.meaning c)
  | decimal d₁ d₂ d₃ => .char <$> Escape.decimal d₁ d₂ d₃
  | hexByte h₁ h₂ => .char <$> Escape.hexByte h₁ h₂
  | hexUnit digits => .char <$> Escape.hexUnit digits
  | codePoint digits => do
    match ← Escape.codePoint digits with
    | .single unit => return .char unit
    | .pair _ _ => throw (.surrogatePair p)
  | category c₁ c₂ => .ok (.category (String.ofList [c₁, c₂]))
where
  ofChar (c : Char) : Except Fault Token :=
    match Escape.unit? c with
    | some unit => .ok (.char unit)
    | none => .error (.surrogatePair p)

theorem eq_of_closedRun? {p : Char → Bool} {n : Nat} {s t rest : List Char}
    (h : closedRun? p n s = some (t, rest)) : s = t ++ '\'' :: rest := by
  unfold closedRun? at h
  split at h
  · rename_i hd
    split at h
    · simp only [Option.some.injEq, Prod.mk.injEq] at h
      obtain ⟨rfl, rfl⟩ := h
      rw [← hd, List.take_append_drop]
    · simp at h
  · simp at h

theorem eq_of_codePoint? {s rest : List Char} {f : CharForm} (h : codePoint? s = some (f, rest)) :
    '\\' :: s = f.body ++ '\'' :: rest := by
  unfold codePoint? at h
  split at h
  · obtain ⟨⟨digits, r⟩, hr, he⟩ := Option.map_eq_some_iff.1 h
    cases he
    simp [body, eq_of_closedRun? hr]
  · simp at h

theorem eq_of_hexUnit? {s rest : List Char} {f : CharForm} (h : hexUnit? s = some (f, rest)) :
    '\\' :: s = f.body ++ '\'' :: rest := by
  unfold hexUnit? at h
  split at h
  · obtain ⟨⟨digits, r⟩, hr, he⟩ := Option.map_eq_some_iff.1 h
    cases he
    simp [body, eq_of_closedRun? hr]
  · simp at h

theorem eq_of_ofText? {s rest : List Char} {f : CharForm} (h : ofText? s = some (f, rest)) :
    s = f.spelling ++ rest := by
  unfold ofText? at h
  split at h
  · simp only [Option.orElse_eq_orElse, Option.orElse_eq_or, Option.or_eq_some_iff] at h
    rcases h with (h | ⟨-, h | ⟨-, h | ⟨-, h | ⟨-, h | ⟨-, h⟩⟩⟩⟩⟩)
    · simp [spelling, eq_of_codePoint? h]
    · simp [spelling, eq_of_hexUnit? h]
    · unfold hexByte? at h; grind [spelling, body]
    · unfold decimal? at h; grind [spelling, body]
    · unfold category? at h; grind [spelling, body]
    · unfold escaped? at h; grind [spelling, body]
  · unfold plain? at h; grind [spelling, body]
  · simp at h

end CharForm

end LexDef

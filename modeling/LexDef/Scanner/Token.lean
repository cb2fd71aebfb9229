import LexDef.Lexeme
import LexDef.Scanner.Gap
/-!
# Reading one token

The first character decides what kind of token stands at a place where no gap starts. Every token
but the end of the text takes at least one character: `length_lt_of_next`.
-/

namespace LexDef.Scanner

/-- The character literal or category at `p`, whose opening quote is followed by `s`. A fault is
located at the quote, and reading stops after the literal. -/
def characterToken (p : Position) (s : List Char) : Except Failure (Token × Place) :=
  match CharForm.ofText? ('\'' :: s) with
  | none => .error { error := { fault := .unexpected '\'' p }, stop := p }
  | some (form, rest) =>
    let stop := p.after form.spelling
    match form.token p with
    | .ok token => .ok (token, ⟨stop, rest⟩)
    | .error fault => .error { error := { fault, location := some p }, stop }

def stringToken (scanner : Scanner) (p : Position) (s : List Char) :
    Except Failure (Token × Place) :=
  match Region.read scanner.maxNesting [⟨.string, p⟩] (p.next '"') s with
  | .ok (text, place) => .ok (.string (String.ofList text), place)
  | .error f => .error f

/-- The action code at `p`, whose opening brace is followed by `s`. Code that the text ends in may
count as the end of the text. -/
def codeToken (scanner : Scanner) (p : Position) (s : List Char) : Except Failure (Token × Place) :=
  match Region.read scanner.maxNesting [⟨.code, p⟩] (p.next '{') s with
  | .ok (text, place) => .ok (.code (String.ofList text.dropLast), place)
  | .error f =>
    match scanner.unclosedCode, f.error.fault with
    | .dropped, .unterminated ⟨.code, _⟩ => .ok (.endOfText, ⟨f.stop, []⟩)
    | _, _ => .error f

def wordToken (p : Position) (s : List Char) : Token × Place :=
  (.ofWord (String.ofList (s.takeWhile isWordChar)),
    ⟨p.after (s.takeWhile isWordChar), s.dropWhile isWordChar⟩)

def token (scanner : Scanner) (p : Position) (s : List Char) : Except Failure (Token × Place) :=
  match s with
  | [] => .ok (.endOfText, ⟨p, []⟩)
  | '\'' :: s => characterToken p s
  | '"' :: s => scanner.stringToken p s
  | '{' :: s => scanner.codeToken p s
  | c :: s =>
    if isWordStart c then .ok (wordToken p (c :: s))
    else
      match Token.symbol? c with
      | some token => .ok (token, ⟨p.next c, s⟩)
      | none => .error { error := { fault := .unexpected c p }, stop := p }

def next (scanner : Scanner) (place : Place) : Except Failure (Lexeme × Place) :=
  match scanner.skipGap place.pos place.rest with
  | .error f => .error f
  | .ok gap =>
    match scanner.token gap.pos gap.rest with
    | .error f => .error f
    | .ok (token, after) => .ok ({ token, start := gap.pos, stop := after.pos }, after)

theorem isWordChar_of_isWordStart {c : Char} (h : isWordStart c) : isWordChar c := by
  simp only [isWordStart, isWordChar, Char.isAlphanum, Bool.or_eq_true] at *
  rcases h with h | h <;> simp [h]

theorem length_lt_of_token {scanner : Scanner} {p : Position} {s : List Char} {t : Token}
    {place : Place} (h : scanner.token p s = .ok (t, place)) (ht : t ≠ .endOfText) :
    place.rest.length < s.length := by
  unfold token at h
  split at h
  · cases h; contradiction
  · unfold characterToken at h
    split at h
    · cases h
    · rename_i form rest hform
      split at h
      · cases h
        simp [CharForm.eq_of_ofText? hform, CharForm.spelling]
        omega
      · cases h
  · unfold stringToken at h
    split at h
    · rename_i hread
      cases h
      exact Nat.lt_succ_of_le (Region.reaches_of_read hread).length_le
    · cases h
  · unfold codeToken at h
    split at h
    · rename_i hread
      cases h
      exact Nat.lt_succ_of_le (Region.reaches_of_read hread).length_le
    · split at h
      · cases h; contradiction
      · cases h
  · rename_i c s _ _ _
    split at h
    · rename_i hc
      cases h
      have := (s.dropWhile_suffix isWordChar).length_le
      simp [isWordChar_of_isWordStart hc]
      omega
    · split at h
      · cases h; simp
      · cases h

theorem length_lt_of_next {scanner : Scanner} {place after : Place} {x : Lexeme}
    (h : scanner.next place = .ok (x, after)) (hx : x.token ≠ .endOfText) :
    after.rest.length < place.rest.length := by
  unfold next at h
  split at h
  · cases h
  · rename_i gap hgap
    split at h
    · cases h
    · rename_i htoken
      cases h
      exact Nat.lt_of_lt_of_le (length_lt_of_token htoken hx) (reaches_of_skipGap hgap).length_le

end LexDef.Scanner

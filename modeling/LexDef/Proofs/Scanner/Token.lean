import LexDef.Proofs.Literal
import LexDef.Proofs.Scanner.Gap
import LexDef.Scanner.Token
/-!
# What reading one token does

The readers of tokens by their outcomes: a lexeme is a token behind a gap, and action code ends in
one of three ways.
-/

namespace LexDef.Scanner

/-- Whether reading a lexeme where `s` is left at `p` has this result, at once and from everywhere
that a gap leads there from. -/
def Gives (scanner : Scanner) (p : Position) (s : List Char)
    (result : Except Failure (Lexeme × Place)) : Prop :=
  ∀ place : Place, place = ⟨p, s⟩ ∨ scanner.skipGap place.pos place.rest = .ok ⟨p, s⟩ →
    scanner.next place = result

variable {scanner : Scanner} {place gap : Place} {p : Position} {s text : List Char} {f : Failure}

theorem next_of_gap_error (h : scanner.skipGap place.pos place.rest = .error f) :
    scanner.next place = .error f := by
  rw [next, h]

theorem next_of_token_error (hgap : scanner.skipGap place.pos place.rest = .ok gap)
    (h : scanner.token gap.pos gap.rest = .error f) : scanner.next place = .error f := by
  rw [next, hgap]
  simp only [h]

theorem next_of_token {t : Token} {after : Place}
    (hgap : scanner.skipGap place.pos place.rest = .ok gap)
    (h : scanner.token gap.pos gap.rest = .ok (t, after)) :
    scanner.next place = .ok ({ token := t, start := gap.pos, stop := after.pos }, after) := by
  rw [next, hgap]
  simp only [h]

theorem Gives.of_skipGap {result : Except Failure (Lexeme × Place)} (hs : startsGap s = false)
    (h : ∀ place : Place, scanner.skipGap place.pos place.rest = .ok ⟨p, s⟩ →
      scanner.next place = result) : scanner.Gives p s result := by
  rintro place (rfl | hgap)
  · exact h _ (skipGap_of_not_startsGap scanner p hs)
  · exact h place hgap

theorem gives_of_token {t : Token} {after : Place} (hs : startsGap s = false)
    (h : scanner.token p s = .ok (t, after)) :
    scanner.Gives p s (.ok ({ token := t, start := p, stop := after.pos }, after)) :=
  .of_skipGap hs fun _ hgap => next_of_token hgap h

theorem gives_of_token_error (hs : startsGap s = false) (h : scanner.token p s = .error f) :
    scanner.Gives p s (.error f) :=
  .of_skipGap hs fun _ hgap => next_of_token_error hgap h

theorem next_eq_bind (scanner : Scanner) (place : Place) :
    scanner.next place = (scanner.skipGap place.pos place.rest).bind fun gap =>
      (scanner.token gap.pos gap.rest).map fun result =>
        ({ token := result.1, start := gap.pos, stop := result.2.pos }, result.2) := by
  cases hgap : scanner.skipGap place.pos place.rest with
  | error f => exact next_of_gap_error hgap
  | ok gap =>
      simp only [Except.bind]
      cases htoken : scanner.token gap.pos gap.rest with
      | error f => exact next_of_token_error hgap htoken
      | ok result => exact next_of_token hgap htoken

theorem next_of_skipGap {a b : Place}
    (h : scanner.skipGap a.pos a.rest = scanner.skipGap b.pos b.rest) :
    scanner.next a = scanner.next b := by
  rw [next_eq_bind, next_eq_bind, h]

theorem exists_of_next {x : Lexeme} {after : Place} (h : scanner.next place = .ok (x, after)) :
    ∃ gap, scanner.skipGap place.pos place.rest = .ok gap ∧
      scanner.token gap.pos gap.rest = .ok (x.token, after) ∧
      x = { token := x.token, start := gap.pos, stop := after.pos } := by
  cases hgap : scanner.skipGap place.pos place.rest with
  | error f => simp [next_of_gap_error hgap] at h
  | ok gap =>
      cases htoken : scanner.token gap.pos gap.rest with
      | error f => simp [next_of_token_error hgap htoken] at h
      | ok result =>
          rw [next_of_token hgap htoken] at h
          cases h
          exact ⟨gap, rfl, htoken, rfl⟩

theorem cases_of_next_error (h : scanner.next place = .error f) :
    scanner.skipGap place.pos place.rest = .error f ∨
    ∃ gap, scanner.skipGap place.pos place.rest = .ok gap ∧
      scanner.token gap.pos gap.rest = .error f := by
  cases hgap : scanner.skipGap place.pos place.rest with
  | error g =>
      rw [next_of_gap_error hgap] at h
      exact .inl (congrArg Except.error (Except.error.inj h))
  | ok gap =>
      cases htoken : scanner.token gap.pos gap.rest with
      | error g =>
          rw [next_of_token_error hgap htoken] at h
          exact .inr ⟨gap, rfl, htoken.trans (congrArg Except.error (Except.error.inj h))⟩
      | ok result => simp [next_of_token hgap htoken] at h

theorem codeToken_of_read {after : Place}
    (h : Region.read scanner.maxNesting [⟨.code, p⟩] (p.next '{') s = .ok (text, after)) :
    scanner.codeToken p s = .ok (.code (String.ofList text.dropLast), after) := by
  rw [codeToken, h]

theorem codeToken_of_unclosed {q : Position}
    (h : Region.read scanner.maxNesting [⟨.code, p⟩] (p.next '{') s = .error f)
    (hfault : f.error.fault = .unterminated ⟨.code, q⟩) :
    scanner.codeToken p s =
      match scanner.unclosedCode with
      | .refused => .error f
      | .dropped => .ok (.endOfText, ⟨f.stop, []⟩) := by
  rw [codeToken, h]
  simp only [hfault]
  cases scanner.unclosedCode <;> rfl

theorem codeToken_of_other
    (h : Region.read scanner.maxNesting [⟨.code, p⟩] (p.next '{') s = .error f)
    (hfault : ∀ q, f.error.fault ≠ .unterminated ⟨.code, q⟩) :
    scanner.codeToken p s = .error f := by
  rw [codeToken, h]
  simp only
  split
  · rename_i hf
    exact absurd hf (hfault _)
  · rfl

theorem codeToken_of_refused
    (h : Region.read scanner.maxNesting [⟨.code, p⟩] (p.next '{') s = .error f)
    (hset : scanner.unclosedCode = .refused) : scanner.codeToken p s = .error f := by
  rw [codeToken, h]
  simp only [hset]

theorem stringToken_of_read {after : Place}
    (h : Region.read scanner.maxNesting [⟨.string, p⟩] (p.next '"') s = .ok (text, after)) :
    scanner.stringToken p s = .ok (.string (String.ofList text), after) := by
  rw [stringToken, h]

theorem stringToken_of_error
    (h : Region.read scanner.maxNesting [⟨.string, p⟩] (p.next '"') s = .error f) :
    scanner.stringToken p s = .error f := by
  rw [stringToken, h]

theorem stringToken_eq_map (scanner : Scanner) (p : Position) (s : List Char) :
    scanner.stringToken p s =
      (Region.read scanner.maxNesting [⟨.string, p⟩] (p.next '"') s).map fun result =>
        (.string (String.ofList result.1), result.2) := by
  cases h : Region.read scanner.maxNesting [⟨.string, p⟩] (p.next '"') s with
  | error f => exact stringToken_of_error h
  | ok result => exact stringToken_of_read h

theorem exists_of_stringToken {t : Token} {after : Place}
    (h : scanner.stringToken p s = .ok (t, after)) :
    ∃ text, Region.read scanner.maxNesting [⟨.string, p⟩] (p.next '"') s = .ok (text, after) := by
  unfold stringToken at h
  split at h
  · cases h
    exact ⟨_, ‹_›⟩
  · cases h

theorem read_of_stringToken_error (h : scanner.stringToken p s = .error f) :
    Region.read scanner.maxNesting [⟨.string, p⟩] (p.next '"') s = .error f := by
  unfold stringToken at h
  split at h
  · cases h
  · cases h
    exact ‹_›

theorem characterToken_of_form {f : CharForm} {t : Token} {rest : List Char}
    (h : CharForm.ofText? ('\'' :: s) = some (f, rest)) (ht : f.token p = .ok t) :
    characterToken p s = .ok (t, ⟨p.after f.spelling, rest⟩) := by
  rw [characterToken, h]
  simp only [ht]

theorem token_of_wordStart (scanner : Scanner) (p : Position) (s : List Char) {c : Char}
    (hc : isWordStart c) : scanner.token p (c :: s) = .ok (wordToken p (c :: s)) := by
  unfold token
  split
  · contradiction
  · simp_all [isWordStart]
  · simp_all [isWordStart]
  · simp_all [isWordStart]
  · simp_all

theorem token_of_symbol (scanner : Scanner) (p : Position) (s : List Char) {c : Char} {t : Token}
    (hc : isWordStart c = false) (ht : Token.symbol? c = some t) :
    scanner.token p (c :: s) = .ok (t, ⟨p.next c, s⟩) := by
  unfold token
  split
  · contradiction
  · simp_all [Token.symbol?]
  · simp_all [Token.symbol?]
  · simp_all [Token.symbol?]
  · simp_all

theorem token_of_unknown (scanner : Scanner) (p : Position) (s : List Char) {c : Char}
    (hquote : c ≠ '\'') (hopen : c ≠ '"' ∧ c ≠ '{') (hc : isWordStart c = false)
    (ht : Token.symbol? c = none) :
    scanner.token p (c :: s) = .error { error := { fault := .unexpected c p }, stop := p } := by
  unfold token
  split
  · contradiction
  · simp_all
  · simp_all
  · simp_all
  · simp_all

/-- Only for strings and action code does it matter which scanner reads. -/
theorem token_congr (scanner scanner' : Scanner) (p : Position) (hstring : ∀ u, s ≠ '"' :: u)
    (hcode : ∀ u, s ≠ '{' :: u) : scanner.token p s = scanner'.token p s := by
  unfold token
  split
  · rfl
  · rfl
  · exact absurd rfl (hstring _)
  · exact absurd rfl (hcode _)
  · rfl

inductive Takes (scanner : Scanner) (p : Position) : List Char → Token → Place → Prop where
  | ended : Takes scanner p [] .endOfText ⟨p, []⟩
  | character {s rest : List Char} {f : CharForm} {t : Token}
      (hform : CharForm.ofText? ('\'' :: s) = some (f, rest)) (ht : f.token p = .ok t) :
      Takes scanner p ('\'' :: s) t ⟨p.after f.spelling, rest⟩
  | string {s text : List Char} {after : Place}
      (hread : Region.read scanner.maxNesting [⟨.string, p⟩] (p.next '"') s = .ok (text, after)) :
      Takes scanner p ('"' :: s) (.string (String.ofList text)) after
  | code {s text : List Char} {after : Place}
      (hread : Region.read scanner.maxNesting [⟨.code, p⟩] (p.next '{') s = .ok (text, after)) :
      Takes scanner p ('{' :: s) (.code (String.ofList text.dropLast)) after
  | dropped {s : List Char} {f : Failure} {q : Position}
      (hread : Region.read scanner.maxNesting [⟨.code, p⟩] (p.next '{') s = .error f)
      (hfault : f.error.fault = .unterminated ⟨.code, q⟩) (hset : scanner.unclosedCode = .dropped) :
      Takes scanner p ('{' :: s) .endOfText ⟨f.stop, []⟩
  | word {c : Char} {s : List Char} (hc : isWordStart c) :
      Takes scanner p (c :: s) (wordToken p (c :: s)).1 (wordToken p (c :: s)).2
  | symbol {c : Char} {s : List Char} {t : Token} (hc : isWordStart c = false)
      (ht : Token.symbol? c = some t) : Takes scanner p (c :: s) t ⟨p.next c, s⟩

inductive Rejects (scanner : Scanner) (p : Position) : List Char → Failure → Prop where
  | unknown {c : Char} {s : List Char} (hform : CharForm.ofText? (c :: s) = none)
      (hopen : c ≠ '"' ∧ c ≠ '{') (hc : isWordStart c = false) (ht : Token.symbol? c = none) :
      Rejects scanner p (c :: s) { error := { fault := .unexpected c p }, stop := p }
  | character {s rest : List Char} {f : CharForm} {fault : Fault}
      (hform : CharForm.ofText? ('\'' :: s) = some (f, rest)) (ht : f.token p = .error fault) :
      Rejects scanner p ('\'' :: s)
        { error := { fault, location := some p }, stop := p.after f.spelling }
  | string {s : List Char} {f : Failure}
      (hread : Region.read scanner.maxNesting [⟨.string, p⟩] (p.next '"') s = .error f) :
      Rejects scanner p ('"' :: s) f
  | code {s : List Char} {f : Failure}
      (hread : Region.read scanner.maxNesting [⟨.code, p⟩] (p.next '{') s = .error f) :
      Rejects scanner p ('{' :: s) f

theorem takes_of_token {t : Token} {after : Place} (h : scanner.token p s = .ok (t, after)) :
    Takes scanner p s t after := by
  unfold token at h
  split at h
  · cases h
    exact .ended
  · unfold characterToken at h
    split at h
    · cases h
    · split at h
      · cases h
        exact .character ‹_› ‹_›
      · cases h
  · unfold stringToken at h
    split at h
    · cases h
      exact .string ‹_›
    · cases h
  · unfold codeToken at h
    split at h
    · cases h
      exact .code ‹_›
    · split at h
      · cases h
        exact .dropped ‹_› ‹_› ‹_›
      · cases h
  · split at h
    · cases h
      exact .word ‹_›
    · split at h
      · rename_i hc _ _ ht
        cases h
        exact .symbol (Bool.eq_false_iff.2 hc) ht
      · cases h

theorem ofText?_of_ne {c : Char} (hc : c ≠ '\'') (s : List Char) :
    CharForm.ofText? (c :: s) = none := by
  rw [Option.eq_none_iff_forall_not_mem]
  rintro ⟨f, rest⟩ h
  exact hc (List.cons.inj (CharForm.eq_of_ofText? h)).1

theorem rejects_of_token (h : scanner.token p s = .error f) : Rejects scanner p s f := by
  unfold token at h
  split at h
  · cases h
  · unfold characterToken at h
    split at h
    · rename_i hform
      cases h
      exact .unknown hform (by decide) rfl rfl
    · split at h
      · cases h
      · cases h
        exact .character ‹_› ‹_›
  · unfold stringToken at h
    split at h
    · cases h
    · cases h
      exact .string ‹_›
  · unfold codeToken at h
    split at h
    · cases h
    · split at h
      · cases h
      · cases h
        exact .code ‹_›
  · rename_i c s hquote hstring hcode
    split at h
    · cases h
    · rename_i hc
      split at h
      · cases h
      · rename_i hsymbol
        cases h
        have hform := ofText?_of_ne (fun hq => hquote (hq ▸ rfl)) s
        exact .unknown hform ⟨fun hq => hstring (hq ▸ rfl), fun hq => hcode (hq ▸ rfl)⟩
          (Bool.eq_false_iff.2 hc) hsymbol

theorem ofWord_ne_end (word : String) : Token.ofWord word ≠ .endOfText := by
  unfold Token.ofWord Token.reserved?
  grind

theorem symbol?_ne_end {c : Char} {t : Token} (h : Token.symbol? c = some t) : t ≠ .endOfText := by
  unfold Token.symbol? at h
  grind

/-- The text ends where nothing is left, or with code that is dropped. -/
theorem end_cases {t : Token} {after : Place} (h : scanner.token p s = .ok (t, after))
    (ht : t = .endOfText) : after.rest = [] ∧ (s = [] ∨ scanner.unclosedCode = .dropped) := by
  cases takes_of_token h with
  | ended => exact ⟨rfl, .inl rfl⟩
  | dropped hread hfault hset => exact ⟨rfl, .inr hset⟩
  | character hform htoken => exact absurd ht (CharForm.token_ne_end htoken)
  | string | code => cases ht
  | word hc => exact absurd ht (ofWord_ne_end _)
  | symbol hc hsymbol => exact absurd ht (symbol?_ne_end hsymbol)

theorem rest_of_next_end {x : Lexeme} {after : Place} (h : scanner.next place = .ok (x, after))
    (hx : x.token = .endOfText) : after.rest = [] := by
  obtain ⟨gap, -, htoken, -⟩ := exists_of_next h
  exact (end_cases htoken hx).1

theorem exists_of_token {t : Token} {after : Place} (h : scanner.token p s = .ok (t, after))
    (ht : t ≠ .endOfText) :
    ∃ piece, piece ≠ [] ∧ s = piece ++ after.rest ∧ after.pos = p.after piece := by
  cases takes_of_token h with
  | ended => contradiction
  | @character s rest f t hform htoken =>
      exact ⟨f.spelling, List.cons_ne_nil _ _, CharForm.eq_of_ofText? hform, rfl⟩
  | @string s text after hread =>
      obtain ⟨body, rfl, hpos⟩ := Region.reaches_of_read hread
      exact ⟨'"' :: body, List.cons_ne_nil _ _, rfl, hpos⟩
  | @code s text after hread =>
      obtain ⟨body, rfl, hpos⟩ := Region.reaches_of_read hread
      exact ⟨'{' :: body, List.cons_ne_nil _ _, rfl, hpos⟩
  | dropped => contradiction
  | @word c s hc =>
      refine ⟨(c :: s).takeWhile isWordChar, ?_, List.takeWhile_append_dropWhile.symm, rfl⟩
      rw [List.takeWhile_cons_of_pos (isWordChar_of_isWordStart hc)]
      exact List.cons_ne_nil _ _
  | @symbol c s t hc hsymbol => exact ⟨[c], List.cons_ne_nil _ _, rfl, rfl⟩

end LexDef.Scanner

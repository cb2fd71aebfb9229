import LexDef.Proofs.Region.Locality
import LexDef.Proofs.Scanner.Token
/-!
# Recognising character literals

The seven forms written out as a grammar. What is recognised at an apostrophe is what the grammar
says, whichever form is tried first, and both token mode and comment mode pass over exactly that:
`CharForm.recognition`.
-/

namespace LexDef

namespace CharForm

def IsDecimalDigit (c : Char) : Prop := '0' ≤ c ∧ c ≤ '9'

def IsHexDigit (c : Char) : Prop :=
  ('0' ≤ c ∧ c ≤ '9') ∨ ('a' ≤ c ∧ c ≤ 'f') ∨ ('A' ≤ c ∧ c ≤ 'F')

inductive Written : CharForm → List Char → Prop
  | plain {c : Char} (line : c ≠ '\n' ∧ c ≠ '\r') (not_escape : c ≠ '\\') :
    Written (plain c) ['\'', c, '\'']
  | escaped {c : Char} (line : c ≠ '\n' ∧ c ≠ '\r') : Written (escaped c) ['\'', '\\', c, '\'']
  | decimal {d₁ d₂ d₃ : Char} (digits : ∀ d ∈ [d₁, d₂, d₃], IsDecimalDigit d) :
    Written (decimal d₁ d₂ d₃) ['\'', '\\', d₁, d₂, d₃, '\'']
  | hexByte {h₁ h₂ : Char} (digits : ∀ h ∈ [h₁, h₂], IsHexDigit h) :
    Written (hexByte h₁ h₂) ['\'', '\\', 'x', h₁, h₂, '\'']
  | hexUnit {digits : List Char} (four : digits.length = 4) (hex : ∀ h ∈ digits, IsHexDigit h) :
    Written (hexUnit digits) (['\'', '\\', 'u'] ++ digits ++ ['\''])
  | codePoint {digits : List Char} (eight : digits.length = 8) (hex : ∀ h ∈ digits, IsHexDigit h) :
    Written (codePoint digits) (['\'', '\\', 'U'] ++ digits ++ ['\''])
  | category {c₁ c₂ : Char} (upper : 'A' ≤ c₁ ∧ c₁ ≤ 'Z') (lower : 'a' ≤ c₂ ∧ c₂ ≤ 'z') :
    Written (category c₁ c₂) ['\'', '\\', c₁, c₂, '\'']

def Kind.length : Kind → Nat
  | plain => 3
  | escaped => 4
  | category => 5
  | decimal | hexByte => 6
  | hexUnit => 8
  | codePoint => 12

def Kind.read? (kind : Kind) : List Char → Option (CharForm × List Char)
  | '\'' :: '\\' :: s => kind.escape? s
  | '\'' :: s => if kind = plain then plain? s else none
  | _ => none

variable {f f' : CharForm} {s literal literal' rest rest' : List Char} {k : Kind}

theorem isDecimalDigit_iff (c : Char) : IsDecimalDigit c ↔ c.isDigit := by
  simp [IsDecimalDigit, Char.isDigit, Char.le_def]

theorem isHexDigit_iff (c : Char) : IsHexDigit c ↔ Hex.isDigit c := by
  unfold IsHexDigit Hex.isDigit Hex.value?
  grind

theorem isUpper_iff (c : Char) : 'A' ≤ c ∧ c ≤ 'Z' ↔ c.isUpper := by
  show 'A' ≤ c ∧ c ≤ 'Z' ↔ decide ('A' ≤ c ∧ c ≤ 'Z') = true
  rw [decide_eq_true_iff]

theorem isLower_iff (c : Char) : 'a' ≤ c ∧ c ≤ 'z' ↔ c.isLower := by
  show 'a' ≤ c ∧ c ≤ 'z' ↔ (decide ('a' ≤ c) && decide (c ≤ 'z')) = true
  rw [Bool.and_eq_true, decide_eq_true_iff, decide_eq_true_iff]

theorem isLineBreak_eq_false_iff (c : Char) : isLineBreak c = false ↔ c ≠ '\n' ∧ c ≠ '\r' := by
  simp [isLineBreak]

theorem written_iff : f.Written literal ↔ f.WellFormed ∧ literal = f.spelling := by
  constructor
  · intro h
    cases h with
    | plain line not_escape =>
        exact ⟨⟨not_escape, (isLineBreak_eq_false_iff _).2 line⟩, rfl⟩
    | escaped line => exact ⟨(isLineBreak_eq_false_iff _).2 line, rfl⟩
    | decimal digits => exact ⟨by simpa [WellFormed, isDecimalDigit_iff] using digits, rfl⟩
    | hexByte digits => exact ⟨by simpa [WellFormed, isHexDigit_iff] using digits, rfl⟩
    | hexUnit four hex => exact ⟨⟨four, by simpa [isHexDigit_iff] using hex⟩, rfl⟩
    | codePoint eight hex => exact ⟨⟨eight, by simpa [isHexDigit_iff] using hex⟩, rfl⟩
    | category upper lower => exact ⟨⟨(isUpper_iff _).1 upper, (isLower_iff _).1 lower⟩, rfl⟩
  · rintro ⟨hf, rfl⟩
    cases f with
    | plain c => exact .plain ((isLineBreak_eq_false_iff c).1 hf.2) hf.1
    | escaped c => exact .escaped ((isLineBreak_eq_false_iff c).1 hf)
    | decimal d₁ d₂ d₃ => exact .decimal (by simpa [WellFormed, isDecimalDigit_iff] using hf)
    | hexByte h₁ h₂ => exact .hexByte (by simpa [WellFormed, isHexDigit_iff] using hf)
    | hexUnit digits => exact .hexUnit hf.1 (by simpa [isHexDigit_iff] using hf.2)
    | codePoint digits => exact .codePoint hf.1 (by simpa [isHexDigit_iff] using hf.2)
    | category c₁ c₂ => exact .category ((isUpper_iff c₁).2 hf.1) ((isLower_iff c₂).2 hf.2)

theorem of_read? (h : k.read? s = some (f, rest)) :
    f.kind = k ∧ f.WellFormed ∧ s = f.spelling ++ rest := by
  unfold Kind.read? at h
  split at h
  · obtain ⟨hkind, hf, hs⟩ := of_escape? h
    exact ⟨hkind, hf, by simp [spelling, hs]⟩
  · rename_i not_escape
    split at h
    · rename_i hk
      obtain ⟨hkind, hf, hs⟩ := of_plain? h not_escape
      exact ⟨hkind.trans hk.symm, hf, by simp [spelling, hs]⟩
    · cases h
  · cases h

theorem read?_spelling (h : f.WellFormed) (rest : List Char) :
    f.kind.read? (f.spelling ++ rest) = some (f, rest) := by
  cases f with
  | plain c =>
      show Kind.plain.read? ('\'' :: c :: '\'' :: rest) = _
      unfold Kind.read?
      grind [plain?, WellFormed]
  | hexUnit digits | codePoint digits =>
      simp only [spelling, body, List.cons_append, List.append_assoc, List.nil_append]
      exact escape?_of_body h rfl rest
  | _ => exact escape?_of_body h rfl rest

theorem read?_eq_some_iff :
    k.read? s = some (f, rest) ↔ f.kind = k ∧ f.WellFormed ∧ s = f.spelling ++ rest := by
  constructor
  · exact of_read?
  · rintro ⟨rfl, hf, rfl⟩
    exact read?_spelling hf rest

theorem findSome?_read? {kinds : List Kind} (hkinds : ∀ k, k ∈ kinds) (s : List Char) :
    kinds.findSome? (·.read? s) = ofText? s := by
  have hsound : ∀ result, kinds.findSome? (·.read? s) = some result → ofText? s = some result := by
    rintro ⟨f, rest⟩ h
    obtain ⟨k, -, hk⟩ := List.exists_of_findSome?_eq_some h
    exact ofText?_eq_some_iff.2 (read?_eq_some_iff.1 hk).2
  cases hfound : kinds.findSome? (·.read? s) with
  | some result => exact (hsound result hfound).symm
  | none =>
      rw [List.findSome?_eq_none_iff] at hfound
      symm
      rw [Option.eq_none_iff_forall_ne_some]
      rintro ⟨f, rest⟩ h
      have hread : f.kind.read? s = some (f, rest) :=
        read?_eq_some_iff.2 ⟨rfl, ofText?_eq_some_iff.1 h⟩
      rw [hfound f.kind (hkinds f.kind)] at hread
      cases hread

/-! ## What the grammar decides -/

structure StartsWith (s : List Char) (f : CharForm) (literal rest : List Char) : Prop where
  written : f.Written literal
  text_eq : s = literal ++ rest

theorem ofText?_eq_some_iff_startsWith :
    ofText? s = some (f, rest) ↔ ∃ literal, StartsWith s f literal rest := by
  rw [ofText?_eq_some_iff]
  constructor
  · rintro ⟨hf, hs⟩
    exact ⟨f.spelling, written_iff.2 ⟨hf, rfl⟩, hs⟩
  · rintro ⟨literal, hwritten, hs⟩
    obtain ⟨hf, rfl⟩ := written_iff.1 hwritten
    exact ⟨hf, hs⟩

theorem Written.length_eq (h : f.Written literal) : literal.length = f.kind.length := by
  cases h with
  | hexUnit four hex => simp [four, kind, Kind.length]
  | codePoint eight hex => simp [eight, kind, Kind.length]
  | _ => rfl

theorem Written.not_mem (h : f.Written literal) : '\n' ∉ literal ∧ '\r' ∉ literal := by
  obtain ⟨hf, rfl⟩ := written_iff.1 h
  exact hf.not_mem_spelling

namespace StartsWith

theorem ofText?_eq (h : StartsWith s f literal rest) : ofText? s = some (f, rest) :=
  ofText?_eq_some_iff_startsWith.2 ⟨literal, h⟩

theorem append (h : StartsWith s f literal rest) (later : List Char) :
    StartsWith (s ++ later) f literal (rest ++ later) :=
  ⟨h.written, by rw [h.text_eq, List.append_assoc]⟩

theorem unique (h : StartsWith s f literal rest) (h' : StartsWith s f' literal' rest') :
    f = f' ∧ literal = literal' ∧ rest = rest' := by
  have hresult : some (f, rest) = some (f', rest') := by rw [← h.ofText?_eq, h'.ofText?_eq]
  cases hresult
  exact ⟨rfl, List.append_cancel_right (h.text_eq ▸ h'.text_eq), rfl⟩

/-- How a literal is passed over in token mode: its form says whether there is a token. -/
theorem token_eq (h : StartsWith ('\'' :: s) f literal rest) (scanner : Scanner) (p : Position) :
    scanner.token p ('\'' :: s) =
      match f.token p with
      | .ok token => .ok (token, ⟨p.after literal, rest⟩)
      | .error fault =>
        .error { error := { fault, location := some p }, stop := p.after literal } := by
  obtain ⟨-, rfl⟩ := written_iff.1 h.written
  cases htoken : f.token p with
  | ok token => exact Scanner.characterToken_of_form h.ofText?_eq htoken
  | error fault =>
      show Scanner.characterToken p s = _
      rw [Scanner.characterToken, h.ofText?_eq]
      simp only [htoken]

/-- How a literal is passed over in a comment: whole. -/
theorem commentStep_eq (h : StartsWith ('\'' :: s) f literal rest) (p : Position) :
    Region.commentStep p '\'' s = { more := literal.length - 1 } := by
  obtain ⟨-, hspelling⟩ := written_iff.1 h.written
  rw [Region.commentStep_of_some p h.ofText?_eq, hspelling, spelling, List.length_cons,
    List.length_append]
  rfl

end StartsWith

theorem next_eq_unexpected_iff {scanner : Scanner} {place : Place} {p : Position}
    (hgap : scanner.skipGap place.pos place.rest = .ok ⟨p, '\'' :: s⟩) :
    scanner.next place = .error { error := { fault := .unexpected '\'' p }, stop := p } ↔
      ∀ f literal rest, ¬StartsWith ('\'' :: s) f literal rest := by
  constructor
  · intro hnext f literal rest h
    have htoken := h.token_eq scanner p
    cases hf : f.token p with
    | ok token =>
        rw [hf] at htoken
        rw [Scanner.next_of_token hgap htoken] at hnext
        cases hnext
    | error fault =>
        rw [hf] at htoken
        rw [Scanner.next_of_token_error hgap htoken] at hnext
        cases hnext
  · intro hnone
    have hform : ofText? ('\'' :: s) = none := by
      rw [Option.eq_none_iff_forall_ne_some]
      rintro ⟨f, rest⟩ hform
      obtain ⟨literal, h⟩ := ofText?_eq_some_iff_startsWith.1 hform
      exact hnone f literal rest h
    apply Scanner.next_of_token_error hgap
    show Scanner.characterToken p s = _
    rw [Scanner.characterToken, hform]

structure Recognition (p : Position) (s : List Char) : Prop where
  form_iff : ∀ (f : CharForm) (rest : List Char), ofText? ('\'' :: s) = some (f, rest) ↔
    ∃ literal, StartsWith ('\'' :: s) f literal rest
  unique : ∀ (f f' : CharForm) (literal literal' rest rest' : List Char),
    StartsWith ('\'' :: s) f literal rest → StartsWith ('\'' :: s) f' literal' rest' →
    f = f' ∧ literal = literal' ∧ rest = rest'
  any_order : ∀ kinds : List Kind, (∀ k, k ∈ kinds) →
    kinds.findSome? (·.read? ('\'' :: s)) = ofText? ('\'' :: s)
  /-- What comes behind the literal makes no difference. -/
  of_prefix : ∀ (f : CharForm) (rest : List Char), ofText? ('\'' :: s) = some (f, rest) →
    ∀ later, ofText? ('\'' :: s ++ later) = some (f, rest ++ later)
  /-- A literal has the length of its kind and stays in its line. -/
  extent : ∀ (f : CharForm) (literal rest : List Char), StartsWith ('\'' :: s) f literal rest →
    literal.length = f.kind.length ∧ '\n' ∉ literal ∧ '\r' ∉ literal
  /-- In token mode exactly the literal is passed over, also if it denotes no token. -/
  token_eq : ∀ (f : CharForm) (literal rest : List Char), StartsWith ('\'' :: s) f literal rest →
    ∀ scanner : Scanner, scanner.token p ('\'' :: s) =
      match f.token p with
      | .ok token => .ok (token, ⟨p.after literal, rest⟩)
      | .error fault => .error { error := { fault, location := some p }, stop := p.after literal }
  commentStep_eq : ∀ (f : CharForm) (literal rest : List Char),
    StartsWith ('\'' :: s) f literal rest →
    Region.commentStep p '\'' s = { more := literal.length - 1 }
  /-- In token mode the apostrophe is an unexpected character if no literal starts there. -/
  unexpected_iff : ∀ (scanner : Scanner) (place : Place),
    scanner.skipGap place.pos place.rest = .ok ⟨p, '\'' :: s⟩ →
    (scanner.next place = .error { error := { fault := .unexpected '\'' p }, stop := p } ↔
      ∀ f literal rest, ¬StartsWith ('\'' :: s) f literal rest)

/-- Recognising a character literal is what the grammar says. -/
theorem recognition (p : Position) (s : List Char) : Recognition p s where
  form_iff _ _ := ofText?_eq_some_iff_startsWith
  unique _ _ _ _ _ _ h h' := h.unique h'
  any_order _ hkinds := findSome?_read? hkinds _
  of_prefix f rest h later := by
    obtain ⟨literal, hstarts⟩ := ofText?_eq_some_iff_startsWith.1 h
    exact (hstarts.append later).ofText?_eq
  extent _ _ _ h := ⟨h.written.length_eq, h.written.not_mem⟩
  token_eq _ _ _ h scanner := h.token_eq scanner p
  commentStep_eq _ _ _ h := h.commentStep_eq p
  unexpected_iff _ _ hgap := next_eq_unexpected_iff hgap

example : ofText? ['\'', '\\', 'x', '\'', '4', '1', '\''] =
    some (escaped 'x', ['4', '1', '\'']) := by decide

end CharForm

end LexDef

import LexDef.Proofs.Escape.CodePoint
import LexDef.Proofs.Literal.Recognition
import LexDef.Proofs.StringLiteral
/-!
# All spellings of a character agree

A character literal spells a number, by digits or by a character, and only the number decides which
code unit the literal denotes or why it is refused. The escapes that string literals share with
character literals have the same code in both: `CharForm.spellings_agree`.
-/

namespace LexDef

/-! ## Escapes in string literals -/

namespace StringLiteral

variable {c d d₁ d₂ d₃ : Char} {s : List Char} {n : Nat}

theorem number_of_writes (h : Escape.Writes d₁ d₂ d₃ n) : number [d₁, d₂, d₃] = n := by
  obtain ⟨-, -, -, hn⟩ := h
  simp only [number, List.foldl_cons, List.foldl_nil]
  omega

theorem decimal_of_writes (h : Escape.Writes d₁ d₂ d₃ n) :
    Escape.decimal d₁ d₂ d₃ = if n ≤ 255 then .ok n.toUInt16 else .error (.codeTooLarge n) := by
  rw [decimal_eq h.1 h.2.1 h.2.2.1, number_of_writes h]

theorem escape_of_writes (h : Escape.Writes d₁ d₂ d₃ n) (s : List Char) :
    escape (d₁ :: d₂ :: d₃ :: s) = if n ≤ 255 then .ok ([Char.ofNat n], 3) else .error n := by
  have hnumber := number_of_writes h
  obtain ⟨h₁, h₂, h₃, -⟩ := h
  have hline := ne_of_isDigit h₁
  have hdigits : 3 ≤ (d₁ :: d₂ :: d₃ :: s).length ∧ [d₁, d₂, d₃].all Char.isDigit := by
    simp [h₁, h₂, h₃]
  rw [escape_of_not_lineBreak hline.1.symm fun _ hcr => absurd hcr.symm hline.2]
  exact (if_pos hdigits).trans (by rw [← hnumber]; rfl)

/-- What a character with a name is like, and the character that it denotes. -/
structure Names (c d : Char) : Prop where
  line : c ≠ '\n' ∧ c ≠ '\r'
  not_digit : c.isDigit = false
  lookup : named.lookup c = some d
  meaning : Escape.meaning c = d
  byte : c.toNat ≤ 255 ∧ d.toNat ≤ 255

theorem names_of_mem (h : (c, d) ∈ named) : Names c d := by
  simp only [named, List.mem_cons, List.not_mem_nil, or_false, Prod.mk.injEq] at h
  rcases h with
    ⟨rfl, rfl⟩ | ⟨rfl, rfl⟩ | ⟨rfl, rfl⟩ | ⟨rfl, rfl⟩ | ⟨rfl, rfl⟩ | ⟨rfl, rfl⟩ | ⟨rfl, rfl⟩
  all_goals exact ⟨by decide, rfl, rfl, rfl, by decide⟩

theorem escape_of_named (h : (c, d) ∈ named) (s : List Char) : escape (c :: s) = .ok ([d], 1) := by
  have hnames := names_of_mem h
  rw [escape_of_not_lineBreak hnames.line.1 fun _ h => absurd h hnames.line.2, hnames.lookup,
    if_neg]
  simp [hnames.not_digit]

variable {scanner : Scanner} {p : Position} {tail rest : List Char}

theorem gives_of_escape (h : escape (tail ++ '"' :: rest) = .ok ([c], tail.length)) :
    scanner.Gives p ('"' :: '\\' :: (tail ++ ['"']) ++ rest)
      (.ok ({ token := .string (String.ofList [c]), start := p,
              stop := p.after ('"' :: '\\' :: (tail ++ ['"'])) },
        ⟨p.after ('"' :: '\\' :: (tail ++ ['"'])), rest⟩)) := by
  have hread : Region.read scanner.maxNesting [⟨.string, p⟩] (p.next '"')
      ('\\' :: (tail ++ '"' :: rest)) =
        .ok ([c], ⟨p.after ('"' :: '\\' :: (tail ++ ['"'])), rest⟩) := by
    rw [read_string, outcome_nil, decode, h]
    simp only [List.take_left, List.drop_left, decode]
    simp [Except.map]
  have htoken : scanner.token p ('"' :: '\\' :: (tail ++ '"' :: rest)) = .ok _ :=
    Scanner.stringToken_of_read hread
  simpa using Scanner.gives_of_token rfl htoken

theorem gives_of_escape_error (h : escape s = .error n) :
    scanner.Gives p ('"' :: '\\' :: s) (.error (tooLarge n (p.next '"'))) := by
  have hread : Region.read scanner.maxNesting [⟨.string, p⟩] (p.next '"') ('\\' :: s) =
      .error (tooLarge n (p.next '"')) := by
    rw [read_string, outcome_nil, decode, h]
  have htoken : scanner.token p ('"' :: '\\' :: s) = .error _ := Scanner.stringToken_of_error hread
  exact Scanner.gives_of_token_error rfl htoken

end StringLiteral

namespace CharForm

open StringLiteral (named)

/-- Whether `count` hexadecimal digits, each of either case, write the number `n`. -/
def Digits (count n : Nat) (digits : List Char) : Prop :=
  digits.length = count ∧ (∀ d ∈ digits, IsHexDigit d) ∧ Hex.number digits = n

inductive Spells (n : Nat) : List Char → Prop
  | hexUnit {digits : List Char} (value : Digits 4 n digits) :
    Spells n (['\'', '\\', 'u'] ++ digits ++ ['\''])
  | codePoint {digits : List Char} (value : Digits 8 n digits) :
    Spells n (['\'', '\\', 'U'] ++ digits ++ ['\''])
  | hexByte {h₁ h₂ : Char} (value : Digits 2 n [h₁, h₂]) : Spells n ['\'', '\\', 'x', h₁, h₂, '\'']
  | decimal {d₁ d₂ d₃ : Char} (value : Escape.Writes d₁ d₂ d₃ n) (byte : n ≤ 255) :
    Spells n ['\'', '\\', d₁, d₂, d₃, '\'']
  | plain {c : Char} (line : c ≠ '\n' ∧ c ≠ '\r') (not_escape : c ≠ '\\') (value : c.toNat = n) :
    Spells n ['\'', c, '\'']
  | named {c d : Char} (name : (c, d) ∈ named) (value : d.toNat = n) :
    Spells n ['\'', '\\', c, '\'']
  | escaped {c : Char} (line : c ≠ '\n' ∧ c ≠ '\r') (unnamed : ∀ d, (c, d) ∉ named)
    (value : c.toNat = n) : Spells n ['\'', '\\', c, '\'']

/-- The escapes with a code that string literals share with character literals. -/
inductive SharedEscape (n : Nat) : List Char → Prop
  | named {c d : Char} (name : (c, d) ∈ named) (value : d.toNat = n) : SharedEscape n ['\\', c]
  | decimal {d₁ d₂ d₃ : Char} (value : Escape.Writes d₁ d₂ d₃ n) (byte : n ≤ 255) :
    SharedEscape n ['\\', d₁, d₂, d₃]

def judge (p : Position) (n : Nat) : Except Fault Token :=
  if n < 0x10000 then .ok (.char n.toUInt16)
  else if n ≤ 0x10FFFF then .error (.surrogatePair p)
  else .error (.beyondUnicode n)

variable {f : CharForm} {literal digits : List Char} {c d d₁ d₂ d₃ : Char} {count n : Nat}
  {u : UInt16} {p : Position}

theorem digits_iff : Digits count n digits ↔ Escape.reading count digits = .ok n := by
  have hhex : (∀ d ∈ digits, IsHexDigit d) ↔ ∀ d ∈ digits, d.toLower ∈ Hex.digits :=
    forall₂_congr fun d _ => (isHexDigit_iff d).trans (Hex.isDigit_iff_mem d)
  rw [Digits, Escape.reading_eq_ok_iff, hhex, eq_comm (a := n)]

theorem judge_of_lt (hn : n < 0x10000) : judge p n = .ok (.char n.toUInt16) := if_pos hn

theorem judge_eq_char (h : judge p n = .ok (.char u)) : u.toNat = n := by
  unfold judge at h
  split at h
  · rename_i hn
    cases h
    exact UInt16.toNat_ofNat_of_lt' hn
  · split at h
    · cases h
    · cases h

/-! Every kind of literal comes to the same judgement. -/

theorem toNat_le (c : Char) : c.toNat ≤ 0x10FFFF := by
  rcases c.valid with h | h
  · exact Nat.le_of_lt (Nat.lt_trans h (by decide))
  · exact Nat.le_of_lt_succ h.2

theorem ofChar_eq_judge (p : Position) (c : Char) : token.ofChar p c = judge p c.toNat := by
  unfold token.ofChar judge Escape.unit?
  by_cases hc : c.toNat < 0x10000
  · rw [if_pos hc, if_pos hc]
  · rw [if_neg hc, if_neg hc, if_pos (toNat_le c)]

theorem hexUnit_eq_judge (h : Digits 4 n digits) : (hexUnit digits).token p = judge p n := by
  have hreading := digits_iff.1 h
  rw [judge_of_lt (Escape.lt_of_reading hreading), token, Escape.hexUnit,
    Escape.hexNumber_eq_reading, hreading]
  rfl

theorem codePoint_eq_judge (h : Digits 8 n digits) : (codePoint digits).token p = judge p n := by
  rw [token, Escape.codePoint_of_reading (digits_iff.1 h)]
  unfold Escape.unitsOf judge
  by_cases hsmall : n < 0x10000
  · rw [if_pos hsmall, if_pos hsmall]
    rfl
  · rw [if_neg hsmall, if_neg hsmall]
    by_cases hlarge : 0x10FFFF < n
    · rw [if_pos hlarge, if_neg (Nat.not_le.2 hlarge)]
      rfl
    · rw [if_neg hlarge, if_pos (Nat.not_lt.1 hlarge)]
      rfl

theorem hexByte_eq_judge (h : Digits 2 n [d₁, d₂]) : (hexByte d₁ d₂).token p = judge p n := by
  have hreading := digits_iff.1 h
  have hlt : n < 256 := Escape.lt_of_reading hreading
  obtain ⟨-, hmem, hn⟩ := Escape.reading_eq_ok_iff.1 hreading
  rw [judge_of_lt (by omega), token, Escape.hexByte, Escape.hexValue_of_mem (hmem d₁ (by simp)),
    Escape.hexValue_of_mem (hmem d₂ (by simp)), hn]
  simp [Hex.number_cons, Hex.number_nil, bind, Except.bind, pure, Except.pure, Functor.map,
    Except.map]

theorem decimal_eq_judge (h : Escape.Writes d₁ d₂ d₃ n) (hbyte : n ≤ 255) :
    (decimal d₁ d₂ d₃).token p = judge p n := by
  rw [judge_of_lt (by omega), token, StringLiteral.decimal_of_writes h, if_pos hbyte]
  rfl

theorem meaning_of_unnamed (h : ∀ d, (c, d) ∉ named) : Escape.meaning c = c := by
  unfold Escape.meaning
  split
  · exact absurd (by decide) (h '\n')
  · exact absurd (by decide) (h '\t')
  · exact absurd (by decide) (h '\x08')
  · exact absurd (by decide) (h '\r')
  · rfl

/-- The number that a literal spells decides what it denotes. -/
theorem exists_form_of_spells (h : Spells n literal) :
    ∃ f : CharForm, f.Written literal ∧ ∀ p, f.token p = judge p n := by
  cases h with
  | hexUnit value => exact ⟨_, .hexUnit value.1 value.2.1, fun _ => hexUnit_eq_judge value⟩
  | codePoint value => exact ⟨_, .codePoint value.1 value.2.1, fun _ => codePoint_eq_judge value⟩
  | hexByte value => exact ⟨_, .hexByte value.2.1, fun _ => hexByte_eq_judge value⟩
  | @decimal d₁ d₂ d₃ value byte =>
      have hdigits : ∀ d ∈ [d₁, d₂, d₃], IsDecimalDigit d := by
        simp [isDecimalDigit_iff, value.1, value.2.1, value.2.2.1]
      exact ⟨_, .decimal hdigits, fun _ => decimal_eq_judge value byte⟩
  | plain line not_escape value =>
      exact ⟨_, .plain line not_escape, fun p => value ▸ ofChar_eq_judge p _⟩
  | @named c d name value =>
      have hnames := StringLiteral.names_of_mem name
      refine ⟨_, .escaped hnames.line, fun p => ?_⟩
      rw [token, hnames.meaning, ofChar_eq_judge, value]
  | escaped line unnamed value =>
      refine ⟨_, .escaped line, fun p => ?_⟩
      rw [token, meaning_of_unnamed unnamed, ofChar_eq_judge, value]

/-- A literal spells a number, unless it has a too large character code or is a category. -/
theorem written_cases (h : f.Written literal) :
    (∃ n, Spells n literal) ∨
    (∃ d₁ d₂ d₃ n, (Escape.Writes d₁ d₂ d₃ n ∧ 255 < n) ∧ f = decimal d₁ d₂ d₃) ∨
    ∃ c₁ c₂, f = category c₁ c₂ := by
  cases h with
  | plain line not_escape => exact .inl ⟨_, .plain line not_escape rfl⟩
  | @escaped c line =>
      by_cases hnamed : ∃ d, (c, d) ∈ named
      · obtain ⟨d, hd⟩ := hnamed
        exact .inl ⟨_, .named hd rfl⟩
      · exact .inl ⟨_, .escaped line (not_exists.1 hnamed) rfl⟩
  | @decimal d₁ d₂ d₃ digits =>
      have hwrites : ∃ n, Escape.Writes d₁ d₂ d₃ n := by
        simp only [List.mem_cons, List.not_mem_nil, or_false, forall_eq_or_imp, forall_eq,
          isDecimalDigit_iff] at digits
        exact ⟨_, digits.1, digits.2.1, digits.2.2, rfl⟩
      obtain ⟨n, hn⟩ := hwrites
      by_cases hbyte : n ≤ 255
      · exact .inl ⟨n, .decimal hn hbyte⟩
      · exact .inr (.inl ⟨_, _, _, n, ⟨hn, Nat.lt_of_not_le hbyte⟩, rfl⟩)
  | hexByte digits => exact .inl ⟨_, .hexByte ⟨rfl, digits, rfl⟩⟩
  | hexUnit four hex => exact .inl ⟨_, .hexUnit ⟨four, hex, rfl⟩⟩
  | codePoint eight hex => exact .inl ⟨_, .codePoint ⟨eight, hex, rfl⟩⟩
  | category upper lower => exact .inr (.inr ⟨_, _, rfl⟩)

theorem tooLarge_token (h : Escape.Writes d₁ d₂ d₃ n) (hn : 255 < n) :
    (decimal d₁ d₂ d₃).token p = .error (.codeTooLarge n) := by
  rw [token, StringLiteral.decimal_of_writes h, if_neg (Nat.not_le.2 hn)]
  rfl

theorem spells_of_token (h : f.Written literal) (hf : f.token p = .ok (.char u)) :
    Spells u.toNat literal := by
  rcases written_cases h with ⟨n, hn⟩ | ⟨d₁, d₂, d₃, n, ⟨hn, hlarge⟩, rfl⟩ | ⟨c₁, c₂, rfl⟩
  · obtain ⟨f', hf', htoken⟩ := exists_form_of_spells hn
    -- the spelling leaves only one form, so its number is the one that was judged
    have hstarts : StartsWith literal f literal [] := ⟨h, (List.append_nil literal).symm⟩
    obtain ⟨rfl, -, -⟩ := hstarts.unique ⟨hf', (List.append_nil literal).symm⟩
    rw [judge_eq_char ((htoken p).symm.trans hf)]
    exact hn
  · cases (tooLarge_token hn hlarge).symm.trans hf
  · cases hf

/-! ## Literals in a text -/

def Delivers (scanner : Scanner) (p : Position) (piece rest : List Char) (t : Token) : Prop :=
  scanner.Gives p (piece ++ rest)
    (.ok ({ token := t, start := p, stop := p.after piece }, ⟨p.after piece, rest⟩))

def Refuses (scanner : Scanner) (p : Position) (piece rest : List Char) (fault : Fault) : Prop :=
  scanner.Gives p (piece ++ rest)
    (.error { error := { fault, location := some p }, stop := p.after piece })

variable {scanner : Scanner} {rest : List Char} {t : Token} {fault : Fault}

/-- Literals start with a quote, so they are read where they stand. -/
theorem exists_token_of_written (h : f.Written literal) (scanner : Scanner) (p : Position)
    (rest : List Char) : ∃ s, literal ++ rest = '\'' :: s ∧
      scanner.token p ('\'' :: s) =
        match f.token p with
        | .ok token => .ok (token, ⟨p.after literal, rest⟩)
        | .error fault =>
          .error { error := { fault, location := some p }, stop := p.after literal } := by
  obtain ⟨-, hspelling⟩ := written_iff.1 h
  have hs : literal ++ rest = '\'' :: (f.body ++ ['\''] ++ rest) := by
    rw [hspelling]
    rfl
  exact ⟨_, hs, StartsWith.token_eq ⟨h, hs.symm⟩ scanner p⟩

theorem delivers_of_written (h : f.Written literal) (hf : f.token p = .ok t) :
    Delivers scanner p literal rest t := by
  obtain ⟨s, hs, htoken⟩ := exists_token_of_written h scanner p rest
  rw [hf] at htoken
  rw [Delivers, hs]
  exact Scanner.gives_of_token rfl htoken

theorem refuses_of_written (h : f.Written literal) (hf : f.token p = .error fault) :
    Refuses scanner p literal rest fault := by
  obtain ⟨s, hs, htoken⟩ := exists_token_of_written h scanner p rest
  rw [hf] at htoken
  rw [Refuses, hs]
  exact Scanner.gives_of_token_error rfl htoken

theorem token_of_delivers (h : f.Written literal) (hd : Delivers scanner p literal rest t) :
    f.token p = .ok t := by
  cases hf : f.token p with
  | ok token =>
      cases (delivers_of_written h hf ⟨p, literal ++ rest⟩ (.inl rfl)).symm.trans (hd _ (.inl rfl))
      rfl
  | error fault =>
      cases (refuses_of_written h hf ⟨p, literal ++ rest⟩ (.inl rfl)).symm.trans (hd _ (.inl rfl))

structure SpellingsAgree (scanner : Scanner) (p : Position) (rest : List Char) : Prop where
  unit : ∀ (u : UInt16) (literal : List Char), Spells u.toNat literal →
    Delivers scanner p literal rest (.char u)
  only : ∀ (u : UInt16) (f : CharForm) (literal : List Char), f.Written literal →
    Delivers scanner p literal rest (.char u) → Spells u.toNat literal
  /-- A character of two code units is spelled raw, escaped or by eight digits, always in vain. -/
  surrogatePair : ∀ c : Char, 0xFFFF < c.toNat →
    Spells c.toNat ['\'', c, '\''] ∧ Spells c.toNat ['\'', '\\', c, '\''] ∧
    ∀ literal, Spells c.toNat literal → Refuses scanner p literal rest (.surrogatePair p)
  beyondUnicode : ∀ (n : Nat) (digits : List Char), Digits 8 n digits → 0x10FFFF < n →
    Refuses scanner p (['\'', '\\', 'U'] ++ digits ++ ['\'']) rest (.beyondUnicode n)
  /-- Three decimal digits beyond a byte are accepted neither in a character literal nor in a string
  literal, with the same fault. In a string it is located at the backslash. -/
  codeTooLarge : ∀ (n : Nat) (d₁ d₂ d₃ : Char), Escape.Writes d₁ d₂ d₃ n → 255 < n →
    Refuses scanner p ['\'', '\\', d₁, d₂, d₃, '\''] rest (.codeTooLarge n) ∧
    scanner.Gives p (['"', '\\', d₁, d₂, d₃, '"'] ++ rest)
      (.error { error := { fault := .codeTooLarge n, location := some (p.next '"') },
                stop := p.after ['"', '\\'] })
  shared : ∀ (n : Nat) (escape : List Char), SharedEscape n escape →
    ∃ (u : UInt16) (c : Char), u.toNat = n ∧ c.toNat = n ∧
      Delivers scanner p (['\''] ++ escape ++ ['\'']) rest (.char u) ∧
      Delivers scanner p (['"'] ++ escape ++ ['"']) rest (.string (String.ofList [c]))

theorem delivers_of_spells (h : Spells u.toNat literal) :
    Delivers scanner p literal rest (.char u) := by
  obtain ⟨f, hf, htoken⟩ := exists_form_of_spells h
  have hjudge : judge p u.toNat = .ok (.char u) := by
    rw [judge_of_lt u.toNat_lt]
    exact congrArg (fun u => Except.ok (Token.char u)) UInt16.ofNat_toNat
  exact delivers_of_written hf ((htoken p).trans hjudge)

theorem spells_of_two_units (hc : 0xFFFF < c.toNat) :
    Spells c.toNat ['\'', c, '\''] ∧ Spells c.toNat ['\'', '\\', c, '\''] := by
  have hne : ∀ d : Char, d.toNat ≤ 0xFFFF → c ≠ d := by
    rintro d hd rfl
    exact Nat.not_lt.2 hd hc
  have hline : c ≠ '\n' ∧ c ≠ '\r' := ⟨hne '\n' (by decide), hne '\r' (by decide)⟩
  have hunnamed : ∀ d, (c, d) ∉ named := by
    intro d hd
    have hbyte := (StringLiteral.names_of_mem hd).byte.1
    omega
  exact ⟨.plain hline (hne '\\' (by decide)) rfl, .escaped hline hunnamed rfl⟩

theorem refuses_surrogatePair (hc : 0xFFFF < c.toNat) (h : Spells c.toNat literal) :
    Refuses scanner p literal rest (.surrogatePair p) := by
  obtain ⟨f, hf, htoken⟩ := exists_form_of_spells h
  have hjudge : judge p c.toNat = .error (.surrogatePair p) := by
    rw [judge, if_neg (by omega), if_pos (toNat_le c)]
  exact refuses_of_written hf ((htoken p).trans hjudge)

theorem refuses_beyondUnicode (hn : 0x10FFFF < n) (h : Digits 8 n digits) :
    Refuses scanner p (['\'', '\\', 'U'] ++ digits ++ ['\'']) rest (.beyondUnicode n) := by
  have hjudge : judge p n = .error (.beyondUnicode n) := by
    rw [judge, if_neg (by omega), if_neg (by omega)]
  exact refuses_of_written (.codePoint h.1 h.2.1) ((codePoint_eq_judge h).trans hjudge)

theorem refuses_codeTooLarge (hn : 255 < n) (h : Escape.Writes d₁ d₂ d₃ n) :
    Refuses scanner p ['\'', '\\', d₁, d₂, d₃, '\''] rest (.codeTooLarge n) := by
  have hdigits : ∀ d ∈ [d₁, d₂, d₃], IsDecimalDigit d := by
    simp [isDecimalDigit_iff, h.1, h.2.1, h.2.2.1]
  exact refuses_of_written (.decimal hdigits) (tooLarge_token h hn)

theorem shared_spells {escape : List Char} (h : SharedEscape n escape) :
    n ≤ 255 ∧ Spells n (['\''] ++ escape ++ ['\'']) ∧
    ∃ c : Char, c.toNat = n ∧
      Delivers scanner p (['"'] ++ escape ++ ['"']) rest (.string (String.ofList [c])) := by
  cases h with
  | @named c d name value =>
      have hd := (StringLiteral.names_of_mem name).byte.2
      exact ⟨value ▸ hd, .named name value, d, value,
        StringLiteral.gives_of_escape (StringLiteral.escape_of_named name ('"' :: rest))⟩
  | @decimal d₁ d₂ d₃ value byte =>
      have hvalid : n.isValidChar := .inl (by omega)
      have hescape := StringLiteral.escape_of_writes value ('"' :: rest)
      rw [if_pos byte] at hescape
      refine ⟨byte, .decimal value byte, Char.ofNat n, ?_, StringLiteral.gives_of_escape hescape⟩
      rw [Char.ofNat, dif_pos hvalid]
      rfl

/-- However a character is spelled, the same is read, and the same is refused. -/
theorem spellings_agree (scanner : Scanner) (p : Position) (rest : List Char) :
    SpellingsAgree scanner p rest where
  unit _ _ h := delivers_of_spells h
  only _ _ _ h hd := spells_of_token h (token_of_delivers h hd)
  surrogatePair _ hc :=
    ⟨(spells_of_two_units hc).1, (spells_of_two_units hc).2, fun _ h => refuses_surrogatePair hc h⟩
  beyondUnicode _ _ h hn := refuses_beyondUnicode hn h
  codeTooLarge n d₁ d₂ d₃ h hn := by
    have hescape := StringLiteral.escape_of_writes h (['"'] ++ rest)
    rw [if_neg (Nat.not_le.2 hn)] at hescape
    exact ⟨refuses_codeTooLarge hn h, StringLiteral.gives_of_escape_error hescape⟩
  shared n escape h := by
    obtain ⟨hbyte, hspells, c, hc, hstring⟩ := shared_spells h
    have hu : n.toUInt16.toNat = n := UInt16.toNat_ofNat_of_lt' (show n < 0x10000 by omega)
    exact ⟨n.toUInt16, c, hu, hc, delivers_of_spells (hu.symm ▸ hspells), hstring⟩

example : (plain 'ä').token {} = .ok (.char 0xE4) ∧
    (hexUnit ['0', '0', 'e', '4']).token {} = .ok (.char 0xE4) ∧
    (decimal '2' '2' '8').token {} = .ok (.char 0xE4) := by decide

end CharForm

end LexDef

import LexDef.Literal.Escape
/-!
# What escapes can fail with

Digits of the right number fail to decode only if their value is too large.
-/

namespace LexDef.Escape

def Writes (d₁ d₂ d₃ : Char) (n : Nat) : Prop :=
  d₁.isDigit ∧ d₂.isDigit ∧ d₃.isDigit ∧
    n = (d₁.toNat - '0'.toNat) * 100 + (d₂.toNat - '0'.toNat) * 10 + (d₃.toNat - '0'.toNat)

variable {c d₁ d₂ d₃ : Char} {s : List Char} {fault : Fault}

theorem decimal_error (h₁ : d₁.isDigit) (h₂ : d₂.isDigit) (h₃ : d₃.isDigit)
    (h : decimal d₁ d₂ d₃ = .error fault) :
    ∃ code, (255 < code ∧ Writes d₁ d₂ d₃ code) ∧ fault = .codeTooLarge code := by
  simp only [decimal, decimalValue, if_pos h₁, if_pos h₂, if_pos h₃] at h
  by_cases hcode : 255 < (d₁.toNat - '0'.toNat) * 100 + (d₂.toNat - '0'.toNat) * 10 +
      (d₃.toNat - '0'.toNat)
  · simp only [bind, Except.bind, if_pos hcode] at h
    cases h
    exact ⟨_, ⟨hcode, h₁, h₂, h₃, rfl⟩, rfl⟩
  · simp only [bind, Except.bind, if_neg hcode] at h
    cases h

theorem hexValue_of_isDigit (h : Hex.isDigit c) : ∃ d, hexValue c = .ok d := by
  obtain ⟨d, hd⟩ := Option.isSome_iff_exists.1 h
  exact ⟨d, by rw [hexValue, hd]⟩

theorem hexFold_of_isDigit (h : s.all Hex.isDigit) (n : Nat) :
    ∃ m, s.foldlM (m := Except Fault) (fun n c => return n * 16 + (← hexValue c)) n = .ok m := by
  induction s generalizing n with
  | nil => exact ⟨n, rfl⟩
  | cons c s ih =>
      simp only [List.all_cons, Bool.and_eq_true] at h
      obtain ⟨d, hd⟩ := hexValue_of_isDigit h.1
      obtain ⟨m, hm⟩ := ih h.2 (n * 16 + d)
      refine ⟨m, ?_⟩
      rw [List.foldlM_cons, hd]
      exact hm

theorem hexNumber_of_isDigit {count : Nat} (hlen : s.length = count) (h : s.all Hex.isDigit) :
    ∃ n, hexNumber count s = .ok n := by
  obtain ⟨n, hn⟩ := hexFold_of_isDigit h 0
  exact ⟨n, by rw [hexNumber, if_pos hlen, hn]⟩

theorem codePoint_error (hlen : s.length = 8) (hs : s.all Hex.isDigit)
    (h : codePoint s = .error fault) : ∃ code, 0x10FFFF < code ∧ fault = .beyondUnicode code := by
  obtain ⟨code, hcode⟩ := hexNumber_of_isDigit hlen hs
  rw [codePoint, hcode] at h
  by_cases hsmall : code < 0x10000
  · simp only [bind, Except.bind, if_pos hsmall] at h
    cases h
  · by_cases hlarge : 0x10FFFF < code
    · simp only [bind, Except.bind, if_neg hsmall, if_pos hlarge] at h
      cases h
      exact ⟨code, hlarge, rfl⟩
    · simp only [bind, Except.bind, if_neg hsmall, if_neg hlarge] at h
      cases h

end LexDef.Escape

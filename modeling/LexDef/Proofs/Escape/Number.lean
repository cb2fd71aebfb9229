import LexDef.Proofs.Escape
import Mathlib.Data.Nat.Digits.Lemmas
/-!
# The number that hexadecimal digits write

The digits of both cases stand in the order of their values, and the most significant one comes
first. Decoding digits gives the number that they write: `Escape.hexNumber_eq_reading`.
-/

namespace LexDef

namespace Hex

def digits : List Char :=
  ['0', '1', '2', '3', '4', '5', '6', '7', '8', '9', 'a', 'b', 'c', 'd', 'e', 'f']

/-- The number that digits of either case write, the most significant one first. -/
def number (s : List Char) : Nat :=
  Nat.ofDigits 16 (s.map fun c => digits.idxOf c.toLower).reverse

end Hex

namespace Escape

/-- The number that `count` hexadecimal digits write. Otherwise there are not as many characters, or
one of them, the first is told, is no digit. -/
def reading (count : Nat) (s : List Char) : Except Fault Nat :=
  if s.length = count then
    match s.find? fun c => c.toLower ∉ Hex.digits with
    | some c => .error (.notAHexDigit c)
    | none => .ok (Hex.number s)
  else .error (.digitCount count s.length)

end Escape

namespace Hex

variable {c : Char} {s : List Char}

theorem value?_eq_idxOf? (c : Char) : value? c = digits.idxOf? c.toLower := by
  by_cases hc : c.toNat < 128
  · have hascii : ∀ n < 128, value? (Char.ofNat n) = digits.idxOf? (Char.ofNat n).toLower := by
      decide
    rw [← Char.ofNat_toNat c]
    exact hascii c.toNat hc
  · -- no character behind ASCII is a digit or changes its case
    have hlt : ∀ d : Char, d.toNat < 128 → ¬c ≤ d := by
      intro d hd hle
      rw [Char.le_def, UInt32.le_iff_toNat_le] at hle
      exact hc (Nat.lt_of_le_of_lt hle hd)
    have hlower : c.toLower = c := dif_neg fun h => hlt 'Z' (by decide) h.2
    have hmem : c ∉ digits := by
      intro h
      have hall : digits.all (·.toNat < 128) := by decide
      exact hc (by simpa using List.all_eq_true.1 hall c h)
    rw [hlower, List.idxOf?_eq_none_iff.2 hmem]
    simp [value?, hlt '9' (by decide), hlt 'f' (by decide), hlt 'F' (by decide)]

theorem value?_of_mem (hc : c.toLower ∈ digits) : value? c = some (digits.idxOf c.toLower) := by
  obtain ⟨d, hd⟩ := Option.ne_none_iff_exists'.1 (mt List.idxOf?_eq_none_iff.1 (not_not_intro hc))
  rw [value?_eq_idxOf?, List.idxOf_eq_getD_idxOf?, hd]
  rfl

theorem value?_of_not_mem (hc : c.toLower ∉ digits) : value? c = none := by
  rw [value?_eq_idxOf?, List.idxOf?_eq_none_iff.2 hc]

theorem isDigit_iff_mem (c : Char) : isDigit c ↔ c.toLower ∈ digits := by
  by_cases hc : c.toLower ∈ digits
  · simp [isDigit, value?_of_mem hc, hc]
  · simp [isDigit, value?_of_not_mem hc, hc]

theorem number_nil : number [] = 0 := rfl

theorem number_cons (c : Char) (s : List Char) :
    number (c :: s) = digits.idxOf c.toLower * 16 ^ s.length + number s := by
  simp only [number, List.map_cons, List.reverse_cons, Nat.ofDigits_append, Nat.ofDigits_singleton,
    List.length_reverse, List.length_map]
  rw [Nat.mul_comm, Nat.add_comm]

theorem number_lt (h : ∀ c ∈ s, c.toLower ∈ digits) : number s < 16 ^ s.length := by
  have hdigit : ∀ d ∈ (s.map fun c => digits.idxOf c.toLower).reverse, d < 16 := by
    intro d hd
    obtain ⟨c, hc, rfl⟩ := List.mem_map.1 (List.mem_reverse.1 hd)
    exact List.idxOf_lt_length_of_mem (h c hc)
  have hlt := Nat.ofDigits_lt_base_pow_length (by decide) hdigit
  rwa [List.length_reverse, List.length_map] at hlt

end Hex

namespace Escape

variable {c : Char} {s : List Char} {count n : Nat}

theorem hexValue_of_mem (hc : c.toLower ∈ Hex.digits) :
    hexValue c = .ok (Hex.digits.idxOf c.toLower) := by
  rw [hexValue, Hex.value?_of_mem hc]

theorem hexValue_of_not_mem (hc : c.toLower ∉ Hex.digits) :
    hexValue c = .error (.notAHexDigit c) := by
  rw [hexValue, Hex.value?_of_not_mem hc]

/-- Digits behind a number `n` are collected digit by digit. -/
theorem hexFold_eq (n : Nat) (s : List Char) :
    s.foldlM (m := Except Fault) (fun n c => return n * 16 + (← hexValue c)) n =
      match s.find? fun c => c.toLower ∉ Hex.digits with
      | some c => .error (.notAHexDigit c)
      | none => .ok (n * 16 ^ s.length + Hex.number s) := by
  induction s generalizing n with
  | nil => simp [Hex.number_nil, pure, Except.pure]
  | cons c s ih =>
      rw [List.foldlM_cons]
      by_cases hc : c.toLower ∈ Hex.digits
      · rw [hexValue_of_mem hc, List.find?_cons_of_neg (by simpa using hc)]
        simp only [bind, Except.bind, pure, Except.pure] at ih ⊢
        rw [ih, Hex.number_cons, List.length_cons, Nat.pow_succ]
        split
        · rfl
        · congr 1
          ring
      · rw [hexValue_of_not_mem hc, List.find?_cons_of_pos (by simpa using hc)]
        rfl

theorem hexNumber_eq_reading (count : Nat) (s : List Char) :
    hexNumber count s = reading count s := by
  unfold hexNumber reading
  split
  · rw [hexFold_eq, Nat.zero_mul, Nat.zero_add]
  · rfl

theorem reading_eq_ok_iff : reading count s = .ok n ↔
    s.length = count ∧ (∀ c ∈ s, c.toLower ∈ Hex.digits) ∧ n = Hex.number s := by
  unfold reading
  split
  · rename_i hlen
    split
    · rename_i c hfind
      have hc := List.find?_some hfind
      have hmem := List.mem_of_find?_eq_some hfind
      simp only [decide_eq_true_eq] at hc
      simp only [reduceCtorEq, false_iff]
      rintro ⟨-, hall, -⟩
      exact hc (hall c hmem)
    · rename_i hfind
      have hall : ∀ c ∈ s, c.toLower ∈ Hex.digits := by simpa using hfind
      simp only [hlen, true_and, Except.ok.injEq]
      exact ⟨fun h => ⟨hall, h.symm⟩, fun h => h.2.symm⟩
  · rename_i hlen
    simp [hlen]

theorem lt_of_reading (h : reading count s = .ok n) : n < 16 ^ count := by
  obtain ⟨rfl, hall, rfl⟩ := reading_eq_ok_iff.1 h
  exact Hex.number_lt hall

end Escape

end LexDef

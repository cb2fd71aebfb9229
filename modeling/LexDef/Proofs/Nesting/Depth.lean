import LexDef.Proofs.Scanner.Advance
/-!
# How many regions are open

On its way a reader never has more regions open than its scanner allows, and each of them has taken
a character of the text. It fails for the depth only where all of the regions that are allowed are
open and one more would be opened.
-/

namespace LexDef.Scanner

def Reader.Opens (a : Reader) (inner : Region) : Prop :=
  ∃ r outer c s st, a.opened = r :: outer ∧ a.place.rest = c :: s ∧
    r.step a.place.pos c s = .ok st ∧ st.move = .opens inner

variable {scanner : Scanner} {a b : Reader} {f : Failure} {inner : Region} {n : Nat} {q : Position}

theorem Reader.Opens.start (h : a.Opens inner) : inner.start = a.place.pos := by
  obtain ⟨r, outer, c, s, st, -, -, hstep, hm⟩ := h
  exact (Region.step_opens hstep hm).1

theorem Reader.Opens.opener (h : a.Opens inner) : inner.kind.opener <+: a.place.rest := by
  obtain ⟨r, outer, c, s, st, -, hrest, hstep, hm⟩ := h
  rw [hrest, ← (Region.step_opens hstep hm).2.2, ← List.take_succ_cons]
  exact List.take_prefix _ _

theorem Advance.length_opened_le (h : Advance scanner a b)
    (ha : a.opened.length ≤ scanner.maxNesting) : b.opened.length ≤ scanner.maxNesting := by
  cases h with
  | blank | crlf | lineComment | character | word | symbol => exact ha
  | comment | string | code => exact scanner.maxNesting_pos
  | region hstep hmove =>
      rcases Region.apply_ok_cases hmove with ⟨-, rfl⟩ | ⟨-, rfl⟩ | ⟨inner, -, rfl, hlen⟩
      · exact ha
      · exact Nat.le_of_succ_le ha
      · exact hlen

theorem Advances.length_opened_le (h : Advances scanner a b)
    (ha : a.opened.length ≤ scanner.maxNesting) : b.opened.length ≤ scanner.maxNesting := by
  induction h with
  | refl => exact ha
  | tail _ hmove ih => exact hmove.length_opened_le ih

/-- A move opens at most one region, and it takes a character. -/
theorem Advance.length_add_le (h : Advance scanner a b) :
    b.opened.length + b.place.rest.length ≤ a.opened.length + a.place.rest.length := by
  obtain ⟨piece, hne, -, hrest, -⟩ := h.exists_piece
  have hpiece : 0 < piece.length := List.length_pos_of_ne_nil hne
  have hlen : b.opened.length ≤ a.opened.length + 1 := by
    cases h with
    | blank | crlf | lineComment | character | word | symbol | comment | string | code => simp
    | region hstep hmove =>
        rcases Region.apply_ok_cases hmove with ⟨-, rfl⟩ | ⟨-, rfl⟩ | ⟨inner, -, rfl, -⟩
        all_goals simp only [List.length_cons]; omega
  rw [hrest, List.length_append]
  omega

theorem Advances.length_add_le (h : Advances scanner a b) :
    b.opened.length + b.place.rest.length ≤ a.opened.length + a.place.rest.length := by
  induction h with
  | refl => exact Nat.le_refl _
  | tail _ hmove ih => exact Nat.le_trans hmove.length_add_le ih

/-- A reader fails for the depth where it would open a region although it may not. -/
theorem Halts.tooDeep (h : Halts scanner a f) (hf : f.error.fault = .tooDeep n q) :
    n = scanner.maxNesting ∧ scanner.maxNesting ≤ a.opened.length ∧
      f.error.enclosing = Region.modes a.opened ∧ ∃ inner, a.Opens inner ∧ inner.start = q := by
  cases h with
  | unknown | ended => cases hf
  | character hform ht =>
      obtain ⟨code, -, rfl⟩ | ⟨code, -, rfl⟩ | rfl :=
        CharForm.token_error (CharForm.wellFormed_of_ofText? hform) ht
      all_goals cases hf
  | fault hstep =>
      obtain ⟨-, -, code, -, rfl⟩ := Region.step_error hstep
      cases hf
  | @refused r outer p c s st e hstep hmove =>
      obtain ⟨inner, hm, hlen, rfl⟩ := Region.apply_error hmove
      cases hf
      exact ⟨rfl, hlen, rfl, inner, ⟨r, outer, c, s, st, rfl, rfl, hstep, hm⟩, rfl⟩

theorem FailsFrom.le_stop (h : FailsFrom scanner a f) :
    a.place.pos.offset ≤ f.stop.offset := by
  obtain ⟨b, hmoves, hhalts⟩ := h
  obtain ⟨rest, hreach⟩ := hhalts.reaches
  exact ((Advances.reaches hmoves).trans hreach).le.1

theorem FailsFrom.le_of_tooDeep (h : FailsFrom scanner a f)
    (hf : f.error.fault = .tooDeep n q) : a.place.pos.offset ≤ q.offset := by
  obtain ⟨b, hmoves, hhalts⟩ := h
  obtain ⟨-, -, -, inner, hopens, rfl⟩ := hhalts.tooDeep hf
  rw [hopens.start]
  exact (Advances.reaches hmoves).le.1

end LexDef.Scanner

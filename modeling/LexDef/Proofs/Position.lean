import LexDef.Place
import Mathlib.Data.List.DropRight
import Mathlib.Data.String.Basic
/-!
# The position law

The three numbers of a position are functions of the text before it: the bytes of that text, its
line feeds, and the characters behind the last of them.
-/

namespace LexDef

def slice (text : String) (i j : Nat) : String :=
  String.Pos.Raw.extract text ⟨i⟩ ⟨j⟩

/-- Whether byte `i` of a text is the first one of a character, or its end. -/
def IsBoundary (text : String) (i : Nat) : Prop :=
  String.Pos.Raw.IsValid text ⟨i⟩

namespace Position

/-- A position is not behind another one in bytes, nor in lines and columns. -/
instance : LE Position where
  le p q := p.offset ≤ q.offset ∧ (p.line < q.line ∨ p.line = q.line ∧ p.column ≤ q.column)

theorem le_def {p q : Position} :
    p ≤ q ↔ p.offset ≤ q.offset ∧ (p.line < q.line ∨ p.line = q.line ∧ p.column ≤ q.column) :=
  Iff.rfl

theorem le_refl (p : Position) : p ≤ p := by
  simp [le_def]

theorem le_trans {p q r : Position} (hpq : p ≤ q) (hqr : q ≤ r) : p ≤ r := by
  rw [le_def] at *
  omega

theorem next_of_ne {c : Char} (hc : c ≠ '\n') (p : Position) : p.next c = p.right c := by
  simp [next, hc]

theorem le_next (p : Position) (c : Char) : p ≤ p.next c := by
  rw [le_def, next]
  split <;> simp [right, down]

theorem le_after (p : Position) (s : List Char) : p ≤ p.after s := by
  induction s generalizing p with
  | nil => exact le_refl p
  | cons c s ih => exact le_trans (le_next p c) (ih (p.next c))

theorem next_offset (p : Position) (c : Char) :
    (p.next c).offset = p.offset + c.utf8Size := by
  unfold next
  split
  · subst c
    rfl
  · rfl

theorem after_offset (p : Position) (s : List Char) :
    (p.after s).offset = p.offset + String.utf8Len s := by
  induction s generalizing p with
  | nil => rfl
  | cons c s ih =>
      rw [after_cons, ih, next_offset, String.utf8Len_cons]
      omega

theorem offset_lt_after (p : Position) {s : List Char} (hs : s ≠ []) :
    p.offset < (p.after s).offset := by
  have hlen : String.utf8Len s ≠ 0 := mt String.utf8Len_eq_zero.1 hs
  rw [after_offset]
  omega

theorem after_line (p : Position) (s : List Char) :
    (p.after s).line = p.line + s.count '\n' := by
  induction s generalizing p with
  | nil => rfl
  | cons c s ih =>
      rw [after_cons, ih]
      by_cases hc : c = '\n'
      · subst c
        simp only [next, if_pos, down, List.count_cons_self]
        omega
      · rw [next_of_ne hc, List.count_cons_of_ne hc]
        rfl

theorem column_after (s : List Char) :
    (({} : Position).after s).column = 1 + (s.rtakeWhile (· ≠ '\n')).length := by
  induction s using List.reverseRecOn with
  | nil => rfl
  | append_singleton s c ih =>
      rw [after_append, after_cons, after_nil]
      by_cases hc : c = '\n'
      · rw [List.rtakeWhile_concat_neg _ _ _ (by simpa using hc)]
        simp [next, hc, down]
      · rw [List.rtakeWhile_concat_pos _ _ _ (by simpa using hc), next_of_ne hc]
        simp only [right, ih, List.length_append, List.length_cons, List.length_nil]
        omega

theorem after_of_not_mem {s : List Char} (hs : '\n' ∉ s) (p : Position) :
    p.after s = s.foldl right p := by
  induction s generalizing p with
  | nil => rfl
  | cons c s ih =>
      have hc : c ≠ '\n' := fun h => hs (h ▸ List.mem_cons_self)
      rw [after_cons, next_of_ne hc, ih (fun h => hs (List.mem_cons_of_mem c h)), List.foldl_cons]

end Position

theorem Place.Reaches.le {a b : Place} (h : a.Reaches b) : a.pos ≤ b.pos := by
  obtain ⟨piece, -, hpos⟩ := h
  rw [hpos]
  exact Position.le_after a.pos piece

/-- A place that a text leads to splits the text. -/
theorem Place.exists_of_ofString_reaches {text : String} {p : Position} {s : List Char}
    (h : (Place.ofString text).Reaches ⟨p, s⟩) :
    ∃ pre, text.toList = pre ++ s ∧ p = ({} : Position).after pre :=
  h

/-- A beginning of a text is known by its bytes. -/
theorem eq_of_utf8Len {first first' later later' : List Char}
    (h : first ++ later = first' ++ later')
    (hlen : String.utf8Len first = String.utf8Len first') : first = first' := by
  rcases List.append_eq_append_iff.1 h with ⟨v, hv, -⟩ | ⟨v, hv, -⟩
  all_goals
    rw [hv, String.utf8Len_append] at hlen
    have hempty : v = [] := String.utf8Len_eq_zero.1 (by omega)
    simp [hv, hempty]

theorem slice_utf8Len {text : String} {pre piece post : List Char}
    (h : text.toList = pre ++ piece ++ post) :
    slice text (String.utf8Len pre) (String.utf8Len pre + String.utf8Len piece) =
      String.ofList piece := by
  rw [slice, ← String.ofList_toList (s := text), h]
  exact String.extract_of_valid pre piece post

theorem slice_after {text : String} {pre piece post : List Char}
    (h : text.toList = pre ++ piece ++ post) :
    slice text (({} : Position).after pre).offset (({} : Position).after (pre ++ piece)).offset =
      String.ofList piece := by
  rw [Position.after_offset, Position.after_offset, String.utf8Len_append]
  simpa using slice_utf8Len h

theorem isBoundary_after {text : String} {pre post : List Char}
    (h : text.toList = pre ++ post) :
    IsBoundary text (({} : Position).after pre).offset := by
  rw [IsBoundary, String.Pos.Raw.isValid_iff_exists_append]
  refine ⟨String.ofList pre, String.ofList post, ?_, ?_⟩
  · rw [← String.ofList_append, ← h, String.ofList_toList]
  · rw [Position.after_offset, String.rawEndPos_ofList]
    simp

end LexDef

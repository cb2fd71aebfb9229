import LexDef.Proofs.Layout.Scanner
import LexDef.Proofs.Scanner.Unclosed
/-!
# Texts one behind the other

A text that is read to its end may go on with another text on a new line. What is read of the other
text does not depend on the text before it, only its positions move.
-/

namespace LexDef

/-- The position behind further lines and bytes. Columns count from the start of a line. -/
def Position.shift (lines bytes : Nat) (p : Position) : Position :=
  { p with line := p.line + lines, offset := p.offset + bytes }

theorem Position.shift_next (lines bytes : Nat) (p : Position) (c : Char) :
    (p.next c).shift lines bytes = (p.shift lines bytes).next c := by
  by_cases hc : c = '\n'
  · subst c
    have hline : p.line + 1 + lines = p.line + lines + 1 := by omega
    have hoffset : p.offset + 1 + bytes = p.offset + bytes + 1 := by omega
    simp only [next, if_pos, down, shift, hline, hoffset]
  · have hoffset : p.offset + c.utf8Size + bytes = p.offset + bytes + c.utf8Size := by omega
    simp only [next_of_ne hc, right, shift, hoffset]

def Layout.shift (lines bytes : Nat) : Layout where
  lineBreak := ['\n']
  pos := Position.shift lines bytes
  isLineBreak := .inl rfl
  pos_next p c _ := by
    rw [Position.shift_next]
    split
    · subst c
      rfl
    · rfl

namespace Layout

variable {lines bytes : Nat} {x y : Lexeme} {xs ys : List Lexeme}

theorem eq_of_matches_shift (h : (shift lines bytes).Matches x y) :
    y = x.mapPos (Position.shift lines bytes) := by
  obtain ⟨t, p, q⟩ := x
  obtain ⟨t', p', q'⟩ := y
  obtain ⟨htoken, rfl, rfl⟩ := h
  have ht : t' = t := by
    cases t with
    | code s =>
        rw [show t' = _ from htoken, text_of_lineFeed rfl, String.ofList_toList]
    | string s =>
        obtain ⟨s', rfl, hbare⟩ := htoken
        rw [bare_of_lineFeed rfl, bare_of_lineFeed rfl, String.toList_inj] at hbare
        rw [hbare]
    | _ => exact htoken
  rw [ht]
  rfl

theorem eq_map_of_matches_shift (h : List.Forall₂ (shift lines bytes).Matches xs ys) :
    ys = xs.map (Lexeme.mapPos (Position.shift lines bytes)) := by
  induction h with
  | nil => rfl
  | cons hhead _ ih => rw [List.map_cons, eq_of_matches_shift hhead, ih]

end Layout

namespace Scanner

variable {scanner : Scanner} {a b : String} {ts : List Lexeme} {last : Lexeme}

/-- Behind a text that is read to its end, a new line is read as at the start of a text. -/
theorem exists_chain_line (h : (scanner.withUnclosedCode .refused).lexemes a = .ok (ts ++ [last]))
    (b : String) :
    ∃ mid, Chain scanner (.ofString (a ++ "\n" ++ b)) ts mid ∧
      scanner.next mid = scanner.next ⟨({} : Position).after (a.toList ++ ['\n']), b.toList⟩ := by
  obtain ⟨mid, after, hchain, hnext, hend⟩ := exists_of_lexemes_ok h
  obtain ⟨p, hgap⟩ := skipGap_of_refused hnext hend
  obtain ⟨u, hu, hpos⟩ := hchain.reaches
  change a.toList = u ++ mid.rest at hu
  have hchain' := hchain.of_refused.append hu (follows_append_line mid.rest b.toList)
  have htext : u ++ (mid.rest ++ '\n' :: b.toList) = (a ++ "\n" ++ b).toList := by
    simp [hu]
  rw [htext] at hchain'
  refine ⟨_, hchain', next_of_skipGap ?_⟩
  have hfollows : Follows [] ('\n' :: b.toList) := follows_append_line [] b.toList
  have hskip := skipGap_append hgap (List.append_nil _).symm hfollows mid.pos
  rw [skipGap_cons _ _ _ (.inr (.inr rfl))] at hskip
  rw [hskip, hu, hpos]
  simp
  rfl

def behindLine (a : String) : Layout := .shift (a.toList.count '\n' + 1) (a.utf8ByteSize + 1)

theorem place_behindLine (a b : String) :
    (behindLine a).place (.ofString b) = ⟨({} : Position).after (a.toList ++ ['\n']), b.toList⟩ := by
  have hbytes : String.utf8Len a.toList = a.utf8ByteSize := by
    rw [← String.utf8ByteSize_ofList, String.ofList_toList]
  have hpos : (behindLine a).pos {} = ({} : Position).after (a.toList ++ ['\n']) := by
    rw [Position.after_append, Position.after_cons, Position.after_nil, Position.next, if_pos rfl,
      Position.down, Position.after_line, Position.after_offset, hbytes]
    refine Position.mk.injEq .. ▸ ⟨?_, rfl, ?_⟩
    · change 1 + (a.toList.count '\n' + 1) = 1 + a.toList.count '\n' + 1
      omega
    · change 0 + (a.utf8ByteSize + 1) = 0 + a.utf8ByteSize + 1
      omega
  rw [← hpos, Layout.place, Layout.text_of_lineFeed rfl]
  rfl

theorem run_append_line (h : (scanner.withUnclosedCode .refused).lexemes a = .ok (ts ++ [last]))
    (b : String) :
    (scanner.run (a ++ "\n" ++ b)).lexemes =
        ts ++ (scanner.runFrom ((behindLine a).place (.ofString b))).lexemes ∧
      (scanner.run (a ++ "\n" ++ b)).final =
        (scanner.runFrom ((behindLine a).place (.ofString b))).final := by
  obtain ⟨mid, hchain, hnext⟩ := exists_chain_line h b
  have hrun : scanner.run (a ++ "\n" ++ b) = _ := hchain.runFrom_eq
  rw [runFrom_congr hnext, ← place_behindLine] at hrun
  rw [hrun]
  exact ⟨rfl, rfl⟩

/-- A text `b` that stands on a new line behind a text `a` is read as it is alone, with the lines and
bytes before it added to its positions; and `a` is read as it is alone, too, if it can be read to its
end without leaving out unclosed code. -/
theorem lexemes_append_line
    (h : (scanner.withUnclosedCode .refused).lexemes a = .ok (ts ++ [last])) (b : String) :
    let behind := Position.shift (a.toList.count '\n' + 1) (a.utf8ByteSize + 1)
    (scanner.run (a ++ "\n" ++ b)).lexemes =
      ts ++ (scanner.run b).lexemes.map (Lexeme.mapPos behind) ∧
    scanner.lexemes (a ++ "\n" ++ b) =
      match scanner.lexemes b with
      | .ok xs => .ok (ts ++ xs.map (Lexeme.mapPos behind))
      | .error e => .error (e.mapPos behind) := by
  intro behind
  obtain ⟨hlexemes, hfinal⟩ := run_append_line h b
  have hfits : (behindLine a).Fits (.ofString b) := ⟨Nat.le_refl 1, .inl rfl⟩
  obtain ⟨hmatches, hcarries⟩ := Layout.run_layout scanner hfits
  rw [← hfinal] at hcarries
  have hread := Layout.lexemes_layout hmatches hlexemes hcarries
  rw [Layout.eq_map_of_matches_shift hmatches] at hlexemes
  refine ⟨hlexemes, ?_⟩
  cases hb : scanner.lexemes b with
  | error e =>
      rw [hb] at hread
      exact hread
  | ok xs =>
      rw [hb] at hread
      obtain ⟨ys, hys, hread⟩ := hread
      rw [Layout.eq_map_of_matches_shift hys] at hread
      exact hread

theorem lexemes_append_line_comment :
    let scanner : Scanner := { unclosedCode := .dropped, maxNesting_pos := by decide }
    let a := "let // é\r"
    let b := "x\r\n(* \"\\\n\\300"
    let ts : List Lexeme := [{ token := .let_, start := {}, stop := ⟨1, 4, 3⟩ }]
    let last : Lexeme := .endAt ⟨1, 10, 10⟩
    let behind := Position.shift (a.toList.count '\n' + 1) (a.utf8ByteSize + 1)
    (scanner.withUnclosedCode .refused).lexemes a = .ok (ts ++ [last]) ∧
    (scanner.run (a ++ "\n" ++ b)).lexemes =
      ts ++ (scanner.run b).lexemes.map (Lexeme.mapPos behind) ∧
    scanner.lexemes (a ++ "\n" ++ b) =
      match scanner.lexemes b with
      | .ok xs => .ok (ts ++ xs.map (Lexeme.mapPos behind))
      | .error e => .error (e.mapPos behind) := by
  intro scanner a b ts last behind
  have h : (scanner.withUnclosedCode .refused).lexemes a = .ok (ts ++ [last]) := by decide +kernel
  exact ⟨h, lexemes_append_line h b⟩

end Scanner

end LexDef

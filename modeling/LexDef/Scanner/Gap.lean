import LexDef.Region.Read
import LexDef.Settings
/-!
# Gaps between tokens

Tokens are set apart by blanks, tabs, line breaks, comments between delimiters and comments that end
with their line. A carriage return is a part of a line break only before a line feed.
-/

namespace LexDef.Scanner

def skipGap (scanner : Scanner) (p : Position) (s : List Char) : Except Failure Place :=
  match s with
  | ' ' :: s => scanner.skipGap (p.next ' ') s
  | '\t' :: s => scanner.skipGap (p.next '\t') s
  | '\n' :: s => scanner.skipGap (p.next '\n') s
  | '\r' :: '\n' :: s => scanner.skipGap (p.after ['\r', '\n']) s
  | '(' :: '*' :: s =>
    match _ : Region.read scanner.maxNesting [⟨.comment, p⟩] (p.after ['(', '*']) s with
    | .error f => .error f
    | .ok (_, place) =>
      scanner.skipGap place.pos place.rest
  | '/' :: '/' :: s =>
    scanner.skipGap (p.after ('/' :: '/' :: s.takeWhile (· ≠ '\n'))) (s.dropWhile (· ≠ '\n'))
  | s => .ok ⟨p, s⟩
termination_by s.length
decreasing_by
  · simp
  · simp
  · simp
  · simp only [List.length_cons]
    omega
  · rename_i hread
    have := (Region.reaches_of_read hread).length_le
    simp_all
    omega
  · have := (s.dropWhile_suffix (· ≠ '\n')).length_le
    simp only [List.length_cons]
    omega

theorem reaches_of_skipGap {scanner : Scanner} {p : Position} {s : List Char} {place : Place}
    (h : scanner.skipGap p s = .ok place) : Place.Reaches ⟨p, s⟩ place := by
  fun_induction skipGap scanner p s with
  | case1 p s ih => exact (Place.reaches_cons p ' ' s).trans (ih h)
  | case2 p s ih => exact (Place.reaches_cons p '\t' s).trans (ih h)
  | case3 p s ih => exact (Place.reaches_cons p '\n' s).trans (ih h)
  | case4 p s ih => exact (Place.reaches_append p ['\r', '\n'] s).trans (ih h)
  | case5 => cases h
  | case6 p s _ _ hread ih =>
    exact (Place.reaches_append p ['(', '*'] s).trans
      ((Region.reaches_of_read hread).trans (ih h))
  | case7 p s ih =>
    have line := Place.reaches_append p ('/' :: '/' :: s.takeWhile (· ≠ '\n'))
      (s.dropWhile (· ≠ '\n'))
    rw [List.cons_append, List.cons_append, List.takeWhile_append_dropWhile] at line
    exact line.trans (ih h)
  | case8 => cases h; exact .refl _

end LexDef.Scanner

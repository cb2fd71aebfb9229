import LexDef.Scanner.Gap
/-!
# What passing a gap does

A gap is passed item by item, and it ends where no item starts.
-/

namespace LexDef.Scanner

def startsGap : List Char → Bool
  | ' ' :: _ | '\t' :: _ | '\n' :: _ | '\r' :: '\n' :: _ | '(' :: '*' :: _ | '/' :: '/' :: _ => true
  | _ => false

variable {scanner : Scanner} {p : Position} {s : List Char} {place : Place}

theorem skipGap_of_not_startsGap (scanner : Scanner) (p : Position) (h : startsGap s = false) :
    scanner.skipGap p s = .ok ⟨p, s⟩ := by
  unfold startsGap at h
  split at h
  case h_7 => rw [skipGap] <;> assumption
  all_goals cases h

theorem not_startsGap_of_skipGap (h : scanner.skipGap p s = .ok place) :
    startsGap place.rest = false := by
  fun_induction skipGap scanner p s with
  | case1 p s ih | case2 p s ih | case3 p s ih | case4 p s ih => exact ih h
  | case5 => cases h
  | case6 p s _ _ hread ih => exact ih h
  | case7 p s ih => exact ih h
  | case8 p s =>
      cases h
      unfold startsGap
      split <;> simp_all

theorem skipGap_cons (scanner : Scanner) (p : Position) (s : List Char) {c : Char}
    (hc : c = ' ' ∨ c = '\t' ∨ c = '\n') :
    scanner.skipGap p (c :: s) = scanner.skipGap (p.next c) s := by
  rcases hc with rfl | rfl | rfl <;> rw [skipGap]

theorem skipGap_crlf (scanner : Scanner) (p : Position) (s : List Char) :
    scanner.skipGap p ('\r' :: '\n' :: s) = scanner.skipGap (p.after ['\r', '\n']) s := by
  rw [skipGap]

theorem skipGap_comment {text : List Char}
    (h : Region.read scanner.maxNesting [⟨.comment, p⟩] (p.after ['(', '*']) s = .ok (text, place)) :
    scanner.skipGap p ('(' :: '*' :: s) = scanner.skipGap place.pos place.rest := by
  rw [skipGap]
  split
  · simp_all
  · rename_i h'
    rw [h] at h'
    cases h'
    rfl

theorem skipGap_comment_error {f : Failure}
    (h : Region.read scanner.maxNesting [⟨.comment, p⟩] (p.after ['(', '*']) s = .error f) :
    scanner.skipGap p ('(' :: '*' :: s) = .error f := by
  rw [skipGap]
  split
  · rename_i h'
    rw [h] at h'
    cases h'
    rfl
  · simp_all

theorem skipGap_comment_bind (scanner : Scanner) (p : Position) (s : List Char) :
    scanner.skipGap p ('(' :: '*' :: s) =
      (Region.read scanner.maxNesting [⟨.comment, p⟩] (p.after ['(', '*']) s).bind
        fun result => scanner.skipGap result.2.pos result.2.rest := by
  cases h : Region.read scanner.maxNesting [⟨.comment, p⟩] (p.after ['(', '*']) s with
  | error f => exact skipGap_comment_error h
  | ok result => exact skipGap_comment h

theorem skipGap_line (scanner : Scanner) (p : Position) (s : List Char) :
    scanner.skipGap p ('/' :: '/' :: s) =
      scanner.skipGap (p.after ('/' :: '/' :: s.takeWhile (· ≠ '\n'))) (s.dropWhile (· ≠ '\n')) := by
  rw [skipGap]

/-- Only the limit of a scanner matters in gaps. -/
theorem skipGap_congr {scanner' : Scanner} (h : scanner'.maxNesting = scanner.maxNesting)
    (p : Position) (s : List Char) : scanner'.skipGap p s = scanner.skipGap p s := by
  fun_induction skipGap scanner p s with
  | case1 p s ih | case2 p s ih | case3 p s ih => rw [skipGap_cons _ _ _ (by simp), ih]
  | case4 p s ih => rw [skipGap_crlf, ih]
  | case5 p s f hread =>
      rw [skipGap_comment_bind, h, hread]
      rfl
  | case6 p s text mid hread ih =>
      rw [skipGap_comment_bind, h, hread]
      exact ih
  | case7 p s ih => rw [skipGap_line, ih]
  | case8 p s =>
      rw [skipGap] <;> assumption

theorem exists_of_skipGap (h : scanner.skipGap p s = .ok place) : ∃ u, s = u ++ place.rest := by
  obtain ⟨u, hu, -⟩ := reaches_of_skipGap h
  exact ⟨u, hu⟩

theorem exists_comment_of_skipGap {f : Failure} (h : scanner.skipGap p s = .error f) :
    ∃ q t, Region.read scanner.maxNesting [⟨.comment, q⟩] (q.after ['(', '*']) t = .error f := by
  fun_induction skipGap scanner p s with
  | case1 p s ih | case2 p s ih | case3 p s ih | case4 p s ih => exact ih h
  | case5 p s g hread =>
      cases h
      exact ⟨p, s, hread⟩
  | case6 p s text mid hread ih => exact ih h
  | case7 p s ih => exact ih h
  | case8 => cases h

end LexDef.Scanner

import LexDef.Proofs.Region.Locality
import LexDef.Proofs.Scanner.Gap
import LexDef.Proofs.Scanner.Token
/-!
# Reading lexemes is local

What a scanner reads depends on the characters that it takes and on one character behind them. So a
gap or a token is read again wherever the same characters stand: `skipGap_append`, `token_append`.
-/

namespace LexDef.Scanner

/-- Whether `rest'` may stand in the place of `rest` behind a token or a gap: it is empty, or goes
on as `rest` does, or on the next line. -/
def Follows (rest rest' : List Char) : Prop :=
  ∀ c u, rest' = c :: u → c = '\n' ∨ ∃ v, rest = c :: v

variable {scanner : Scanner} {p p' : Position} {s gap piece rest rest' : List Char}
  {place after : Place} {t : Token} {x : Lexeme} {c : Char}

theorem follows_nil (rest : List Char) : Follows rest [] := by
  intro c u h
  cases h

theorem follows_append_line (rest s : List Char) : Follows rest (rest ++ '\n' :: s) := by
  intro c u h
  cases rest with
  | nil => exact .inl (List.cons.inj h).1.symm
  | cons d rest => exact .inr ⟨rest, by rw [(List.cons.inj h).1]⟩

theorem Follows.append (h : Follows rest rest') (s : List Char) :
    Follows (s ++ rest) (s ++ rest') := by
  cases s with
  | nil => exact h
  | cons c s =>
      rintro d u hd
      obtain ⟨rfl, -⟩ := List.cons.inj hd
      exact .inr ⟨s ++ rest, rfl⟩

theorem exists_of_append_eq (first : List Char) {more tail : List Char}
    (h : first ++ more = piece ++ tail) (hmore : ∃ u, more = u ++ tail) :
    ∃ u, piece = first ++ u ∧ more = u ++ tail := by
  obtain ⟨u, rfl⟩ := hmore
  rw [← List.append_assoc] at h
  exact ⟨u, (List.append_cancel_right h).symm, rfl⟩

theorem takeWhile_line (s : List Char) : (∀ c ∈ s.takeWhile (· ≠ '\n'), c ≠ '\n') ∧
    ∀ c v, s.dropWhile (· ≠ '\n') = c :: v → c = '\n' := by
  constructor
  · intro c hc
    simpa using List.all_eq_true.1 List.all_takeWhile c hc
  · intro c v hv
    have hhead := List.head?_dropWhile_not (· ≠ '\n') s
    rw [hv] at hhead
    simpa using hhead

/-- The line that a comment takes ends where it did, if a line feed or nothing follows. -/
theorem takeWhile_append_of_line {line u : List Char} (hline : ∀ c ∈ line, c ≠ '\n')
    (hu : ∀ c v, u = c :: v → c = '\n') :
    (line ++ u).takeWhile (· ≠ '\n') = line ∧ (line ++ u).dropWhile (· ≠ '\n') = u := by
  have hall : ∀ c ∈ line, decide (c ≠ '\n') = true := by simpa using hline
  rw [List.takeWhile_append_of_pos hall, List.dropWhile_append_of_pos hall]
  cases u with
  | nil => simp
  | cons c v => simp [hu c v rfl]

theorem skipGap_line_append (scanner : Scanner) (p : Position) {line : List Char}
    (hline : ∀ c ∈ line, c ≠ '\n') {u : List Char} (hu : ∀ c v, u = c :: v → c = '\n') :
    scanner.skipGap p ('/' :: '/' :: (line ++ u)) =
      scanner.skipGap (p.after ('/' :: '/' :: line)) u := by
  obtain ⟨htake, hdrop⟩ := takeWhile_append_of_line hline hu
  rw [skipGap_line, htake, hdrop]

theorem skipGap_append (h : scanner.skipGap p s = .ok place) (hs : s = gap ++ place.rest)
    (hrest : Follows place.rest rest') (p' : Position) :
    scanner.skipGap p' (gap ++ rest') = scanner.skipGap (p'.after gap) rest' := by
  have hstuck := not_startsGap_of_skipGap h
  fun_induction skipGap scanner p s generalizing gap p' with
  | case1 p s ih | case2 p s ih | case3 p s ih =>
      obtain ⟨u, rfl, hu⟩ := exists_of_append_eq [_] hs (exists_of_skipGap h)
      simp only [List.cons_append, List.nil_append, Position.after_cons]
      rw [skipGap_cons _ _ _ (by simp)]
      exact ih h hu _
  | case4 p s ih =>
      obtain ⟨u, rfl, hu⟩ := exists_of_append_eq [_, _] hs (exists_of_skipGap h)
      simp only [List.cons_append, List.nil_append]
      rw [skipGap_crlf]
      exact ih h hu _
  | case5 => cases h
  | case6 p s text mid hread ih =>
      obtain ⟨comment, rfl, -⟩ := Region.reaches_of_read hread
      obtain ⟨u, rfl, hu⟩ :=
        exists_of_append_eq ('(' :: '*' :: comment) hs (exists_of_skipGap h)
      have hread' := Region.read_append hread rfl p' (p'.after ['(', '*']) (u ++ rest')
      simp only [List.cons_append, List.append_assoc]
      rw [skipGap_comment hread', ih h hu]
      simp
  | case7 p s ih =>
      obtain ⟨hline, hhead⟩ := takeWhile_line s
      obtain ⟨u, rfl, hu⟩ := exists_of_append_eq ('/' :: '/' :: s.takeWhile (· ≠ '\n'))
        (by simpa using hs) (exists_of_skipGap h)
      -- the line has ended in the gap, or with the text
      have hnext : ∀ c v, u ++ rest' = c :: v → c = '\n' := by
        intro c v hv
        cases u with
        | cons d u =>
            obtain ⟨rfl, -⟩ := List.cons.inj hv
            exact hhead d _ hu
        | nil =>
            rcases hrest c v hv with hc | ⟨w, hw⟩
            · exact hc
            · rw [hw] at hu hstuck
              rw [hhead c w hu] at hstuck
              cases hstuck
      simp only [List.cons_append, List.append_assoc]
      rw [skipGap_line_append scanner p' hline hnext, ih h hu]
      simp
  | case8 p s =>
      cases h
      obtain rfl : gap = [] := by simpa using hs
      rfl

theorem wordToken_append (hc : isWordStart c) (hs : c :: s = piece ++ (c :: s).dropWhile isWordChar)
    (hrest : Follows ((c :: s).dropWhile isWordChar) rest') (p p' : Position) :
    ∃ u, piece = c :: u ∧
      wordToken p' (piece ++ rest') = ((wordToken p (c :: s)).1, ⟨p'.after piece, rest'⟩) := by
  obtain rfl : piece = (c :: s).takeWhile isWordChar := by
    refine List.append_cancel_right (hs.symm.trans ?_)
    exact List.takeWhile_append_dropWhile.symm
  have hnext : ∀ d v, rest' = d :: v → isWordChar d = false := by
    intro d v hv
    rcases hrest d v hv with rfl | ⟨w, hw⟩
    · rfl
    · have := List.head?_dropWhile_not isWordChar (c :: s)
      rw [hw] at this
      exact this
  have hall : ∀ d ∈ (c :: s).takeWhile isWordChar, isWordChar d = true :=
    List.all_eq_true.1 List.all_takeWhile
  refine ⟨s.takeWhile isWordChar, List.takeWhile_cons_of_pos (isWordChar_of_isWordStart hc), ?_⟩
  unfold wordToken
  rw [List.takeWhile_append_of_pos hall, List.dropWhile_append_of_pos hall]
  cases rest' with
  | nil => simp
  | cons d v => simp [hnext d v rfl]

theorem token_append (h : scanner.token p s = .ok (t, after)) (ht : t ≠ .endOfText)
    (hs : s = piece ++ after.rest) (hrest : Follows after.rest rest') (p' : Position) :
    scanner.token p' (piece ++ rest') = .ok (t, ⟨p'.after piece, rest'⟩) := by
  cases takes_of_token h with
  | ended => contradiction
  | @character s rest f t hform htoken =>
      obtain rfl : piece = f.spelling := by
        refine List.append_cancel_right (hs.symm.trans (CharForm.eq_of_ofText? hform))
      have hwf := CharForm.wellFormed_of_ofText? hform
      exact characterToken_of_form (CharForm.ofText?_spelling hwf rest')
        (CharForm.token_moved htoken p')
  | @string s text after hread =>
      obtain ⟨body, rfl, -⟩ := Region.reaches_of_read hread
      obtain rfl : piece = '"' :: body := List.append_cancel_right hs.symm
      have hread' := Region.read_append hread rfl p' (p'.next '"') rest'
      change scanner.stringToken p' (body ++ rest') = _
      rw [stringToken, hread']
      rfl
  | @code s text after hread =>
      obtain ⟨body, rfl, -⟩ := Region.reaches_of_read hread
      obtain rfl : piece = '{' :: body := List.append_cancel_right hs.symm
      have hread' := Region.read_append hread rfl p' (p'.next '{') rest'
      change scanner.codeToken p' (body ++ rest') = _
      rw [codeToken_of_read hread']
      rfl
  | dropped => contradiction
  | @word c s hc =>
      obtain ⟨u, rfl, hword⟩ := wordToken_append hc hs hrest p p'
      rw [List.cons_append] at hword ⊢
      rw [token_of_wordStart scanner p' (u ++ rest') hc, hword]
  | @symbol c s t hc hsymbol =>
      obtain rfl : piece = [c] := List.append_cancel_right hs.symm
      exact token_of_symbol scanner p' rest' hc hsymbol

theorem not_startsGap_append (hpiece : piece ≠ [])
    (h : scanner.token p (piece ++ rest) = .ok (t, after))
    (hgap : startsGap (piece ++ rest) = false) (hrest : Follows rest rest') :
    startsGap (piece ++ rest') = false := by
  match piece with
  | c :: d :: piece =>
      simp only [List.cons_append] at hgap ⊢
      unfold startsGap at hgap ⊢
      grind
  | [c] =>
      have hc : c ≠ '\r' := by
        rintro rfl
        cases h
      simp only [List.cons_append, List.nil_append] at hgap ⊢
      cases rest' with
      | nil =>
          unfold startsGap at hgap ⊢
          grind
      | cons d u =>
          rcases hrest d u rfl with rfl | ⟨v, rfl⟩
          · unfold startsGap at hgap ⊢
            grind
          · unfold startsGap at hgap ⊢
            grind

theorem skipGap_alone (h : scanner.skipGap p s = .ok place) (hs : s = gap ++ place.rest)
    (q : Position) : scanner.skipGap q gap = .ok ⟨q.after gap, []⟩ := by
  have hskip := skipGap_append h hs (follows_nil _) q
  rw [List.append_nil] at hskip
  rw [hskip]
  exact skipGap_of_not_startsGap scanner _ rfl

/-- A lexeme that is read at a place, with the gap before it and the piece of the text that it
covers. -/
structure Cut (scanner : Scanner) (place : Place) (x : Lexeme) (after : Place)
    (gap piece : List Char) : Prop where
  rest : place.rest = gap ++ (piece ++ after.rest)
  ne_nil : piece ≠ []
  start : x.start = place.pos.after gap
  stop : x.stop = x.start.after piece
  pos : after.pos = x.stop
  skipped : scanner.skipGap place.pos place.rest = .ok ⟨x.start, piece ++ after.rest⟩
  taken : scanner.token x.start (piece ++ after.rest) = .ok (x.token, after)
  ne_end : x.token ≠ .endOfText

theorem exists_cut (h : scanner.next place = .ok (x, after)) (hx : x.token ≠ .endOfText) :
    ∃ gap piece, Cut scanner place x after gap piece := by
  obtain ⟨mid, hgap, htoken, hlexeme⟩ := exists_of_next h
  obtain ⟨gap, hrest, hpos⟩ := reaches_of_skipGap hgap
  obtain ⟨piece, hpiece, hmid, hafter⟩ := exists_of_token htoken hx
  have hstart : x.start = mid.pos := congrArg Lexeme.start hlexeme
  have hstop : x.stop = after.pos := congrArg Lexeme.stop hlexeme
  refine ⟨gap, piece, ?_, hpiece, ?_, ?_, hstop.symm, ?_, ?_, hx⟩
  · rw [hrest, hmid]
  · rw [hstart, hpos]
  · rw [hstop, hafter, hstart]
  · rw [hgap, hstart, ← hmid]
  · rw [hstart, ← hmid, htoken]

namespace Cut

theorem reaches_start (h : Cut scanner place x after gap piece) :
    place.Reaches ⟨x.start, piece ++ after.rest⟩ :=
  ⟨gap, h.rest, h.start⟩

theorem start_reaches (h : Cut scanner place x after gap piece) :
    Place.Reaches ⟨x.start, piece ++ after.rest⟩ after :=
  ⟨piece, rfl, h.pos.trans h.stop⟩

theorem next_piece (h : Cut scanner place x after gap piece) (hrest : Follows after.rest rest')
    (q : Position) :
    scanner.next ⟨q, piece ++ rest'⟩ =
      .ok (⟨x.token, q, q.after piece⟩, ⟨q.after piece, rest'⟩) := by
  have hgap : startsGap (piece ++ after.rest) = false := not_startsGap_of_skipGap h.skipped
  have hgap' := not_startsGap_append h.ne_nil h.taken hgap hrest
  have hskip := skipGap_of_not_startsGap scanner q hgap'
  have htoken := token_append h.taken h.ne_end rfl hrest q
  rw [next, hskip]
  simp only [htoken]

theorem next_append (h : Cut scanner place x after gap piece) (hrest : Follows after.rest rest')
    (q : Position) :
    scanner.next ⟨q, gap ++ (piece ++ rest')⟩ =
      .ok (⟨x.token, q.after gap, (q.after gap).after piece⟩, ⟨(q.after gap).after piece, rest'⟩) := by
  have hskip := skipGap_append h.skipped h.rest (hrest.append piece) q
  have hpiece := h.next_piece hrest (q.after gap)
  rw [next] at hpiece ⊢
  rw [hskip]
  exact hpiece

end Cut

end LexDef.Scanner

import LexDef.Proofs.Region.Unterminated
import LexDef.Proofs.Scanner.Chain
/-!
# What becomes of unclosed code

The setting for code that is open where the text ends makes a difference only there. What is read
while such code is refused is read in the same way under both settings.
-/

namespace LexDef.Scanner

open Region (modes)

def withUnclosedCode (scanner : Scanner) (unclosedCode : UnclosedCode) : Scanner :=
  { scanner with unclosedCode }

variable {scanner : Scanner} {place after : Place} {p q : Position} {s : List Char} {x : Lexeme}
  {xs : List Lexeme} {t : Token} {f : Failure}

theorem skipGap_withUnclosedCode (scanner : Scanner) (unclosedCode : UnclosedCode) (p : Position)
    (s : List Char) :
    (scanner.withUnclosedCode unclosedCode).skipGap p s = scanner.skipGap p s := by
  apply skipGap_congr
  rfl

theorem token_of_refused (h : (scanner.withUnclosedCode .refused).token p s = .ok (t, after)) :
    scanner.token p s = .ok (t, after) := by
  cases takes_of_token h with
  | ended => rfl
  | character hform ht => exact characterToken_of_form hform ht
  | string hread => exact stringToken_of_read hread
  | code hread => exact codeToken_of_read hread
  | dropped hread hfault hset => cases hset
  | word hc => exact token_of_wordStart scanner p _ hc
  | symbol hc ht => exact token_of_symbol scanner p _ hc ht

theorem next_of_refused (h : (scanner.withUnclosedCode .refused).next place = .ok (x, after)) :
    scanner.next place = .ok (x, after) := by
  obtain ⟨gap, hgap, htoken, hx⟩ := exists_of_next h
  rw [skipGap_withUnclosedCode] at hgap
  rw [hx]
  exact next_of_token hgap (token_of_refused htoken)

theorem Chain.of_refused (h : Chain (scanner.withUnclosedCode .refused) place xs after) :
    Chain scanner place xs after := by
  induction h with
  | nil place => exact .nil place
  | cons head ne_end tail ih => exact .cons (next_of_refused head) ne_end ih

theorem skipGap_of_refused (h : (scanner.withUnclosedCode .refused).next place = .ok (x, after))
    (hx : x.token = .endOfText) : ∃ p, scanner.skipGap place.pos place.rest = .ok ⟨p, []⟩ := by
  obtain ⟨gap, hgap, htoken, -⟩ := exists_of_next h
  rw [skipGap_withUnclosedCode] at hgap
  obtain ⟨p, s⟩ := gap
  obtain ⟨-, rfl | hset⟩ := end_cases htoken hx
  · exact ⟨p, hgap⟩
  · cases hset

/-- Code that the text ends in is reported only by the token that it belongs to. -/
theorem ne_code_of_read_error {k : Region.Kind} {limit : Nat}
    (h : Region.read limit [⟨k, p⟩] q s = .error f) (hk : k.host = .comment) (p' : Position) :
    f.error.fault ≠ .unterminated ⟨.code, p'⟩ := by
  intro hf
  obtain ⟨outer, -, hn, hlast, -⟩ :=
    (Region.read_eq_error_iff.1 h).unterminated (fun _ ho => absurd ho List.not_mem_nil) hf
  have hhost := Region.host_of_nested hn (o := ⟨k, p⟩) (List.mem_of_getLast? hlast)
  rw [hk] at hhost
  cases hhost

theorem token_of_refused_error (h : (scanner.withUnclosedCode .refused).token p s = .error f) :
    ((∀ q, f.error.fault ≠ .unterminated ⟨.code, q⟩) ∧
      (scanner.withUnclosedCode .dropped).token p s = .error f) ∨
    ∃ q outer code, s = '{' :: code ∧
      f.error = { fault := .unterminated ⟨.code, q⟩, enclosing := modes outer } ∧
      (⟨.code, q⟩ :: outer).getLast? = some ⟨.code, p⟩ ∧
      (scanner.withUnclosedCode .dropped).token p s = .ok (.endOfText, ⟨p.after s, []⟩) := by
  cases rejects_of_token h with
  | unknown hform hopen hc ht =>
      refine .inl ⟨fun q hf => Fault.noConfusion hf, ?_⟩
      rw [← h]
      exact token_congr _ _ p (by grind) (by grind)
  | character hform ht =>
      refine .inl ⟨fun q hf => ?_, ?_⟩
      · obtain ⟨code, -, rfl⟩ | ⟨code, -, rfl⟩ | rfl :=
          CharForm.token_error (CharForm.wellFormed_of_ofText? hform) ht
        all_goals cases hf
      · rw [← h]
        exact token_congr _ _ p (by simp) (by simp)
  | string hread => exact .inl ⟨ne_code_of_read_error hread rfl, stringToken_of_error hread⟩
  | @code s f hread =>
      by_cases hf : ∃ q, f.error.fault = .unterminated ⟨.code, q⟩
      · obtain ⟨q, hf⟩ := hf
        obtain ⟨outer, herror, -, hlast, hstop⟩ :=
          (Region.read_eq_error_iff.1 hread).unterminated (fun _ ho => absurd ho List.not_mem_nil) hf
        refine .inr ⟨q, outer, s, rfl, herror, hlast, ?_⟩
        have hdropped : (scanner.withUnclosedCode .dropped).codeToken p s =
            .ok (.endOfText, ⟨f.stop, []⟩) := codeToken_of_unclosed hread hf
        rw [hstop] at hdropped
        exact hdropped
      · have hother := fun q hq => hf ⟨q, hq⟩
        exact .inl ⟨hother, codeToken_of_other hread hother⟩

theorem next_of_refused_error (h : (scanner.withUnclosedCode .refused).next place = .error f) :
    ((∀ q, f.error.fault ≠ .unterminated ⟨.code, q⟩) ∧
      (scanner.withUnclosedCode .dropped).next place = .error f) ∨
    ∃ p q outer code, scanner.skipGap place.pos place.rest = .ok ⟨p, '{' :: code⟩ ∧
      f.error = { fault := .unterminated ⟨.code, q⟩, enclosing := modes outer } ∧
      (⟨.code, q⟩ :: outer).getLast? = some ⟨.code, p⟩ ∧
      (scanner.withUnclosedCode .dropped).next place =
        .ok ({ token := .endOfText, start := p, stop := p.after ('{' :: code) },
          ⟨p.after ('{' :: code), []⟩) := by
  rcases cases_of_next_error h with hgap | ⟨gap, hgap, htoken⟩
  · rw [skipGap_withUnclosedCode] at hgap
    obtain ⟨q, t, hread⟩ := exists_comment_of_skipGap hgap
    rw [← skipGap_withUnclosedCode scanner .dropped] at hgap
    exact .inl ⟨ne_code_of_read_error hread rfl, next_of_gap_error hgap⟩
  · rw [skipGap_withUnclosedCode] at hgap
    have hgap' := (skipGap_withUnclosedCode scanner .dropped _ _).trans hgap
    obtain ⟨p, s⟩ := gap
    rcases token_of_refused_error htoken with
      ⟨hf, htoken'⟩ | ⟨q, outer, code, rfl, herror, hlast, hdropped⟩
    · exact .inl ⟨hf, next_of_token_error hgap' htoken'⟩
    · exact .inr ⟨p, q, outer, code, hgap, herror, hlast, next_of_token hgap' hdropped⟩

end LexDef.Scanner

import LexDef.Proofs.Region.Continuation
import LexDef.Proofs.Scanner.Chain
/-!
# Regions one behind the other

A region that has been closed leaves no trace in the count of open regions. So regions that can be
read one at a time can be read one behind the other, however many they are, between tokens as well
as inside other regions.
-/

namespace LexDef

namespace Region

/-- Whether `s` is one region from its opening to its closing delimiter, and at most `depth` regions
are open at once in it. -/
def Kind.Spans (k : Kind) (depth : Nat) (s : List Char) : Prop :=
  0 < depth ∧ ∃ body text stop, s = k.opener ++ body ∧
    read depth [⟨k, {}⟩] (({} : Position).after k.opener) body = .ok (text, ⟨stop, []⟩)

variable {depth limit : Nat} {k : Kind} {r : Region} {outer : List Region} {w s : List Char}

theorem Kind.Spans.read_eq (h : k.Spans depth w) (p : Position) (s : List Char) :
    ∃ body text, w = k.opener ++ body ∧
      read depth [⟨k, p⟩] (p.after k.opener) (body ++ s) = .ok (text, ⟨p.after w, s⟩) := by
  obtain ⟨-, body, text, stop, rfl, hread⟩ := h
  refine ⟨body, text, rfl, ?_⟩
  rw [Position.after_append]
  exact read_append hread (List.append_nil body).symm p (p.after k.opener) s

theorem Kind.Spans.leads (h : k.Spans depth w) (hk : k.host = r.kind)
    (hlimit : (r :: outer).length + depth ≤ limit) (p : Position) (s : List Char) :
    ∃ text, Leads limit (r :: outer) ⟨p, w ++ s⟩ text (r :: outer) ⟨p.after w, s⟩ := by
  have hlen : (r :: outer).length < limit := by
    have := h.1
    omega
  obtain ⟨body, text, rfl, hread⟩ := h.read_eq p s
  obtain ⟨first, hopen⟩ := leads_of_opener hk hlen p (body ++ s)
  have hinner : Leads limit (⟨k, p⟩ :: r :: outer) ⟨p.after k.opener, body ++ s⟩ text (r :: outer)
      ⟨p.after (k.opener ++ body), s⟩ :=
    (read_eq_ok_iff.1 hread).leads (r :: outer) (by omega)
  rw [List.append_assoc]
  exact ⟨first ++ text, hopen.trans hinner⟩

theorem leads_of_spans {pieces : List (List Char)}
    (h : ∀ w ∈ pieces, ∃ k : Kind, k.host = r.kind ∧ k.Spans depth w)
    (hlimit : (r :: outer).length + depth ≤ limit) (p : Position) (s : List Char) :
    ∃ text, Leads limit (r :: outer) ⟨p, pieces.flatten ++ s⟩ text (r :: outer)
      ⟨p.after pieces.flatten, s⟩ := by
  induction pieces generalizing p with
  | nil => exact ⟨[], .refl limit (r :: outer) ⟨p, s⟩⟩
  | cons w pieces ih =>
      obtain ⟨k, hk, hw⟩ := h w List.mem_cons_self
      obtain ⟨first, hfirst⟩ := hw.leads hk hlimit p (pieces.flatten ++ s)
      obtain ⟨text, hlater⟩ := ih (fun w hw => h w (List.mem_cons_of_mem _ hw)) (p.after w)
      rw [List.flatten_cons, List.append_assoc, Position.after_append]
      exact ⟨first ++ text, hfirst.trans hlater⟩

end Region

namespace Scanner

variable {scanner : Scanner} {k : Region.Kind} {w : List Char}

/-- A region between tokens is passed as a gap or read as one lexeme. -/
theorem runFrom_of_spans (hk : k ≠ .codeString) (h : k.Spans scanner.maxNesting w) (p : Position)
    (s : List Char) :
    (scanner.runFrom ⟨p, w ++ s⟩).final = (scanner.runFrom ⟨p.after w, s⟩).final := by
  obtain ⟨body, text, rfl, hread⟩ := h.read_eq p s
  cases k with
  | codeString => contradiction
  | comment =>
      have hnext : scanner.next ⟨p, '(' :: '*' :: (body ++ s)⟩ =
          scanner.next ⟨p.after ('(' :: '*' :: body), s⟩ := next_of_skipGap (skipGap_comment hread)
      exact congrArg Run.final (runFrom_congr hnext)
  | string =>
      have hnext : scanner.next ⟨p, '"' :: (body ++ s)⟩ = .ok (⟨.string _, _, _⟩, _) :=
        next_of_token (skipGap_of_not_startsGap scanner p rfl) (stringToken_of_read hread)
      have hfinal := congrArg Run.final (runFrom_of_ok hnext Token.noConfusion)
      exact hfinal
  | code =>
      have hnext : scanner.next ⟨p, '{' :: (body ++ s)⟩ = .ok (⟨.code _, _, _⟩, _) :=
        next_of_token (skipGap_of_not_startsGap scanner p rfl) (codeToken_of_read hread)
      have hfinal := congrArg Run.final (runFrom_of_ok hnext Token.noConfusion)
      exact hfinal

theorem lexemes_of_spans {pieces : List (List Char)}
    (h : ∀ w ∈ pieces, ∃ k : Region.Kind, k ≠ .codeString ∧ k.Spans scanner.maxNesting w) :
    ∃ xs, scanner.lexemes (String.ofList pieces.flatten) = .ok xs := by
  have hfinal : ∀ p, ∃ last, (scanner.runFrom ⟨p, pieces.flatten⟩).final = .ok last := by
    induction pieces with
    | nil =>
        intro p
        exact ⟨_, congrArg Run.final (runFrom_of_end (next_end scanner p) rfl)⟩
    | cons w pieces ih =>
        intro p
        obtain ⟨k, hk, hw⟩ := h w List.mem_cons_self
        rw [List.flatten_cons, runFrom_of_spans hk hw]
        exact ih (fun w hw => h w (List.mem_cons_of_mem _ hw)) _
  obtain ⟨last, hlast⟩ := hfinal {}
  refine ⟨(scanner.runFrom ⟨{}, pieces.flatten⟩).lexemes ++ [last.1], ?_⟩
  rw [lexemes, run, Place.ofString, String.toList_ofList]
  simp only [hlast]

end Scanner

end LexDef

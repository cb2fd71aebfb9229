import LexDef.Proofs.Scanner.Unclosed
import LexDef.Proofs.Stream.Items
/-!
# Code that the text ends in

Under the two settings for unclosed code every text is read in the same way, except that code which
the text ends in is an error under the one and the end of the text under the other.
-/

namespace LexDef

open Region (modes)
open Scanner

/-- Both settings give the same lexemes up to one place. They can differ in what is read there. -/
theorem exists_run_dropped (scanner : Scanner) (text : String) :
    ∃ place, Chain (scanner.withUnclosedCode .refused) (.ofString text)
        ((scanner.withUnclosedCode .refused).run text).lexemes place ∧
      ((scanner.withUnclosedCode .refused).run text).final =
        (scanner.withUnclosedCode .refused).next place ∧
      (scanner.withUnclosedCode .dropped).run text =
        { lexemes := ((scanner.withUnclosedCode .refused).run text).lexemes
          final := (scanner.withUnclosedCode .dropped).next place } := by
  obtain ⟨place, hchain, hfinal, hend⟩ :=
    exists_chain_run (scanner.withUnclosedCode .refused) text
  have hdropped : Chain (scanner.withUnclosedCode .dropped) _ _ _ := Chain.of_refused hchain
  refine ⟨place, hchain, hfinal, hdropped.runFrom_eq.trans ?_⟩
  cases hnext : (scanner.withUnclosedCode .refused).next place with
  | ok result =>
      obtain ⟨x, after⟩ := result
      have hnext' : (scanner.withUnclosedCode .dropped).next place = .ok (x, after) :=
        next_of_refused hnext
      rw [runFrom_of_end hnext' (hend x after hnext), hnext', List.append_nil]
  | error f =>
      rcases next_of_refused_error hnext with ⟨-, hnext'⟩ | ⟨p, q, outer, code, -, -, -, hnext'⟩
      · rw [runFrom_of_error hnext', hnext', List.append_nil]
      · rw [runFrom_of_end hnext' rfl, hnext', List.append_nil]

/-- What the setting for unclosed code decides. Both runs are the same, unless the text ends in code
outside any string in it: in place of the error, which names the innermost brace and those around it,
the text then ends at the outermost one. No lexeme reaches into the code that is left out. -/
theorem run_unclosedCode (scanner : Scanner) (text : String) :
    let refused := (scanner.withUnclosedCode .refused).run text
    let dropped := (scanner.withUnclosedCode .dropped).run text
    match refused.last with
    | .ok _ => dropped = refused
    | .error e =>
      match e.fault with
      | .unterminated ⟨.code, p⟩ => ∃ outer before code start,
          e = { fault := .unterminated ⟨.code, p⟩, enclosing := modes outer } ∧
          start = ((⟨.code, p⟩ :: outer).getLast (List.cons_ne_nil _ _)).start ∧
          text.toList = before ++ '{' :: code ∧ start = ({} : Position).after before ∧
          dropped.lexemes = refused.lexemes ∧ (∀ x ∈ dropped.lexemes, x.stop ≤ start) ∧
          dropped.last =
            .ok { token := .endOfText, start, stop := ({} : Position).after text.toList }
      | _ => dropped = refused := by
  intro refused dropped
  obtain ⟨place, hchain, hfinal, hdropped⟩ := exists_run_dropped scanner text
  change refused.final = _ at hfinal
  change dropped = ⟨refused.lexemes, _⟩ at hdropped
  have hsame (h : (scanner.withUnclosedCode .dropped).next place = refused.final) :
      dropped = refused := by
    rw [hdropped, h]
  unfold Run.last
  cases hnext : (scanner.withUnclosedCode .refused).next place with
  | ok result =>
      rw [hnext] at hfinal
      rw [hfinal]
      have hnext' : (scanner.withUnclosedCode .dropped).next place = .ok result :=
        next_of_refused hnext
      exact hsame (hnext'.trans hfinal.symm)
  | error f =>
      rw [hnext] at hfinal
      simp only [hfinal]
      rcases next_of_refused_error hnext with
        ⟨hother, hnext'⟩ | ⟨p, q, outer, code, hgap, herror, houtermost, hnext'⟩
      · split
        · rename_i hcode
          exact absurd hcode (hother _)
        · exact hsame (hnext'.trans hfinal.symm)
      · have hreach := hchain.reaches.trans (reaches_of_skipGap hgap)
        obtain ⟨before, htext, hp⟩ := Place.exists_of_ofString_reaches hreach
        rw [List.getLast?_eq_some_getLast (List.cons_ne_nil _ _), Option.some.injEq] at houtermost
        have hstop : p.after ('{' :: code) = ({} : Position).after text.toList := by
          rw [htext, Position.after_append, ← hp]
        have hlexemes : dropped.lexemes = refused.lexemes := by rw [hdropped]
        have hlast : dropped.final = _ := (congrArg Run.final hdropped).trans hnext'
        rw [hstop] at hlast
        rw [herror, hlexemes, hlast]
        refine ⟨outer, before, code, p, rfl, by rw [houtermost], htext, hp, rfl, ?_, rfl⟩
        intro x hx
        obtain ⟨a, b, gap, piece, -, cut, hb⟩ := hchain.exists_cut hx
        rw [← cut.pos]
        exact (hb.trans (reaches_of_skipGap hgap)).le

/-- A string in code that the text ends in is an error under both settings. -/
example :
    ({ unclosedCode := .dropped, maxNesting_pos := by decide } : Scanner).lexemes "a \x7bb\x7b\"" =
      .error
        { fault := .unterminated ⟨.codeString, ⟨1, 6, 5⟩⟩
          enclosing := modes [⟨.code, ⟨1, 5, 4⟩⟩, ⟨.code, ⟨1, 3, 2⟩⟩] } := by
  decide +kernel

end LexDef

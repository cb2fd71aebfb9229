import LexDef.Proofs.Position
import LexDef.Proofs.Region.Steps
import LexDef.Proofs.Scanner.Gap
import LexDef.Proofs.Scanner.Token
import Mathlib.Logic.Relation
/-!
# Reading in single moves

All that a scanner does in any mode is a chain of single moves: it passes a piece of a gap, takes a
whole token, or takes a step inside the open regions. A move takes at least one character, and a
line feed only as a line break of its own.
-/

namespace LexDef

namespace Scanner

structure Reader where
  opened : List Region
  place : Place

inductive Advance (scanner : Scanner) : Reader → Reader → Prop where
  | blank {p : Position} {c : Char} {s : List Char} (hc : c = ' ' ∨ c = '\t' ∨ c = '\n') :
      Advance scanner ⟨[], ⟨p, c :: s⟩⟩ ⟨[], ⟨p.next c, s⟩⟩
  | crlf {p : Position} {s : List Char} :
      Advance scanner ⟨[], ⟨p, '\r' :: '\n' :: s⟩⟩ ⟨[], ⟨p.after ['\r', '\n'], s⟩⟩
  | lineComment {p : Position} {s : List Char} :
      Advance scanner ⟨[], ⟨p, '/' :: '/' :: s⟩⟩
        ⟨[], ⟨p.after ('/' :: '/' :: s.takeWhile (· ≠ '\n')), s.dropWhile (· ≠ '\n')⟩⟩
  | comment {p : Position} {s : List Char} :
      Advance scanner ⟨[], ⟨p, '(' :: '*' :: s⟩⟩ ⟨[⟨.comment, p⟩], ⟨p.after ['(', '*'], s⟩⟩
  | string {p : Position} {s : List Char} :
      Advance scanner ⟨[], ⟨p, '"' :: s⟩⟩ ⟨[⟨.string, p⟩], ⟨p.next '"', s⟩⟩
  | code {p : Position} {s : List Char} :
      Advance scanner ⟨[], ⟨p, '{' :: s⟩⟩ ⟨[⟨.code, p⟩], ⟨p.next '{', s⟩⟩
  | character {p : Position} {s rest : List Char} {f : CharForm}
      (hform : CharForm.ofText? ('\'' :: s) = some (f, rest)) :
      Advance scanner ⟨[], ⟨p, '\'' :: s⟩⟩ ⟨[], ⟨p.after f.spelling, rest⟩⟩
  | word {p : Position} {c : Char} {s : List Char} (hc : isWordStart c) :
      Advance scanner ⟨[], ⟨p, c :: s⟩⟩ ⟨[], (wordToken p (c :: s)).2⟩
  | symbol {p : Position} {c : Char} {s : List Char} {t : Token}
      (hgap : startsGap (c :: s) = false) (hc : isWordStart c = false)
      (ht : Token.symbol? c = some t) :
      Advance scanner ⟨[], ⟨p, c :: s⟩⟩ ⟨[], ⟨p.next c, s⟩⟩
  | region {r : Region} {outer opened : List Region} {p : Position} {c : Char} {s : List Char}
      {st : Region.Step} (hstep : r.step p c s = .ok st)
      (hmove : st.move.apply scanner.maxNesting r outer = .ok opened) :
      Advance scanner ⟨r :: outer, ⟨p, c :: s⟩⟩ ⟨opened, st.after p c s⟩

abbrev Advances (scanner : Scanner) : Reader → Reader → Prop :=
  Relation.ReflTransGen (Advance scanner)

inductive Halts (scanner : Scanner) : Reader → Failure → Prop where
  | unknown {p : Position} {c : Char} {s : List Char} (hgap : startsGap (c :: s) = false)
      (hform : CharForm.ofText? (c :: s) = none) (hopen : c ≠ '"' ∧ c ≠ '{')
      (hc : isWordStart c = false) (ht : Token.symbol? c = none) :
      Halts scanner ⟨[], ⟨p, c :: s⟩⟩ { error := { fault := .unexpected c p }, stop := p }
  | character {p : Position} {s rest : List Char} {f : CharForm} {fault : Fault}
      (hform : CharForm.ofText? ('\'' :: s) = some (f, rest)) (ht : f.token p = .error fault) :
      Halts scanner ⟨[], ⟨p, '\'' :: s⟩⟩
        { error := { fault, location := some p }, stop := p.after f.spelling }
  | ended {r : Region} {outer : List Region} {p : Position} :
      Halts scanner ⟨r :: outer, ⟨p, []⟩⟩
        { error := { fault := .unterminated r, enclosing := Region.modes outer }, stop := p }
  | fault {r : Region} {outer : List Region} {p : Position} {c : Char} {s : List Char} {e : Error}
      (hstep : r.step p c s = .error e) :
      Halts scanner ⟨r :: outer, ⟨p, c :: s⟩⟩
        { error := e.inside (Region.modes outer), stop := p.next c }
  | refused {r : Region} {outer : List Region} {p : Position} {c : Char} {s : List Char}
      {st : Region.Step} {e : Error} (hstep : r.step p c s = .ok st)
      (hmove : st.move.apply scanner.maxNesting r outer = .error e) :
      Halts scanner ⟨r :: outer, ⟨p, c :: s⟩⟩ { error := e, stop := (st.after p c s).pos }

def FailsFrom (scanner : Scanner) (a : Reader) (f : Failure) : Prop :=
  ∃ b, Advances scanner a b ∧ Halts scanner b f

variable {scanner : Scanner} {a b : Reader} {place place' after : Place} {opened : List Region}
  {p : Position} {s text : List Char} {f : Failure} {x : Lexeme} {t : Token}

theorem FailsFrom.head (h : FailsFrom scanner b f) (hmoves : Advances scanner a b) :
    FailsFrom scanner a f := by
  obtain ⟨c, hlater, hhalts⟩ := h
  exact ⟨c, hmoves.trans hlater, hhalts⟩

theorem advances_of_reads (h : Region.Reads scanner.maxNesting opened place text place') :
    Advances scanner ⟨opened, place⟩ ⟨[], place'⟩ := by
  induction h with
  | done place => exact .refl
  | step hstep hmove h ih => exact .head (.region hstep hmove) ih

theorem failsFrom_of_fails (h : Region.Fails scanner.maxNesting opened place f) :
    FailsFrom scanner ⟨opened, place⟩ f := by
  induction h with
  | ended r outer p => exact ⟨_, .refl, .ended⟩
  | fault hstep => exact ⟨_, .refl, .fault hstep⟩
  | refused hstep hmove => exact ⟨_, .refl, .refused hstep hmove⟩
  | step hstep hmove h ih => exact ih.head (.single (.region hstep hmove))

theorem advances_of_skipGap (h : scanner.skipGap p s = .ok place) :
    Advances scanner ⟨[], ⟨p, s⟩⟩ ⟨[], place⟩ := by
  fun_induction skipGap scanner p s with
  | case1 p s ih => exact .head (.blank (.inl rfl)) (ih h)
  | case2 p s ih => exact .head (.blank (.inr (.inl rfl))) (ih h)
  | case3 p s ih => exact .head (.blank (.inr (.inr rfl))) (ih h)
  | case4 p s ih => exact .head .crlf (ih h)
  | case5 => cases h
  | case6 p s text mid hread ih =>
      have hreads := advances_of_reads (Region.read_eq_ok_iff.1 hread)
      exact .head .comment (hreads.trans (ih h))
  | case7 p s ih => exact .head .lineComment (ih h)
  | case8 => cases h; exact .refl

theorem failsFrom_of_skipGap (h : scanner.skipGap p s = .error f) :
    FailsFrom scanner ⟨[], ⟨p, s⟩⟩ f := by
  fun_induction skipGap scanner p s with
  | case1 p s ih => exact (ih h).head (.single (.blank (.inl rfl)))
  | case2 p s ih => exact (ih h).head (.single (.blank (.inr (.inl rfl))))
  | case3 p s ih => exact (ih h).head (.single (.blank (.inr (.inr rfl))))
  | case4 p s ih => exact (ih h).head (.single .crlf)
  | case5 p s g hread =>
      cases h
      exact (failsFrom_of_fails (Region.read_eq_error_iff.1 hread)).head (.single .comment)
  | case6 p s text mid hread ih =>
      have hreads := advances_of_reads (Region.read_eq_ok_iff.1 hread)
      exact (ih h).head (.head .comment hreads)
  | case7 p s ih => exact (ih h).head (.single .lineComment)
  | case8 => cases h

theorem failsFrom_of_rejects (hgap : startsGap s = false) (h : Rejects scanner p s f) :
    FailsFrom scanner ⟨[], ⟨p, s⟩⟩ f := by
  cases h with
  | unknown hform hopen hc ht => exact ⟨_, .refl, .unknown hgap hform hopen hc ht⟩
  | character hform ht => exact ⟨_, .refl, .character hform ht⟩
  | string hread =>
      exact (failsFrom_of_fails (Region.read_eq_error_iff.1 hread)).head (.single .string)
  | code hread =>
      exact (failsFrom_of_fails (Region.read_eq_error_iff.1 hread)).head (.single .code)

theorem advances_of_unterminated {r : Region}
    (h : Region.Fails scanner.maxNesting opened place f) (hf : f.error.fault = .unterminated r) :
    ∃ outer, Advances scanner ⟨opened, place⟩ ⟨r :: outer, ⟨f.stop, []⟩⟩ := by
  induction h with
  | ended r outer p =>
      cases hf
      exact ⟨outer, .refl⟩
  | fault hstep =>
      obtain ⟨-, -, code, -, rfl⟩ := Region.step_error hstep
      cases hf
  | refused hstep hmove =>
      obtain ⟨inner, -, -, rfl⟩ := Region.apply_error hmove
      cases hf
  | step hstep hmove h ih =>
      obtain ⟨outer, hmoves⟩ := ih hf
      exact ⟨outer, .head (.region hstep hmove) hmoves⟩

/-- A token is read in moves; only code that the text ends in stays open. -/
theorem advances_of_takes (hgap : startsGap s = false) (h : Takes scanner p s t after) :
    ∃ opened, (t ≠ .endOfText → opened = []) ∧
      Advances scanner ⟨[], ⟨p, s⟩⟩ ⟨opened, after⟩ := by
  cases h with
  | ended => exact ⟨[], fun _ => rfl, .refl⟩
  | character hform htoken => exact ⟨[], fun _ => rfl, .single (.character hform)⟩
  | string hread =>
      exact ⟨[], fun _ => rfl, .head .string (advances_of_reads (Region.read_eq_ok_iff.1 hread))⟩
  | code hread =>
      exact ⟨[], fun _ => rfl, .head .code (advances_of_reads (Region.read_eq_ok_iff.1 hread))⟩
  | dropped hread hfault hset =>
      obtain ⟨outer, hmoves⟩ := advances_of_unterminated (Region.read_eq_error_iff.1 hread) hfault
      exact ⟨_, fun ht => absurd rfl ht, .head .code hmoves⟩
  | word hc => exact ⟨[], fun _ => rfl, .single (.word hc)⟩
  | symbol hc hsymbol => exact ⟨[], fun _ => rfl, .single (.symbol hgap hc hsymbol)⟩

theorem advances_of_next (h : scanner.next place = .ok (x, after)) :
    ∃ gap opened, Advances scanner ⟨[], place⟩ ⟨[], gap⟩ ∧
      Advances scanner ⟨[], gap⟩ ⟨opened, after⟩ ∧ x.start = gap.pos ∧ x.stop = after.pos := by
  obtain ⟨gap, hgap, htoken, hx⟩ := exists_of_next h
  have hstuck := not_startsGap_of_skipGap hgap
  obtain ⟨opened, -, hmoves⟩ := advances_of_takes hstuck (takes_of_token htoken)
  exact ⟨gap, opened, advances_of_skipGap hgap, hmoves, congrArg Lexeme.start hx,
    congrArg Lexeme.stop hx⟩

theorem advances_of_next_ne_end (h : scanner.next place = .ok (x, after))
    (hx : x.token ≠ .endOfText) : Advances scanner ⟨[], place⟩ ⟨[], after⟩ := by
  obtain ⟨gap, hgap, htoken, -⟩ := exists_of_next h
  have hstuck := not_startsGap_of_skipGap hgap
  obtain ⟨opened, hclosed, hmoves⟩ := advances_of_takes hstuck (takes_of_token htoken)
  obtain rfl := hclosed hx
  exact (advances_of_skipGap hgap).trans hmoves

theorem failsFrom_of_next (h : scanner.next place = .error f) :
    FailsFrom scanner ⟨[], place⟩ f := by
  rcases cases_of_next_error h with hgap | ⟨gap, hgap, htoken⟩
  · exact failsFrom_of_skipGap hgap
  · have hstuck := not_startsGap_of_skipGap hgap
    exact (failsFrom_of_rejects hstuck (rejects_of_token htoken)).head (advances_of_skipGap hgap)

/-- A move takes a piece of one line, or a line break. -/
theorem Advance.exists_piece (h : Advance scanner a b) :
    ∃ piece, piece ≠ [] ∧ Region.TakenAtOnce piece ∧ a.place.rest = piece ++ b.place.rest ∧
      b.place.pos = a.place.pos.after piece := by
  cases h with
  | @blank p c s hc => exact ⟨[c], by simp, Region.takenAtOnce_singleton c, rfl, rfl⟩
  | @crlf p s => exact ⟨['\r', '\n'], by simp, .inr (by decide), rfl, rfl⟩
  | @lineComment p s =>
      refine ⟨'/' :: '/' :: s.takeWhile (· ≠ '\n'), by simp, .inl ?_, ?_, rfl⟩
      · have hline : '\n' ∉ s.takeWhile (· ≠ '\n') := fun hmem => by
          simpa using List.all_eq_true.1 List.all_takeWhile '\n' hmem
        simpa using hline
      · simp
  | comment => exact ⟨['(', '*'], by simp, .inl (by decide), rfl, rfl⟩
  | string => exact ⟨['"'], by simp, .inl (by decide), rfl, rfl⟩
  | code => exact ⟨['{'], by simp, .inl (by decide), rfl, rfl⟩
  | @character p s rest f hform =>
      obtain ⟨hwf, heq⟩ := CharForm.ofText?_eq_some_iff.1 hform
      exact ⟨f.spelling, List.cons_ne_nil _ _, .inl hwf.not_mem_spelling.1, heq, rfl⟩
  | @word p c s hc =>
      refine ⟨(c :: s).takeWhile isWordChar, ?_, .inl fun hmem => ?_,
        List.takeWhile_append_dropWhile.symm, rfl⟩
      · rw [List.takeWhile_cons_of_pos (isWordChar_of_isWordStart hc)]
        exact List.cons_ne_nil _ _
      · exact absurd (List.all_eq_true.1 List.all_takeWhile '\n' hmem) (by decide)
  | @symbol p c s t hgap hc ht =>
      exact ⟨[c], by simp, Region.takenAtOnce_singleton c, rfl, rfl⟩
  | @region r outer opened p c s st hstep hmove =>
      refine ⟨c :: s.take st.more, List.cons_ne_nil _ _, Region.step_piece hstep, ?_, rfl⟩
      simp [Region.Step.after]

theorem Advance.reaches (h : Advance scanner a b) : a.place.Reaches b.place := by
  obtain ⟨piece, -, -, hrest, hpos⟩ := h.exists_piece
  exact ⟨piece, hrest, hpos⟩

theorem Advances.reaches (h : Advances scanner a b) : a.place.Reaches b.place := by
  induction h with
  | refl => exact .refl _
  | tail _ hmove ih => exact ih.trans hmove.reaches

/-- A move closes regions, or opens one whose delimiter stands where the move starts. -/
theorem Advance.opened_cases (h : Advance scanner a b) :
    b.opened <:+ a.opened ∨ ∃ inner, b.opened = inner :: a.opened ∧ inner.start = a.place.pos ∧
      inner.kind.opener <+: a.place.rest := by
  cases h with
  | blank | crlf | lineComment | character | word | symbol => exact .inl List.suffix_rfl
  | @comment p s => exact .inr ⟨⟨.comment, p⟩, rfl, rfl, s, rfl⟩
  | @string p s => exact .inr ⟨⟨.string, p⟩, rfl, rfl, s, rfl⟩
  | @code p s => exact .inr ⟨⟨.code, p⟩, rfl, rfl, s, rfl⟩
  | @region r outer opened p c s st hstep hmove =>
      rcases Region.apply_ok_cases hmove with ⟨-, rfl⟩ | ⟨-, rfl⟩ | ⟨inner, hm, rfl, -⟩
      · exact .inl List.suffix_rfl
      · exact .inl (List.suffix_cons r opened)
      · obtain ⟨hstart, -, hopener⟩ := Region.step_opens hstep hm
        refine .inr ⟨inner, rfl, hstart, ?_⟩
        rw [← hopener, ← List.take_succ_cons]
        exact List.take_prefix _ _

theorem Advance.mem_opened (h : Advance scanner a b) {r : Region} (hr : r ∈ b.opened) :
    r ∈ a.opened ∨ r.start = a.place.pos := by
  rcases h.opened_cases with hsuffix | ⟨inner, hopened, hstart, -⟩
  · exact .inl (hsuffix.mem hr)
  · rw [hopened] at hr
    rcases List.mem_cons.1 hr with rfl | hr
    · exact .inr hstart
    · exact .inl hr

theorem Advance.nested (h : Advance scanner a b) (ha : Region.Nested a.opened) :
    Region.Nested b.opened := by
  cases h with
  | blank | crlf | lineComment | character | word | symbol => trivial
  | comment | string | code => exact fun _ ho => absurd ho List.not_mem_nil
  | region hstep hmove => exact Region.nested_of_apply ha hstep hmove

theorem reaches_of_next (h : scanner.next place = .ok (x, after)) : place.Reaches after := by
  obtain ⟨gap, opened, hgap, hmoves, -⟩ := advances_of_next h
  exact (Advances.reaches hgap).trans (Advances.reaches hmoves)

theorem Halts.exists_piece (h : Halts scanner a f) :
    ∃ piece rest, '\n' ∉ piece ∧ a.place.rest = piece ++ rest ∧
      f.stop = a.place.pos.after piece := by
  cases h with
  | @unknown p c s hgap hform hopen hc ht => exact ⟨[], c :: s, by simp, rfl, rfl⟩
  | @character p s rest f fault hform ht =>
      obtain ⟨hwf, heq⟩ := CharForm.ofText?_eq_some_iff.1 hform
      exact ⟨f.spelling, rest, hwf.not_mem_spelling.1, heq, rfl⟩
  | ended => exact ⟨[], [], by simp, rfl, rfl⟩
  | @fault r outer p c s e hstep =>
      obtain ⟨-, rfl, -⟩ := Region.step_error hstep
      exact ⟨['\\'], s, by simp, rfl, rfl⟩
  | @refused r outer p c s st e hstep hmove =>
      obtain ⟨inner, hm, -⟩ := Region.apply_error hmove
      refine ⟨c :: s.take st.more, s.drop st.more, ?_, by simp, rfl⟩
      rw [(Region.step_opens hstep hm).2.2]
      cases inner.kind <;> decide

theorem Halts.reaches (h : Halts scanner a f) : ∃ rest, a.place.Reaches ⟨f.stop, rest⟩ := by
  obtain ⟨piece, rest, -, hrest, hstop⟩ := h.exists_piece
  exact ⟨rest, piece, hrest, hstop⟩

theorem reaches_of_next_error (h : scanner.next place = .error f) :
    ∃ rest, place.Reaches ⟨f.stop, rest⟩ := by
  obtain ⟨a, hmoves, hhalts⟩ := failsFrom_of_next h
  obtain ⟨rest, hlast⟩ := hhalts.reaches
  exact ⟨rest, (Advances.reaches hmoves).trans hlast⟩

end Scanner

end LexDef

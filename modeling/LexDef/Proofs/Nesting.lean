import LexDef.Proofs.Nesting.Consecutive
import LexDef.Proofs.Nesting.Limit
/-!
# The limit on open regions

There are never more regions open than the limit allows. Only a text that would open more of them
fails for the limit, at the first region that is one too many. Every other text is read in the same
way under every limit that it does not exceed.
-/

namespace LexDef

def FailsTooDeep (result : Except Error (List Lexeme)) (n : Nat) (q : Position) : Prop :=
  ∃ e, result = .error e ∧ e.fault = .tooDeep n q

namespace Scanner

variable {scanner : Scanner} {text : String} {n : Nat} {q : Position} {e : Error}

structure NestingLaw (scanner : Scanner) (text : String) : Prop where
  /-- If the limit is not exceeded, a larger one changes nothing. -/
  same : (∀ n q, ¬ FailsTooDeep (scanner.lexemes text) n q) →
    ∀ (limit : Nat) (h : scanner.maxNesting ≤ limit),
      (scanner.withLimit limit (Nat.lt_of_lt_of_le scanner.maxNesting_pos h)).lexemes text =
        scanner.lexemes text
  /-- Where the limit is exceeded, as many regions as it allows are open, the error names them all,
  and a delimiter stands there that opens one more. -/
  exceeded : ∀ e n q, scanner.lexemes text = .error e → e.fault = .tooDeep n q →
    n = scanner.maxNesting ∧ e.enclosing.length = scanner.maxNesting ∧
    ∃ (a : Reader) (inner : Region), Advances scanner ⟨[], .ofString text⟩ a ∧
      a.opened.length = scanner.maxNesting ∧ e.enclosing = Region.modes a.opened ∧
      a.place.pos = q ∧ a.Opens inner ∧ inner.start = q ∧ inner.kind.opener <+: a.place.rest
  /-- A smaller limit is exceeded, too, and earlier. -/
  earlier : ∀ n q, FailsTooDeep (scanner.lexemes text) n q →
    ∀ (limit : Nat) (h : 0 < limit), limit < scanner.maxNesting →
      ∃ q', FailsTooDeep ((scanner.withLimit limit h).lexemes text) limit q' ∧
        q'.offset < q.offset
  /-- A text has no more regions than characters. -/
  short : text.length ≤ scanner.maxNesting → ∀ n q, ¬ FailsTooDeep (scanner.lexemes text) n q

theorem lexemes_limited (scanner scanner' : Scanner) (h : scanner.maxNesting < scanner'.maxNesting)
    (hset : scanner.unclosedCode = scanner'.unclosedCode) (text : String) :
    scanner.lexemes text = scanner'.lexemes text ∨
      ∃ q, FailsTooDeep (scanner.lexemes text) scanner.maxNesting q ∧
        ∀ n q', FailsTooDeep (scanner'.lexemes text) n q' → q.offset < q'.offset := by
  rcases runFrom_limited h hset (.ofString text) with heq | ⟨f, q, hf, hfault, hlater⟩
  · refine .inl ?_
    unfold lexemes run
    rw [heq]
  · have hlexemes : scanner.lexemes text = .error f.error := by
      unfold lexemes run
      simp only [hf]
    refine .inr ⟨q, ⟨f.error, hlexemes, hfault⟩, ?_⟩
    rintro n q' ⟨e', he', hfault'⟩
    obtain ⟨f', hf', rfl⟩ := exists_of_lexemes_error he'
    exact hlater f' n q' hf' hfault'

/-- A text that exceeds the limit leads a reader to the place where it does. -/
theorem exists_reader_of_tooDeep (h : scanner.lexemes text = .error e)
    (hfault : e.fault = .tooDeep n q) :
    ∃ a, Advances scanner ⟨[], .ofString text⟩ a ∧ n = scanner.maxNesting ∧
      a.opened.length = scanner.maxNesting ∧ e.enclosing = Region.modes a.opened ∧
      ∃ inner, a.Opens inner ∧ inner.start = q := by
  obtain ⟨a, f, hmoves, hhalts, rfl⟩ := exists_reader_of_lexemes_error h
  have hle := Advances.length_opened_le hmoves (Nat.zero_le _)
  obtain ⟨hn, hge, henclosing, hopens⟩ := hhalts.tooDeep hfault
  exact ⟨a, hmoves, hn, Nat.le_antisymm hle hge, henclosing, hopens⟩

theorem nesting_law (scanner : Scanner) (text : String) : scanner.NestingLaw text where
  same := by
    intro hfine limit hle
    rcases Nat.eq_or_lt_of_le hle with rfl | hlt
    · rfl
    · have hpos := Nat.lt_of_lt_of_le scanner.maxNesting_pos hle
      rcases lexemes_limited scanner (scanner.withLimit limit hpos) hlt rfl text with
        heq | ⟨q, hdeep, -⟩
      · exact heq.symm
      · exact absurd hdeep (hfine _ q)
  exceeded := by
    intro e n q h hfault
    obtain ⟨a, hmoves, hn, hlen, henclosing, inner, hopens, hq⟩ :=
      exists_reader_of_tooDeep h hfault
    have hcount : e.enclosing.length = scanner.maxNesting := by
      rw [henclosing, Region.modes, List.length_map, hlen]
    exact ⟨hn, hcount, a, inner, hmoves, hlen, henclosing, hopens.start.symm.trans hq, hopens, hq,
      hopens.opener⟩
  earlier := by
    intro n q hdeep limit hpos hlt
    rcases lexemes_limited (scanner.withLimit limit hpos) scanner hlt rfl text with
      heq | ⟨q', hdeep', hlater⟩
    · -- one error cannot name both limits
      obtain ⟨e, h, hfault⟩ := hdeep
      obtain ⟨-, -, hn, -⟩ := exists_reader_of_tooDeep h hfault
      obtain ⟨-, -, hn', -⟩ := exists_reader_of_tooDeep (heq.trans h) hfault
      exact absurd (hn'.symm.trans hn) (Nat.ne_of_lt hlt)
    · exact ⟨q', hdeep', hlater n q hdeep⟩
  short := by
    rintro hshort n q ⟨e, h, hfault⟩
    obtain ⟨a, hmoves, -, hlen, -, inner, ⟨r, outer, c, s, st, -, hrest, -⟩, -⟩ :=
      exists_reader_of_tooDeep h hfault
    have hcount := Advances.length_add_le hmoves
    have htext : (Place.ofString text).rest.length = text.length := String.length_toList
    simp only [hlen, hrest, htext, List.length_cons, List.length_nil] at hcount
    omega

/-- The limit counts the regions that are open at the same time, and there are never more of them.
Every text is read alike under all limits that it does not exceed, and regions that are read within
the limit one at a time are read within it one behind the other, between tokens and inside other
regions. -/
theorem nesting_limited (scanner : Scanner) :
    (∀ text a, Advances scanner ⟨[], .ofString text⟩ a →
      a.opened.length ≤ scanner.maxNesting) ∧
    (∀ text, scanner.NestingLaw text) ∧
    (∀ pieces : List (List Char),
      (∀ w ∈ pieces, ∃ k : Region.Kind, k ≠ .codeString ∧ k.Spans scanner.maxNesting w) →
      ∃ xs, scanner.lexemes (String.ofList pieces.flatten) = .ok xs) ∧
    ∀ (r : Region) (outer : List Region) (depth : Nat) (pieces : List (List Char)),
      (∀ w ∈ pieces, ∃ k : Region.Kind, k.host = r.kind ∧ k.Spans depth w) →
      (r :: outer).length + depth ≤ scanner.maxNesting →
      ∀ p s, ∃ text, Region.Leads scanner.maxNesting (r :: outer) ⟨p, pieces.flatten ++ s⟩ text
        (r :: outer) ⟨p.after pieces.flatten, s⟩ :=
  ⟨fun _ _ h => Advances.length_opened_le h (Nat.zero_le _), nesting_law scanner,
    fun _ h => lexemes_of_spans h,
    fun _ _ _ _ h hlimit p s => Region.leads_of_spans h hlimit p s⟩

example :
    ({ maxNesting := 2, maxNesting_pos := by decide } : Scanner).lexemes "\x7b\x7b\x7b\x7d\x7d\x7d" =
      .error
        { fault := .tooDeep 2 ⟨1, 3, 2⟩
          enclosing := Region.modes [⟨.code, ⟨1, 2, 1⟩⟩, ⟨.code, ⟨1, 1, 0⟩⟩] } := by
  decide +kernel

end Scanner

end LexDef

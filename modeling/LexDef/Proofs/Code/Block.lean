import LexDef.Proofs.Code.Tally
import LexDef.Proofs.Position
import LexDef.Proofs.Scanner.Token
/-!
# Blocks of action code

Where a block of action code closes, what its text is, and which brace or string is to blame if it
does not close, told by the flat pass that counts braces.
-/

namespace LexDef.Code

open Region

theorem next_of_brace {scanner : Scanner} {place : Place} {p : Position} {s : List Char}
    (hgap : scanner.skipGap place.pos place.rest = .ok ⟨p, '{' :: s⟩) :
    scanner.next place = (scanner.codeToken p s).map fun result =>
      ({ token := result.1, start := p, stop := result.2.pos }, result.2) := by
  have htoken : scanner.token p ('{' :: s) = scanner.codeToken p s := rfl
  cases h : scanner.codeToken p s with
  | error f => exact Scanner.next_of_token_error hgap (htoken.trans h)
  | ok result => exact Scanner.next_of_token hgap (htoken.trans h)

theorem slice_block {text : String} {p : Position} {code rest : List Char}
    (h : (Place.ofString text).Reaches ⟨p, '{' :: (code ++ '}' :: rest)⟩) :
    slice text (p.offset + 1) ((p.after ('{' :: code ++ ['}'])).offset - 1) =
      String.ofList code := by
  obtain ⟨pre, htext, rfl⟩ := Place.exists_of_ofString_reaches h
  have hsplit : text.toList = (pre ++ ['{']) ++ code ++ ('}' :: rest) := by
    simpa using htext
  have hstart : (({} : Position).after pre).offset + 1 = String.utf8Len (pre ++ ['{']) := by
    simp [Position.after_offset, Char.utf8Size]
  have hstop : ((({} : Position).after pre).after ('{' :: code ++ ['}'])).offset - 1 =
      String.utf8Len (pre ++ ['{']) + String.utf8Len code := by
    rw [← hstart, Position.after_offset, String.utf8Len_append, String.utf8Len_cons]
    simp [Char.utf8Size]
    omega
  rw [hstart, hstop]
  exact slice_utf8Len hsplit

/-- What a scanner reads at an opening brace is told by the pass that only counts: the block closes
where the count first comes down to zero, and its text is verbatim; if the text ends before, the
string that is open or else the brace that last raised the count to its value is to blame. -/
theorem next_block {scanner : Scanner} {text : String} {place : Place} {p : Position}
    {s : List Char} (hplace : (Place.ofString text).Reaches place)
    (hgap : scanner.skipGap place.pos place.rest = .ok ⟨p, '{' :: s⟩) :
    match (Marks.start p).pass scanner.maxNesting (p.next '{') s with
    | .closed rest => ∃ code stop, s = code ++ '}' :: rest ∧
        stop = p.after ('{' :: code ++ ['}']) ∧
        slice text (p.offset + 1) (stop.offset - 1) = String.ofList code ∧
        scanner.next place =
          .ok ({ token := .code (String.ofList code), start := p, stop }, ⟨stop, rest⟩)
    | .tooDeep t q => scanner.next place = .error
        { error := { fault := .tooDeep scanner.maxNesting q, enclosing := modes t.regions },
          stop := q.next '{' }
    | .ended t => scanner.next place =
        if t.quoted then .error
          { error :=
              { fault := .unterminated ⟨.codeString, t.quote⟩
                enclosing := modes (t.braces t.depth) },
            stop := p.after ('{' :: s) }
        else match scanner.unclosedCode with
        | .refused => .error
            { error :=
                { fault := .unterminated ⟨.code, t.brace t.depth⟩
                  enclosing := modes (t.braces (t.depth - 1)) },
              stop := p.after ('{' :: s) }
        | .dropped => .ok
            ({ token := .endOfText, start := p, stop := p.after ('{' :: s) },
              ⟨p.after ('{' :: s), []⟩) := by
  have hread := read_regions scanner.maxNesting (Marks.start p) (p.next '{') s Nat.one_pos
    scanner.maxNesting_pos
  have hstart : (Marks.start p).regions = [⟨.code, p⟩] := rfl
  rw [hstart] at hread
  rw [next_of_brace hgap]
  cases hpass : (Marks.start p).pass scanner.maxNesting (p.next '{') s with
  | closed rest =>
      rw [hpass] at hread
      obtain ⟨code, rfl, hread⟩ := hread
      have hreaches := hplace.trans (Scanner.reaches_of_skipGap hgap)
      refine ⟨code, _, rfl, rfl, slice_block hreaches, ?_⟩
      rw [Scanner.codeToken_of_read hread, List.dropLast_concat]
      rfl
  | tooDeep t q =>
      rw [hpass] at hread
      rw [Scanner.codeToken_of_other hread (by simp)]
      rfl
  | ended t =>
      rw [hpass] at hread
      obtain ⟨r, outer, hr, hread⟩ := hread
      simp only
      cases hquoted : t.quoted with
      | true =>
          rw [Marks.regions_of_quoted hquoted] at hr
          obtain ⟨rfl, rfl⟩ := List.cons.inj hr
          rw [Scanner.codeToken_of_other hread (by simp)]
          rfl
      | false =>
          obtain ⟨n, hn⟩ : ∃ n, t.depth = n + 1 := by
            have hlen := congrArg List.length hr
            rw [Marks.regions_of_not_quoted hquoted, Marks.length_braces] at hlen
            exact ⟨outer.length, hlen⟩
          rw [Marks.regions_of_not_quoted hquoted, hn, Marks.braces] at hr
          obtain ⟨rfl, rfl⟩ := List.cons.inj hr
          rw [Scanner.codeToken_of_unclosed hread rfl, hn]
          cases scanner.unclosedCode <;> rfl

theorem next_block_nested :
    let scanner : Scanner := { maxNesting_pos := by decide }
    let place : Place :=
      ⟨⟨1, 2, 1⟩, [' ', '{', '"', '}', '"', '{', 'é', '\r', '\n', '}', '}', 'y']⟩
    (Place.ofString "x \x7b\"\x7d\"\x7bé\r\n\x7d\x7dy").Reaches place ∧
    scanner.skipGap place.pos place.rest =
      .ok ⟨⟨1, 3, 2⟩, ['{', '"', '}', '"', '{', 'é', '\r', '\n', '}', '}', 'y']⟩ ∧
    ∃ code stop, ['"', '}', '"', '{', 'é', '\r', '\n', '}', '}', 'y'] = code ++ '}' :: ['y'] ∧
      stop = (⟨1, 3, 2⟩ : Position).after ('{' :: code ++ ['}']) ∧
      slice "x \x7b\"\x7d\"\x7bé\r\n\x7d\x7dy" (2 + 1) (stop.offset - 1) = String.ofList code ∧
      scanner.next place =
        .ok ({ token := .code (String.ofList code), start := ⟨1, 3, 2⟩, stop }, ⟨stop, ['y']⟩) := by
  intro scanner place
  have hplace : (Place.ofString "x \x7b\"\x7d\"\x7bé\r\n\x7d\x7dy").Reaches place :=
    ⟨['x'], by decide +kernel, rfl⟩
  have hgap : scanner.skipGap place.pos place.rest =
      .ok ⟨⟨1, 3, 2⟩, ['{', '"', '}', '"', '{', 'é', '\r', '\n', '}', '}', 'y']⟩ := by
    decide +kernel
  exact ⟨hplace, hgap, next_block hplace hgap⟩

end LexDef.Code

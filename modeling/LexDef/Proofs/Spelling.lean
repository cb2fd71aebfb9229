import LexDef.Proofs.Code.Tally
import LexDef.Proofs.Region.Continuation
import LexDef.Proofs.Scanner.Chain
/-!
# Spelled tokens are read back

The tokens of a text, spelled with blanks between them, are the tokens of what is spelled.
-/

namespace LexDef

variable {scanner : Scanner} {r : Region} {p : Position} {c : Char} {s rest text : List Char}
  {content : String} {t : Token} {ts : List Token} {after : Place}

/-! ## Code units and their digits -/

theorem Escape.hexValue_upper : ∀ d < 16, hexValue (Hex.upper d) = .ok d := by decide

theorem Hex.isDigit_upper : ∀ d < 16, isDigit (upper d) := by decide

theorem Escape.hexUnit_ofUnit (u : UInt16) : hexUnit (Hex.ofUnit u) = .ok u := by
  have hlt : u.toNat < 65536 := u.toNat_lt
  have hnumber : hexNumber 4 (Hex.ofUnit u) = .ok u.toNat := by
    have hlen : (Hex.ofUnit u).length = 4 := rfl
    rw [hexNumber, if_pos hlen]
    simp only [Hex.ofUnit, List.foldlM_cons, List.foldlM_nil, bind, Except.bind, pure, Except.pure]
    rw [hexValue_upper _ (by omega), hexValue_upper _ (by omega), hexValue_upper _ (by omega),
      hexValue_upper _ (by omega)]
    simp only [Except.ok.injEq]
    omega
  rw [hexUnit, hnumber]
  exact congrArg Except.ok UInt16.ofNat_toNat

/-! ## Strings and their escapes -/

/-- Whether a character is written in a string as itself or with a named escape. -/
def IsPrintable (c : Char) : Prop := c = '\t' ∨ c = '\n' ∨ c = '\r' ∨ (' ' ≤ c ∧ c ≤ '~')

instance : DecidablePred IsPrintable :=
  fun c => inferInstanceAs (Decidable (c = '\t' ∨ c = '\n' ∨ c = '\r' ∨ (' ' ≤ c ∧ c ≤ '~')))

namespace Region

theorem step_of_named (hr : r.kind = .string) (hc : Escape.hasMeaning c) (p : Position)
    (s : List Char) : r.step p '\\' (c :: s) = .ok { text := [Escape.meaning c], more := 1 } := by
  have hne : c ≠ '\n' ∧ c ≠ '\r' ∧ ¬ c.isDigit := by
    refine ⟨?_, ?_, ?_⟩
    · rintro rfl
      exact absurd hc (by decide)
    · rintro rfl
      exact absurd hc (by decide)
    · intro hd
      simp only [Escape.hasMeaning, List.mem_cons, List.not_mem_nil, or_false,
        decide_eq_true_eq] at hc
      rcases hc with rfl | rfl | rfl | rfl | rfl | rfl | rfl <;> exact absurd hd (by decide)
  obtain ⟨hlf, hcr, hdigit⟩ := hne
  refine step_of_stringStep hr p ?_
  rw [stringStep, escapeStep_of_not_digits hlf hcr fun _ _ _ hd => absurd hd hdigit,
    escapeStep.named, if_pos hc]

theorem leads_of_escapedChar (hr : r.kind = .string) (hc : IsPrintable c) (limit : Nat)
    (outer : List Region) (p : Position) (s : List Char) :
    Leads limit (r :: outer) ⟨p, Escaped.char c ++ s⟩ [c] (r :: outer)
      ⟨p.after (Escaped.char c), s⟩ := by
  have hnamed (d : Char) (hd : Escape.hasMeaning d) :
      Leads limit (r :: outer) ⟨p, ['\\', d] ++ s⟩ [Escape.meaning d] (r :: outer)
        ⟨p.after ['\\', d], s⟩ :=
    leads_of_step (step_of_named hr hd p s) rfl
  unfold Escaped.char
  split
  · exact hnamed 't' rfl
  · exact hnamed 'r' rfl
  · exact hnamed 'n' rfl
  · exact hnamed '\'' rfl
  · exact hnamed '"' rfl
  · exact hnamed '\\' rfl
  · -- no other escape is needed for what is printable
    rename_i htab hcr hlf hquote hstring hback
    have hplain : ' ' ≤ c ∧ c ≤ '~' := by
      rcases hc with h | h | h | h
      · exact absurd h htab
      · exact absurd h hlf
      · exact absurd h hcr
      · exact h
    rw [if_pos hplain]
    have hstep : stringStep c s = .ok { text := [c] } := by
      unfold stringStep
      split
      · exact absurd rfl hstring
      · exact absurd rfl hback
      · rfl
    exact leads_of_step (step_of_stringStep hr p hstep) rfl

theorem leads_of_escaped (hr : r.kind = .string) (htext : ∀ c ∈ text, IsPrintable c) (limit : Nat)
    (outer : List Region) (p : Position) (s : List Char) :
    Leads limit (r :: outer) ⟨p, Escaped.chars text ++ s⟩ text (r :: outer)
      ⟨p.after (Escaped.chars text), s⟩ := by
  induction text generalizing p with
  | nil => exact .refl _ _ _
  | cons c text ih =>
      have hchar := leads_of_escapedChar hr (htext c List.mem_cons_self) limit outer p
        (Escaped.chars text ++ s)
      have hrest := ih (fun d hd => htext d (List.mem_cons_of_mem c hd)) (p.after (Escaped.char c))
      rw [Escaped.chars, List.flatMap_cons, List.append_assoc, Position.after_append]
      exact hchar.trans hrest

end Region

namespace Scanner

/-! ## Single tokens -/

def Separated (rest : List Char) : Prop := rest = [] ∨ ∃ u, rest = ' ' :: u

/-- Whether a token is read back from its spelling, wherever that stands. -/
def Rereads (scanner : Scanner) (t : Token) : Prop :=
  ∀ p rest, Separated rest → startsGap (t.spelling ++ rest) = false ∧
    scanner.token p (t.spelling ++ rest) = .ok (t, ⟨p.after t.spelling, rest⟩)

theorem rereads_of_form {f : CharForm} (hwf : f.WellFormed) (hspelling : t.spelling = f.spelling)
    (ht : ∀ p, f.token p = .ok t) : Rereads scanner t := by
  intro p rest hrest
  rw [hspelling]
  exact ⟨rfl, characterToken_of_form (CharForm.ofText?_spelling hwf rest) (ht p)⟩

theorem rereads_char (u : UInt16) : Rereads scanner (.char u) := by
  have hlt : u.toNat < 65536 := u.toNat_lt
  have hwf : (CharForm.hexUnit (Hex.ofUnit u)).WellFormed := by
    refine ⟨rfl, ?_⟩
    simp only [Hex.ofUnit, List.all_cons, List.all_nil, Bool.and_true, Bool.and_eq_true]
    exact ⟨Hex.isDigit_upper _ (by omega), Hex.isDigit_upper _ (by omega),
      Hex.isDigit_upper _ (by omega), Hex.isDigit_upper _ (by omega)⟩
  refine rereads_of_form hwf rfl fun p => ?_
  rw [CharForm.token, Escape.hexUnit_ofUnit]
  rfl

theorem spelling_category (name : String) :
    (Token.category name).spelling = '\'' :: '\\' :: (name.toList ++ ['\'']) := rfl

theorem rereads_category {c₁ c₂ : Char} (hwf : (CharForm.category c₁ c₂).WellFormed) :
    Rereads scanner (.category (String.ofList [c₁, c₂])) := by
  refine rereads_of_form hwf ?_ fun _ => rfl
  rw [spelling_category, String.toList_ofList]
  rfl

theorem spelling_string (content : String) :
    (Token.string content).spelling = '"' :: (Escaped.chars content.toList ++ ['"']) := rfl

theorem rereads_string (htext : ∀ c ∈ text, IsPrintable c) :
    Rereads scanner (.string (String.ofList text)) := by
  intro p rest hrest
  have hclose := Region.leads_of_closer scanner.maxNesting ⟨.string, p⟩ []
    ((p.next '"').after (Escaped.chars text)) rest
  have hleads := (Region.leads_of_escaped rfl htext scanner.maxNesting [] (p.next '"')
    ('"' :: rest)).trans hclose
  have hread : Region.read scanner.maxNesting [⟨.string, p⟩] (p.next '"')
      (Escaped.chars text ++ '"' :: rest) =
        .ok (text, ⟨(p.next '"').after (Escaped.chars text ++ ['"']), rest⟩) := by
    rw [Position.after_append]
    simpa [Region.Kind.closing, Region.Kind.closer] using hleads.read_ok (Region.read_nil _ _ _)
  rw [spelling_string, String.toList_ofList, List.cons_append, List.append_assoc]
  exact ⟨rfl, stringToken_of_read hread⟩

theorem spelling_code (content : String) :
    (Token.code content).spelling = '{' :: (content.toList ++ ['}']) := rfl

theorem rereads_code
    (h : Region.read scanner.maxNesting [⟨.code, p⟩] (p.next '{') s = .ok (text, after)) :
    Rereads scanner (.code (String.ofList text.dropLast)) := by
  intro p' rest hrest
  obtain ⟨code, hs, rfl⟩ := Code.exists_of_read scanner.maxNesting_pos h
  have hpiece : s = (code ++ ['}']) ++ after.rest := by simp [hs]
  have hread := codeToken_of_read (Region.read_append h hpiece p' (p'.next '{') rest)
  rw [List.dropLast_concat] at hread ⊢
  rw [spelling_code, String.toList_ofList]
  exact ⟨rfl, hread⟩

theorem spelling_ofWord (word : String) : (Token.ofWord word).spelling = word.toList := by
  fun_cases Token.ofWord word with
  | case1 h =>
      rw [h]
      rfl
  | case2 h => fun_cases Token.reserved? word <;> subst_vars <;> rfl

theorem spelling_symbol (h : Token.symbol? c = some t) : t.spelling = [c] := by
  unfold Token.symbol? at h
  split at h
  all_goals cases h
  all_goals rfl

theorem rereads_word (hc : isWordStart c) (p : Position) (s : List Char) :
    Rereads scanner (wordToken p (c :: s)).1 := by
  intro p' rest hrest
  have hword : (c :: s).takeWhile isWordChar = c :: s.takeWhile isWordChar :=
    List.takeWhile_cons_of_pos (isWordChar_of_isWordStart hc)
  have hall : ∀ d ∈ (c :: s).takeWhile isWordChar, isWordChar d = true :=
    List.all_eq_true.1 List.all_takeWhile
  obtain ⟨htake, hdrop⟩ : rest.takeWhile isWordChar = [] ∧ rest.dropWhile isWordChar = rest := by
    rcases hrest with rfl | ⟨u, rfl⟩
    · exact ⟨rfl, rfl⟩
    · exact ⟨rfl, rfl⟩
  have hspelling : (wordToken p (c :: s)).1.spelling = (c :: s).takeWhile isWordChar := by
    rw [wordToken, spelling_ofWord, String.toList_ofList]
  constructor
  · rw [hspelling, hword]
    have hne : c ≠ ' ' ∧ c ≠ '\t' ∧ c ≠ '\n' ∧ c ≠ '\r' ∧ c ≠ '(' ∧ c ≠ '/' := by
      refine ⟨?_, ?_, ?_, ?_, ?_, ?_⟩ <;> (rintro rfl; exact absurd hc (by decide))
    unfold startsGap
    grind
  · have htoken := token_of_wordStart scanner p' (s.takeWhile isWordChar ++ rest) hc
    rw [← List.cons_append, ← hword] at htoken
    rw [hspelling, htoken, wordToken, List.takeWhile_append_of_pos hall,
      List.dropWhile_append_of_pos hall, htake, hdrop, List.append_nil]
    rfl

theorem rereads_symbol (hc : isWordStart c = false) (ht : Token.symbol? c = some t) :
    Rereads scanner t := by
  intro p rest hrest
  rw [spelling_symbol ht]
  refine ⟨?_, token_of_symbol scanner p rest hc ht⟩
  unfold Token.symbol? at ht
  unfold startsGap
  rcases hrest with rfl | ⟨u, rfl⟩
  · grind
  · grind

theorem rereads_of_token (h : scanner.token p s = .ok (t, after)) (ht : t ≠ .endOfText)
    (htext : ∀ content, t = .string content → ∀ c ∈ content.toList, IsPrintable c) :
    Rereads scanner t := by
  cases takes_of_token h with
  | ended | dropped => contradiction
  | character hform htoken =>
      rcases CharForm.token_cases htoken with ⟨unit, rfl⟩ | ⟨c₁, c₂, rfl, rfl⟩
      · exact rereads_char unit
      · exact rereads_category (CharForm.wellFormed_of_ofText? hform)
  | @string s text after hread =>
      refine rereads_string fun c hc => htext _ rfl c ?_
      rwa [String.toList_ofList]
  | code hread => exact rereads_code hread
  | @word c s hc => exact rereads_word hc p s
  | symbol hc hsymbol => exact rereads_symbol hc hsymbol

/-! ## Texts -/

def tokens (scanner : Scanner) (text : String) : Except Error (List Token) :=
  (scanner.lexemes text).map (·.map Lexeme.token)

theorem next_of_rereads (place : Place) (h : Rereads scanner t) (hrest : Separated rest)
    (hgap : scanner.skipGap place.pos place.rest = scanner.skipGap p (t.spelling ++ rest)) :
    scanner.next place = .ok (⟨t, p, p.after t.spelling⟩, ⟨p.after t.spelling, rest⟩) := by
  obtain ⟨hstuck, htoken⟩ := h p rest hrest
  rw [skipGap_of_not_startsGap scanner p hstuck] at hgap
  rw [next, hgap]
  simp only [htoken]

theorem separated_flatMap (ts : List Token) :
    Separated (ts.flatMap fun t => ' ' :: t.spelling) := by
  cases ts with
  | nil => exact .inl rfl
  | cons t ts => exact .inr ⟨_, rfl⟩

/-- Tokens that are spelled with blanks between them are read back, wherever a gap leads to them. -/
theorem exists_chain_spelled (h : ∀ u ∈ t :: ts, u ≠ .endOfText ∧ Rereads scanner u) (place : Place)
    (hgap : scanner.skipGap place.pos place.rest =
      scanner.skipGap p (t.spelling ++ ts.flatMap fun u => ' ' :: u.spelling)) :
    ∃ xs q, xs.map Lexeme.token = t :: ts ∧ Chain scanner place xs ⟨q, []⟩ := by
  induction ts generalizing t p place with
  | nil =>
      obtain ⟨hne, hreads⟩ := h t List.mem_cons_self
      have hnext := next_of_rereads place hreads (separated_flatMap []) hgap
      exact ⟨_, _, rfl, .cons hnext hne (.nil _)⟩
  | cons u ts ih =>
      -- behind `t` the blank is a gap that leads to `u`
      obtain ⟨hne, hreads⟩ := h t List.mem_cons_self
      have hnext := next_of_rereads place hreads (separated_flatMap (u :: ts)) hgap
      obtain ⟨xs, q, hxs, hchain⟩ := ih (fun v hv => h v (List.mem_cons_of_mem t hv))
        ⟨p.after t.spelling, _⟩ (skipGap_cons scanner _ _ (.inl rfl))
      exact ⟨_, q, by rw [List.map_cons, hxs], .cons hnext hne hchain⟩

theorem intercalate_spelling (t : Token) (ts : List Token) :
    [' '].intercalate ((t :: ts).map Token.spelling) =
      t.spelling ++ ts.flatMap fun t => ' ' :: t.spelling := by
  induction ts generalizing t with
  | nil => simp
  | cons u ts ih =>
      rw [List.map_cons, List.map_cons, List.intercalate_cons_cons, ← List.map_cons, ih,
        List.flatMap_cons, List.append_assoc]
      rfl

theorem toList_intercalate_toString (ts : List Token) :
    (" ".intercalate (ts.map toString)).toList = [' '].intercalate (ts.map Token.spelling) := by
  have hspelling : ts.map (String.toList ∘ toString) = ts.map Token.spelling :=
    List.map_congr_left fun t _ => String.toList_ofList
  rw [String.toList_intercalate, List.map_map, hspelling]
  rfl

theorem exists_of_tokens (h : scanner.tokens content = .ok (ts ++ [.endOfText])) :
    ∀ t ∈ ts, t ≠ .endOfText ∧ ∃ p s after, scanner.token p s = .ok (t, after) := by
  rw [tokens] at h
  cases hlexemes : scanner.lexemes content with
  | error e =>
      rw [hlexemes] at h
      cases h
  | ok ys =>
      rw [hlexemes] at h
      obtain ⟨xs, ys, rfl, rfl, hend⟩ := List.map_eq_append_iff.1 (Except.ok.inj h)
      obtain ⟨last, rfl, -⟩ := List.map_eq_singleton_iff.1 hend
      obtain ⟨mid, after, hchain, -⟩ := exists_of_lexemes_ok hlexemes
      intro t ht
      obtain ⟨x, hx, rfl⟩ := List.mem_map.1 ht
      obtain ⟨a, b, gap, piece, -, cut, -⟩ := hchain.exists_cut hx
      exact ⟨cut.ne_end, _, _, _, cut.taken⟩

/-- The tokens of a text are read back from what they are written as, with blanks between them. In
strings there must be nothing but what is written as itself or with a named escape. -/
theorem tokens_intercalate {text : String} (h : scanner.tokens text = .ok (ts ++ [.endOfText]))
    (hprintable : ∀ content, .string content ∈ ts → ∀ c ∈ content.toList, IsPrintable c) :
    scanner.tokens (" ".intercalate (ts.map toString)) = .ok (ts ++ [.endOfText]) := by
  have hreads : ∀ t ∈ ts, t ≠ .endOfText ∧ Rereads scanner t := by
    intro t ht
    obtain ⟨hne, p, s, after, htoken⟩ := exists_of_tokens h t ht
    exact ⟨hne, rereads_of_token htoken hne fun content hc => hprintable content (hc ▸ ht)⟩
  obtain ⟨xs, q, hxs, hchain⟩ : ∃ xs q, xs.map Lexeme.token = ts ∧
      Chain scanner ⟨{}, [' '].intercalate (ts.map Token.spelling)⟩ xs ⟨q, []⟩ := by
    cases ts with
    | nil => exact ⟨[], {}, rfl, .nil _⟩
    | cons t ts =>
        rw [intercalate_spelling]
        exact exists_chain_spelled hreads ⟨{}, _⟩ rfl
  have hlexemes := hchain.lexemes_eq (skipGap_of_not_startsGap scanner q rfl)
  rw [← toList_intercalate_toString, String.ofList_toList] at hlexemes
  rw [tokens, hlexemes]
  simp [Except.map, Lexeme.endAt, hxs]

theorem tokens_intercalate_mixed :
    let scanner : Scanner := { maxNesting_pos := by decide }
    let text := "r'(\"a\\\"\\\n\t\"'\\ud800''\\Lu'* (*\"*)\"*)\x7b\"\x7d\"\n\x7d"
    let ts : List Token :=
      [.ident "r'", .leftParen, .string "a\"\t", .char 0xD800, .category "Lu", .star,
        .code "\"\x7d\"\n"]
    scanner.tokens text = .ok (ts ++ [.endOfText]) ∧
    (∀ content, .string content ∈ ts → ∀ c ∈ content.toList, IsPrintable c) ∧
    scanner.tokens (" ".intercalate (ts.map toString)) = .ok (ts ++ [.endOfText]) := by
  intro scanner text ts
  have h : scanner.tokens text = .ok (ts ++ [.endOfText]) := by decide +kernel
  have hprintable : ∀ content, .string content ∈ ts → ∀ c ∈ content.toList, IsPrintable c := by
    intro content hc
    obtain rfl : content = "a\"\t" := by simpa [ts] using hc
    have hall : "a\"\t".toList.all (decide <| IsPrintable ·) := by decide +kernel
    exact fun c hc => of_decide_eq_true (List.all_eq_true.1 hall c hc)
  exact ⟨h, hprintable, tokens_intercalate h hprintable⟩

end Scanner

end LexDef

import LexDef.Proofs.Code.Tally
import LexDef.Proofs.Layout.Region
import LexDef.Proofs.Scanner.Chain
import Mathlib.Data.List.Forall2
/-!
# Runs in another layout

A scanner reads the same lexemes from a text in every layout, at the positions where the layout
moves them: `run_layout`. Action code is written in the layout of the text around it, and strings
may differ in the carriage returns that the layout adds.
-/

namespace LexDef

theorem CharForm.token_mapPos {f : CharForm} (hwf : f.WellFormed) (g : Position → Position)
    (p : Position) : f.token (g p) = (f.token p).mapError (Fault.mapPos g) := by
  cases f with
  | plain c | escaped c =>
      simp only [token]
      unfold token.ofChar
      split <;> rfl
  | decimal d₁ d₂ d₃ =>
      obtain ⟨h₁, h₂, h₃⟩ := hwf
      simp only [token]
      cases hcode : Escape.decimal d₁ d₂ d₃ with
      | ok code => rfl
      | error fault =>
          obtain ⟨code, -, rfl⟩ := Escape.decimal_error h₁ h₂ h₃ hcode
          rfl
  | hexByte h₁ h₂ =>
      obtain ⟨d₁, hd₁⟩ := Escape.hexValue_of_isDigit hwf.1
      obtain ⟨d₂, hd₂⟩ := Escape.hexValue_of_isDigit hwf.2
      simp only [token, Escape.hexByte, hd₁, hd₂]
      rfl
  | hexUnit digits =>
      obtain ⟨n, hn⟩ := Escape.hexNumber_of_isDigit hwf.1 hwf.2
      simp only [token, Escape.hexUnit, hn]
      rfl
  | codePoint digits =>
      simp only [token]
      cases hcode : Escape.codePoint digits with
      | ok units => cases units <;> rfl
      | error fault =>
          obtain ⟨code, -, rfl⟩ := Escape.codePoint_error hwf.1 hwf.2 hcode
          rfl
  | category c₁ c₂ => rfl

namespace Layout

def Respells (layout : Layout) : Token → Token → Prop
  | .code s, t => t = .code (String.ofList (layout.text s.toList))
  | .string s, t => ∃ s', t = .string s' ∧ layout.bare s'.toList = layout.bare s.toList
  | s, t => t = s

structure Matches (layout : Layout) (x y : Lexeme) : Prop where
  token : layout.Respells x.token y.token
  start : y.start = layout.pos x.start
  stop : y.stop = layout.pos x.stop

variable {layout : Layout} {scanner : Scanner} {p : Position} {s : List Char} {place after : Place}
  {x y : Lexeme} {t : Token}

theorem respells_of_ne (hcode : ∀ s, t ≠ .code s) (hstring : ∀ s, t ≠ .string s) :
    layout.Respells t t := by
  cases t with
  | code s => exact absurd rfl (hcode s)
  | string s => exact absurd rfl (hstring s)
  | _ => exact rfl

theorem Respells.end_iff {t' : Token} (h : layout.Respells t t') :
    t' = .endOfText ↔ t = .endOfText := by
  cases t with
  | code s => simp [show t' = _ from h]
  | string s =>
      obtain ⟨s', rfl, -⟩ := h
      simp
  | _ => rw [show t' = _ from h]

/-! ## Gaps -/

theorem skipGap_lineBreak {eol : List Char} (heol : Region.IsLineBreak eol) (scanner : Scanner)
    (p : Position) (s : List Char) :
    scanner.skipGap p (eol ++ s) = scanner.skipGap (p.after eol) s := by
  rcases heol with rfl | rfl
  · exact scanner.skipGap_cons p s (.inr (.inr rfl))
  · exact scanner.skipGap_crlf p s

/-- A comment ends with its line, whatever breaks the line. -/
theorem skipGap_line_text (layout : Layout) (scanner : Scanner) (p : Position) {line : List Char}
    (hline : ∀ c ∈ line, c ≠ '\n') {u : List Char} (hu : ∀ c v, u = c :: v → c = '\n') :
    scanner.skipGap p ('/' :: '/' :: (line ++ layout.text u)) =
      scanner.skipGap (p.after ('/' :: '/' :: line)) (layout.text u) := by
  cases u with
  | nil => exact scanner.skipGap_line_append p hline hu
  | cons c u =>
      obtain rfl := hu c u rfl
      rw [text_line]
      rcases layout.isLineBreak with heol | heol <;> rw [heol]
      · exact scanner.skipGap_line_append p hline fun c v h => (List.cons.inj h).1.symm
      · -- the carriage return belongs to the comment
        have hline' : ∀ c ∈ line ++ ['\r'], c ≠ '\n' := by
          intro c hc
          rcases List.mem_append.1 hc with hc | hc
          · exact hline c hc
          · rw [List.mem_singleton.1 hc]
            decide
        have hskip := scanner.skipGap_line_append p hline' (u := '\n' :: layout.text u)
          fun c v h => (List.cons.inj h).1.symm
        rw [scanner.skipGap_cons _ _ (.inr (.inr rfl))] at hskip
        rw [List.cons_append, List.cons_append, List.nil_append, scanner.skipGap_crlf]
        simpa using hskip

theorem startsGap_text (h : layout.lineBreak = ['\n'] ∨ '\r' ∉ s) :
    Scanner.startsGap (layout.text s) = Scanner.startsGap s := by
  rcases h with h | h
  · rw [text_of_lineFeed h]
  · cases s with
    | nil => rfl
    | cons c s =>
        by_cases hc : c = '\n'
        · subst c
          rw [text_line]
          rcases layout.isLineBreak with heol | heol <;> rw [heol] <;> rfl
        · have hc' : c ≠ '\r' := fun hc' => h (hc' ▸ List.mem_cons_self)
          rw [text_cons layout s hc]
          cases s with
          | nil => rfl
          | cons d s =>
              by_cases hd : d = '\n'
              · subst d
                rw [text_line]
                rcases layout.isLineBreak with heol | heol <;> rw [heol]
                · unfold Scanner.startsGap
                  grind
                · unfold Scanner.startsGap
                  grind
              · rw [text_cons layout s hd]
                unfold Scanner.startsGap
                grind

theorem text_comment (layout : Layout) (s : List Char) :
    layout.text ('(' :: '*' :: s) = '(' :: '*' :: layout.text s := by
  rw [text_cons layout _ (by decide), text_cons layout _ (by decide)]

theorem comment_layout (scanner : Scanner) (h : layout.Fits ⟨p, '(' :: '*' :: s⟩) :
    layout.Carries (fun a b => layout.bare b.1 = layout.bare a.1 ∧ b.2 = layout.place a.2)
      (Region.read scanner.maxNesting [⟨.comment, p⟩] (p.after ['(', '*']) s)
      (Region.read scanner.maxNesting [⟨.comment, layout.pos p⟩]
        ((layout.pos p).after ['(', '*']) (layout.text s)) := by
  have hread := read_layout scanner.maxNesting [⟨.comment, p⟩]
    (h.reaches (Place.reaches_append p ['(', '*'] s))
  rw [layout.pos_after h.line] at hread
  exact hread

theorem skipGap_layout (scanner : Scanner) (h : layout.Fits ⟨p, s⟩) :
    layout.Carries (fun a b => b = layout.place a) (scanner.skipGap p s)
      (scanner.skipGap (layout.pos p) (layout.text s)) := by
  fun_induction Scanner.skipGap scanner p s with
  | case1 p s ih | case2 p s ih =>
      rw [text_cons layout s (by decide), Scanner.skipGap_cons _ _ _ (by simp),
        ← layout.pos_next_of_ne h.line (by decide)]
      exact ih (h.reaches (Place.reaches_cons p _ s))
  | case3 p s ih =>
      rw [text_line, skipGap_lineBreak layout.isLineBreak, ← layout.pos_next_line h.line]
      exact ih (h.reaches (Place.reaches_cons p _ s))
  | case4 p s ih =>
      have heol : layout.lineBreak = ['\n'] :=
        h.plain.resolve_right fun hcr => hcr List.mem_cons_self
      have hlater := ih (h.reaches (Place.reaches_append p ['\r', '\n'] s))
      rw [layout.pos_after h.line, text_of_lineFeed heol, text_of_lineFeed heol] at hlater
      rw [text_of_lineFeed heol, Scanner.skipGap_crlf]
      exact hlater
  | case5 p s f hread =>
      have hcarries := comment_layout scanner h
      rw [hread] at hcarries
      rw [text_comment, Scanner.skipGap_comment_bind]
      exact hcarries.bind (k := fun result => .ok result.2) fun _ _ hok => by cases hok
  | case6 p s text mid hread ih =>
      have hcarries := comment_layout scanner h
      rw [hread] at hcarries
      obtain ⟨b, hb, -, hmid⟩ := hcarries
      have hlater := ih (h.reaches ((Place.reaches_append p ['(', '*'] s).trans
        (Region.reaches_of_read hread)))
      rw [text_comment, Scanner.skipGap_comment_bind, hb]
      simp only [Except.bind, hmid]
      exact hlater
  | case7 p s ih =>
      obtain ⟨hline, hhead⟩ := Scanner.takeWhile_line s
      have hcomment : '\n' ∉ '/' :: '/' :: s.takeWhile (· ≠ '\n') := by
        have hmem : '\n' ∉ s.takeWhile (· ≠ '\n') := fun hmem => hline '\n' hmem rfl
        simpa using hmem
      have hsplit : '/' :: '/' :: s =
          '/' :: '/' :: s.takeWhile (· ≠ '\n') ++ s.dropWhile (· ≠ '\n') := by
        simp
      have hlater := ih (h.reaches ⟨_, hsplit, rfl⟩)
      rw [layout.pos_after h.line, text_of_not_mem layout hcomment] at hlater
      rw [hsplit, text_append, text_of_not_mem layout hcomment, List.cons_append, List.cons_append,
        skipGap_line_text layout scanner _ hline hhead]
      exact hlater
  | case8 p s =>
      have hskip : scanner.skipGap p s = .ok ⟨p, s⟩ := by
        rw [Scanner.skipGap] <;> assumption
      have hstuck := (startsGap_text h.plain).trans (Scanner.not_startsGap_of_skipGap hskip)
      exact ⟨_, Scanner.skipGap_of_not_startsGap scanner _ hstuck, rfl⟩

/-! ## Tokens -/

theorem characterToken_layout (h : layout.Fits ⟨p, '\'' :: s⟩) :
    layout.Carries (fun a b => layout.Respells a.1 b.1 ∧ b.2 = layout.place a.2)
      (Scanner.characterToken p s) (Scanner.characterToken (layout.pos p) (layout.text s)) := by
  have hform := CharForm.ofText?_of_same_line (layout.sameLine_text ('\'' :: s))
  rw [text_cons layout s (by decide)] at hform
  unfold Scanner.characterToken
  rw [hform]
  cases hread : CharForm.ofText? ('\'' :: s) with
  | none => exact rfl
  | some result =>
      obtain ⟨f, rest⟩ := result
      have hwf := CharForm.wellFormed_of_ofText? hread
      have hstop : layout.pos (p.after f.spelling) = (layout.pos p).after f.spelling := by
        rw [layout.pos_after h.line, text_of_not_mem layout hwf.not_mem_spelling.1]
      simp only [Option.map_some, Prod.map, id_eq]
      cases ht : f.token p with
      | ok t =>
          have htoken : f.token (layout.pos p) = .ok t := by
            rw [CharForm.token_mapPos hwf, ht]
            rfl
          simp only [htoken]
          refine ⟨_, rfl, ?_, by rw [place, hstop]⟩
          rcases CharForm.token_cases ht with ⟨unit, rfl⟩ | ⟨c₁, c₂, -, rfl⟩ <;> exact rfl
      | error fault =>
          have htoken : f.token (layout.pos p) = .error (fault.mapPos layout.pos) := by
            rw [CharForm.token_mapPos hwf, ht]
            rfl
          simp only [htoken, ← hstop]
          exact rfl

theorem stringToken_layout (scanner : Scanner) (h : layout.Fits ⟨p, '"' :: s⟩) :
    layout.Carries (fun a b => layout.Respells a.1 b.1 ∧ b.2 = layout.place a.2)
      (scanner.stringToken p s) (scanner.stringToken (layout.pos p) (layout.text s)) := by
  have hread := read_layout scanner.maxNesting [⟨.string, p⟩]
    (h.reaches (Place.reaches_cons p '"' s))
  rw [layout.pos_next_of_ne h.line (by decide)] at hread
  rw [Scanner.stringToken_eq_map, Scanner.stringToken_eq_map]
  exact hread.map fun a b _ hab => ⟨⟨_, rfl, by simpa using hab.1⟩, hab.2⟩

theorem codeToken_layout (scanner : Scanner) (h : layout.Fits ⟨p, '{' :: s⟩) :
    layout.Carries (fun a b => layout.Respells a.1 b.1 ∧ b.2 = layout.place a.2)
      (scanner.codeToken p s) (scanner.codeToken (layout.pos p) (layout.text s)) := by
  have hcarries := read_layout scanner.maxNesting [⟨.code, p⟩]
    (h.reaches (Place.reaches_cons p '{' s))
  rw [layout.pos_next_of_ne h.line (by decide)] at hcarries
  cases hread : Region.read scanner.maxNesting [⟨.code, p⟩] (p.next '{') s with
  | ok result =>
      obtain ⟨text, after⟩ := result
      rw [hread] at hcarries
      obtain ⟨⟨text', after'⟩, hread', -, rfl⟩ := hcarries
      obtain ⟨code, hs, rfl⟩ := Code.exists_of_read scanner.maxNesting_pos hread
      obtain ⟨code', hs', rfl⟩ := Code.exists_of_read scanner.maxNesting_pos hread'
      obtain rfl : code' = layout.text code := by
        rw [hs, text_append, text_cons layout _ (by decide)] at hs'
        exact List.append_cancel_right hs'.symm
      rw [Scanner.codeToken_of_read hread, Scanner.codeToken_of_read hread']
      refine ⟨_, rfl, ?_, rfl⟩
      simp [Respells]
  | error f =>
      rw [hread] at hcarries
      by_cases hfault : ∃ q, f.error.fault = .unterminated ⟨.code, q⟩
      · obtain ⟨q, hq⟩ := hfault
        have hq' : (f.mapPos layout.pos).error.fault = .unterminated ⟨.code, layout.pos q⟩ := by
          simp only [Failure.mapPos, Error.mapPos, hq]
          rfl
        rw [Scanner.codeToken_of_unclosed hread hq, Scanner.codeToken_of_unclosed hcarries hq']
        cases scanner.unclosedCode with
        | refused => exact rfl
        | dropped => exact ⟨_, rfl, rfl, rfl⟩
      · have hne : ∀ q, (f.mapPos layout.pos).error.fault ≠ .unterminated ⟨.code, q⟩ :=
          fun q hq => hfault (exists_of_mapPos_unterminated hq)
        rw [Scanner.codeToken_of_other hread fun q hq => hfault ⟨q, hq⟩,
          Scanner.codeToken_of_other hcarries hne]
        exact rfl

/-- What a layout changes ends a word, and anything else of one line. -/
theorem takeWhile_text {q : Char → Bool} (hlf : q '\n' = false) (hcr : q '\r' = false)
    (layout : Layout) (s : List Char) :
    (layout.text s).takeWhile q = s.takeWhile q ∧
      (layout.text s).dropWhile q = layout.text (s.dropWhile q) := by
  induction s with
  | nil => exact ⟨rfl, rfl⟩
  | cons c s ih =>
      by_cases hc : c = '\n'
      · subst c
        rw [List.takeWhile_cons_of_neg (by simp [hlf]), List.dropWhile_cons_of_neg (by simp [hlf]),
          text_line]
        rcases layout.isLineBreak with heol | heol <;> rw [heol]
        · exact ⟨List.takeWhile_cons_of_neg (by simp [hlf]),
            List.dropWhile_cons_of_neg (by simp [hlf])⟩
        · exact ⟨List.takeWhile_cons_of_neg (by simp [hcr]),
            List.dropWhile_cons_of_neg (by simp [hcr])⟩
      · rw [text_cons layout s hc]
        by_cases hq : q c = true
        · rw [List.takeWhile_cons_of_pos hq, List.takeWhile_cons_of_pos hq,
            List.dropWhile_cons_of_pos hq, List.dropWhile_cons_of_pos hq, ih.1]
          exact ⟨rfl, ih.2⟩
        · rw [List.takeWhile_cons_of_neg hq, List.takeWhile_cons_of_neg hq,
            List.dropWhile_cons_of_neg hq, List.dropWhile_cons_of_neg hq, text_cons layout s hc]
          exact ⟨rfl, rfl⟩

theorem ofWord_respells (layout : Layout) (word : String) :
    layout.Respells (.ofWord word) (.ofWord word) := by
  refine respells_of_ne (fun s => ?_) fun s => ?_
  · unfold Token.ofWord Token.reserved?
    grind
  · unfold Token.ofWord Token.reserved?
    grind

theorem symbol?_respells (layout : Layout) {c : Char} (h : Token.symbol? c = some t) :
    layout.Respells t t := by
  refine respells_of_ne (fun s hs => ?_) fun s hs => ?_
  · subst t
    unfold Token.symbol? at h
    grind
  · subst t
    unfold Token.symbol? at h
    grind

theorem wordToken_layout (h : layout.Fits ⟨p, s⟩) :
    layout.Respells (Scanner.wordToken p s).1
        (Scanner.wordToken (layout.pos p) (layout.text s)).1 ∧
      (Scanner.wordToken (layout.pos p) (layout.text s)).2 =
        layout.place (Scanner.wordToken p s).2 := by
  obtain ⟨htake, hdrop⟩ := takeWhile_text (q := isWordChar) rfl rfl layout s
  have hline : '\n' ∉ s.takeWhile isWordChar := fun hmem =>
    absurd (List.all_eq_true.1 List.all_takeWhile '\n' hmem) (by decide)
  unfold Scanner.wordToken
  rw [htake, hdrop, layout.place_after h.line, text_of_not_mem layout hline]
  exact ⟨ofWord_respells layout _, rfl⟩

theorem token_layout (scanner : Scanner) (h : layout.Fits ⟨p, s⟩)
    (hstuck : Scanner.startsGap s = false) :
    layout.Carries (fun a b => layout.Respells a.1 b.1 ∧ b.2 = layout.place a.2)
      (scanner.token p s) (scanner.token (layout.pos p) (layout.text s)) := by
  cases s with
  | nil => exact ⟨_, rfl, rfl, rfl⟩
  | cons c s =>
      have hlf : c ≠ '\n' := by
        rintro rfl
        cases hstuck
      have hword := wordToken_layout h
      rw [text_cons layout s hlf] at hword ⊢
      by_cases hquote : c = '\''
      · subst c
        exact characterToken_layout h
      · by_cases hstring : c = '"'
        · subst c
          exact stringToken_layout scanner h
        · by_cases hcode : c = '{'
          · subst c
            exact codeToken_layout scanner h
          · by_cases hc : isWordStart c
            · rw [Scanner.token_of_wordStart scanner p s hc,
                Scanner.token_of_wordStart scanner _ _ hc]
              exact ⟨_, rfl, hword⟩
            · rw [Bool.not_eq_true] at hc
              cases ht : Token.symbol? c with
              | some t =>
                  rw [Scanner.token_of_symbol scanner p s hc ht,
                    Scanner.token_of_symbol scanner _ _ hc ht]
                  refine ⟨_, rfl, symbol?_respells layout ht, ?_⟩
                  rw [place, layout.pos_next_of_ne h.line hlf]
              | none =>
                  rw [Scanner.token_of_unknown scanner p s hquote ⟨hstring, hcode⟩ hc ht,
                    Scanner.token_of_unknown scanner _ _ hquote ⟨hstring, hcode⟩ hc ht]
                  exact rfl

/-! ## Runs -/

theorem next_layout (scanner : Scanner) (h : layout.Fits place) :
    layout.Carries (fun a b => layout.Matches a.1 b.1 ∧ b.2 = layout.place a.2)
      (scanner.next place) (scanner.next (layout.place place)) := by
  rw [Scanner.next_eq_bind, Scanner.next_eq_bind]
  refine (skipGap_layout scanner h).bind fun gap gap' hgap hplace => ?_
  subst hplace
  have hfits := h.reaches (Scanner.reaches_of_skipGap hgap)
  refine (token_layout scanner hfits (Scanner.not_startsGap_of_skipGap hgap)).map ?_
  rintro ⟨t, after⟩ ⟨t', after'⟩ - ⟨ht, rfl⟩
  exact ⟨⟨ht, rfl, rfl⟩, rfl⟩

theorem run_layout (scanner : Scanner) (h : layout.Fits place) :
    List.Forall₂ layout.Matches (scanner.runFrom place).lexemes
        (scanner.runFrom (layout.place place)).lexemes ∧
      layout.Carries (fun a b => layout.Matches a.1 b.1 ∧ b.2 = layout.place a.2)
        (scanner.runFrom place).final (scanner.runFrom (layout.place place)).final := by
  fun_induction Scanner.runFrom scanner place with
  | case1 place f hnext =>
      have hcarries := next_layout scanner h
      rw [hnext] at hcarries
      rw [Scanner.runFrom_of_error hcarries]
      exact ⟨.nil, rfl⟩
  | case2 place x after hnext hx =>
      have hcarries := next_layout scanner h
      rw [hnext] at hcarries
      obtain ⟨⟨y, after'⟩, hnext', hmatches, rfl⟩ := hcarries
      rw [Scanner.runFrom_of_end hnext' (hmatches.token.end_iff.2 hx)]
      exact ⟨.nil, _, rfl, hmatches, rfl⟩
  | case3 place x after hnext hx hlt run ih =>
      have hcarries := next_layout scanner h
      rw [hnext] at hcarries
      obtain ⟨⟨y, after'⟩, hnext', hmatches, rfl⟩ := hcarries
      obtain ⟨hlexemes, hfinal⟩ := ih (h.reaches (Scanner.reaches_of_next hnext))
      rw [Scanner.runFrom_of_ok hnext' (mt hmatches.token.end_iff.1 hx)]
      exact ⟨.cons hmatches hlexemes, hfinal⟩

/-- If a run passes `ts` and then goes on like that of `text` in another layout, then what is read
is `ts` and what is read of `text`, or the error there. -/
theorem lexemes_layout {scanner : Scanner} {text text' : String} {ts ys : List Lexeme}
    (hmatches : List.Forall₂ layout.Matches (scanner.run text).lexemes ys)
    (hlexemes : (scanner.run text').lexemes = ts ++ ys)
    (hcarries : layout.Carries (fun a b => layout.Matches a.1 b.1 ∧ b.2 = layout.place a.2)
      (scanner.run text).final (scanner.run text').final) :
    match scanner.lexemes text with
    | .ok xs => ∃ ys, List.Forall₂ layout.Matches xs ys ∧ scanner.lexemes text' = .ok (ts ++ ys)
    | .error e => scanner.lexemes text' = .error (e.mapPos layout.pos) := by
  cases hfinal : (scanner.run text).final with
  | error f =>
      rw [hfinal] at hcarries
      rw [Scanner.lexemes_of_final_error hfinal, Scanner.lexemes_of_final_error hcarries]
      rfl
  | ok result =>
      obtain ⟨x, after⟩ := result
      rw [hfinal] at hcarries
      obtain ⟨⟨y, after'⟩, hfinal', hlast, -⟩ := hcarries
      rw [Scanner.lexemes_of_final hfinal, Scanner.lexemes_of_final hfinal', hlexemes,
        List.append_assoc]
      exact ⟨ys ++ [y], List.rel_append hmatches (.cons hlast .nil), rfl⟩

end Layout

end LexDef

import LexDef.Proofs.Literal.Recognition
import LexDef.Proofs.Tiling
/-!
# Words

A word is read as far as it goes, and only the whole word decides which token it is: a lone
underscore, a reserved word or an identifier. What stands behind a word could not have been a part
of it: `Scanner.maximal_munch`.
-/

namespace LexDef

namespace Word

def IsLetter (c : Char) : Prop := ('A' ≤ c ∧ c ≤ 'Z') ∨ ('a' ≤ c ∧ c ≤ 'z')

def IsStart (c : Char) : Prop := IsLetter c ∨ c = '_'

def IsPart (c : Char) : Prop := IsLetter c ∨ ('0' ≤ c ∧ c ≤ '9') ∨ c = '_' ∨ c = '\''

def IsWord (w : List Char) : Prop := ∃ c tail, w = c :: tail ∧ IsStart c ∧ ∀ d ∈ tail, IsPart d

structure Longest (s w rest : List Char) : Prop where
  word : IsWord w
  text_eq : s = w ++ rest
  longest : ∀ w', IsWord w' → w' <+: s → w'.length ≤ w.length

def reserved : List (String × Token) :=
  [("rule", .rule), ("parse", .parse), ("eof", .eof), ("let", .let_), ("and", .and_)]

def meaning (w : List Char) : Token :=
  if w = ['_'] then .underscore
  else
    match reserved.lookup (String.ofList w) with
    | some t => t
    | none => .ident (String.ofList w)

def IsMeaning (t : Token) : Prop :=
  t = .underscore ∨ t ∈ reserved.map Prod.snd ∨ ∃ name, t = .ident name

variable {c d : Char} {s w rest tail : List Char} {t : Token}

theorem isLetter_iff (c : Char) : IsLetter c ↔ c.isAlpha := by
  rw [IsLetter, CharForm.isUpper_iff, CharForm.isLower_iff]
  exact (Bool.or_eq_true_iff).symm

theorem isStart_iff (c : Char) : IsStart c ↔ isWordStart c := by
  simp [IsStart, isWordStart, isLetter_iff]

theorem isPart_iff (c : Char) : IsPart c ↔ isWordChar c := by
  have hdigit : ('0' ≤ c ∧ c ≤ '9') ↔ c.isDigit := CharForm.isDecimalDigit_iff c
  simp only [IsPart, isWordChar, isLetter_iff, hdigit, Char.isAlphanum, Bool.or_eq_true,
    decide_eq_true_eq]
  tauto

theorem IsStart.isPart (h : IsStart c) : IsPart c := by
  rcases h with h | h
  · exact .inl h
  · exact .inr (.inr (.inl h))

theorem IsPart.lt (h : IsPart c) : c.toNat < 128 := by
  have hle : ∀ d : Char, d.toNat < 128 → c ≤ d → c.toNat < 128 := by
    intro d hd hcd
    rw [Char.le_def, UInt32.le_iff_toNat_le] at hcd
    exact Nat.lt_of_le_of_lt hcd hd
  rcases h with (h | h) | h | rfl | rfl
  · exact hle 'Z' (by decide) h.2
  · exact hle 'z' (by decide) h.2
  · exact hle '9' (by decide) h.2
  · decide
  · decide

theorem IsWord.isPart (h : IsWord w) : ∀ d ∈ w, IsPart d := by
  obtain ⟨c, tail, rfl, hc, htail⟩ := h
  intro d hd
  rcases List.mem_cons.1 hd with rfl | hd
  · exact hc.isPart
  · exact htail d hd

theorem IsWord.append (h : IsWord w) (hs : ∀ d ∈ s, IsPart d) : IsWord (w ++ s) := by
  obtain ⟨c, tail, rfl, hc, htail⟩ := h
  refine ⟨c, tail ++ s, rfl, hc, fun d hd => ?_⟩
  rcases List.mem_append.1 hd with hd | hd
  · exact htail d hd
  · exact hs d hd

/-- A word is the longest one if no part of a word follows it. -/
theorem longest_iff :
    Longest s w rest ↔ IsWord w ∧ s = w ++ rest ∧ ∀ d u, rest = d :: u → ¬IsPart d := by
  constructor
  · rintro ⟨hword, hs, hlongest⟩
    refine ⟨hword, hs, ?_⟩
    rintro d u rfl hd
    -- with `d` behind it the word would go on
    have hlonger : IsWord (w ++ [d]) := hword.append (by simpa using hd)
    have hlen := hlongest (w ++ [d]) hlonger ⟨u, by simp [hs]⟩
    rw [List.length_append, List.length_singleton] at hlen
    omega
  · rintro ⟨hword, hs, hbehind⟩
    refine ⟨hword, hs, fun w' hword' ⟨u, hu⟩ => ?_⟩
    rw [hs] at hu
    rcases List.append_eq_append_iff.1 hu with ⟨v, hv, -⟩ | ⟨v, hv, hrest⟩
    · rw [hv, List.length_append]
      omega
    · cases v with
      | nil => simp [hv]
      | cons d v =>
          -- a longer word would hold the first character behind `w`
          have hd : d ∈ w' := by simp [hv]
          exact absurd (hword'.isPart d hd) (hbehind d (v ++ u) hrest)

theorem takeWhile_eq (h : Longest s w rest) :
    s.takeWhile isWordChar = w ∧ s.dropWhile isWordChar = rest := by
  obtain ⟨hword, rfl, hbehind⟩ := longest_iff.1 h
  have hall : ∀ d ∈ w, isWordChar d = true := fun d hd => (isPart_iff d).1 (hword.isPart d hd)
  rw [List.takeWhile_append_of_pos hall, List.dropWhile_append_of_pos hall]
  cases rest with
  | nil => simp
  | cons d u =>
      have hd : ¬isWordChar d = true := mt (isPart_iff d).2 (hbehind d u rfl)
      rw [List.takeWhile_cons_of_neg hd, List.dropWhile_cons_of_neg hd, List.append_nil]
      exact ⟨rfl, rfl⟩

theorem longest_takeWhile (hc : isWordStart c) (s : List Char) :
    Longest (c :: s) ((c :: s).takeWhile isWordChar) ((c :: s).dropWhile isWordChar) := by
  have hpart : isWordChar c = true := Scanner.isWordChar_of_isWordStart hc
  refine longest_iff.2 ⟨?_, List.takeWhile_append_dropWhile.symm, fun d u hrest hd => ?_⟩
  · rw [List.takeWhile_cons_of_pos hpart]
    have hall : ∀ d ∈ s.takeWhile isWordChar, isWordChar d = true :=
      List.all_eq_true.1 List.all_takeWhile
    exact ⟨c, _, rfl, (isStart_iff c).2 hc, fun d hd => (isPart_iff d).2 (hall d hd)⟩
  · have hnot := List.head?_dropWhile_not isWordChar (c :: s)
    rw [hrest] at hnot
    simp [(isPart_iff d).1 hd] at hnot

/-! ## The token of a word -/

theorem reserved?_eq_lookup (word : String) : Token.reserved? word = reserved.lookup word := by
  unfold Token.reserved? reserved
  split_ifs with h₁ h₂ h₃ h₄ h₅
  · rw [h₁]
    rfl
  · rw [h₂]
    rfl
  · rw [h₃]
    rfl
  · rw [h₄]
    rfl
  · rw [h₅]
    rfl
  · symm
    rw [List.lookup_eq_none_iff]
    simp [h₁, h₂, h₃, h₄, h₅]

theorem ofWord_eq_meaning (w : List Char) : Token.ofWord (String.ofList w) = meaning w := by
  have hunderscore : String.ofList w = "_" ↔ w = ['_'] := by
    rw [← String.toList_inj, String.toList_ofList]
    rfl
  rw [Token.ofWord, meaning, reserved?_eq_lookup]
  simp only [hunderscore]
  cases reserved.lookup (String.ofList w) <;> rfl

/-- The underscore is the only word among the symbols, and it is read as a word. -/
theorem not_isMeaning_of_symbol (hc : isWordStart c = false) (ht : Token.symbol? c = some t) :
    ¬IsMeaning t := by
  unfold Token.symbol? at ht
  split at ht
  case h_11 => cases hc
  all_goals cases ht
  all_goals simp [IsMeaning, reserved]

theorem exists_longest_of_takes {scanner : Scanner} {p : Position} {after : Place}
    (h : Scanner.Takes scanner p s t after) (ht : IsMeaning t) :
    ∃ w, Longest s w after.rest ∧ t = meaning w ∧ after.pos = p.after w := by
  cases h with
  | word hc => exact ⟨_, longest_takeWhile hc _, ofWord_eq_meaning _, rfl⟩
  | symbol hc hsymbol => exact absurd ht (not_isMeaning_of_symbol hc hsymbol)
  | character hform htoken =>
      rcases CharForm.token_cases htoken with ⟨unit, rfl⟩ | ⟨c₁, c₂, -, rfl⟩
      · simp [IsMeaning, reserved] at ht
      · simp [IsMeaning, reserved] at ht
  | ended | string | code | dropped => simp [IsMeaning, reserved] at ht

/-- Where the longest word stands, its token is read, and nothing else. -/
theorem gives_of_longest (h : Longest s w rest) (scanner : Scanner) (p : Position) :
    scanner.Gives p s (.ok ({ token := meaning w, start := p, stop := p.after w },
      ⟨p.after w, rest⟩)) := by
  obtain ⟨c, tail, rfl, hc, -⟩ := h.word
  obtain ⟨htake, hdrop⟩ := takeWhile_eq h
  have hs : s = c :: (tail ++ rest) := h.text_eq
  have hstart : isWordStart c = true := (isStart_iff c).1 hc
  have hgap : Scanner.startsGap s = false := by
    rw [hs]
    unfold Scanner.startsGap
    split <;> simp_all [isWordStart]
  have htoken := Scanner.token_of_wordStart scanner p (tail ++ rest) hstart
  rw [← hs, Scanner.wordToken, htake, hdrop, ofWord_eq_meaning] at htoken
  exact Scanner.gives_of_token hgap htoken

example : meaning "let'".toList = .ident "let'" ∧ meaning "let".toList = .let_ := by decide

/-! ## Words in a run -/

structure LiesIn (x : Lexeme) (text : String) (pre w rest : List Char) : Prop where
  text_eq : text.toList = pre ++ w ++ rest
  start : x.start = ({} : Position).after pre
  stop : x.stop = ({} : Position).after (pre ++ w)
  longest : Longest (w ++ rest) w rest
  token : x.token = meaning w

variable {scanner : Scanner} {text : String} {x : Lexeme} {pre post : List Char}

theorem exists_liesIn (hx : x ∈ (scanner.run text).lexemes) (ht : IsMeaning x.token) :
    ∃ pre w rest, LiesIn x text pre w rest := by
  obtain ⟨a, b, gap, piece, hreaches, cut⟩ := Scanner.exists_cut_of_mem_run hx
  obtain ⟨pre, htext, hstart⟩ :=
    Place.exists_of_ofString_reaches (hreaches.trans cut.reaches_start)
  obtain ⟨w, hlongest, hmeaning, -⟩ := exists_longest_of_takes (Scanner.takes_of_token cut.taken) ht
  obtain rfl : piece = w := List.append_cancel_right hlongest.text_eq
  refine ⟨pre, piece, b.rest, ?_, hstart, ?_, hlongest, hmeaning⟩
  · rw [htext, List.append_assoc]
  · rw [cut.stop, hstart, Position.after_append]

theorem LiesIn.slice_eq (h : LiesIn x text pre w rest) :
    slice text x.start.offset x.stop.offset = String.ofList w := by
  rw [h.start, h.stop]
  exact slice_after h.text_eq

theorem LiesIn.not_isPart {before : List Char} (h : LiesIn x text pre w rest)
    (htext : text.toList = before ++ d :: post) (hlen : String.utf8Len before = x.stop.offset) :
    ¬IsPart d := by
  have hoffset : x.stop.offset = String.utf8Len (pre ++ w) := by
    rw [h.stop, Position.after_offset, Nat.zero_add]
  have hsplit : pre ++ w ++ rest = before ++ d :: post := h.text_eq.symm.trans htext
  obtain rfl := eq_of_utf8Len hsplit (by rw [hlen, hoffset])
  exact (longest_iff.1 h.longest).2.2 d post (List.append_cancel_left hsplit)

theorem ident_of_meaning {name : String} (h : meaning w = .ident name) :
    String.ofList w = name ∧ name ≠ "_" ∧ ∀ t, (name, t) ∉ reserved := by
  unfold meaning at h
  split at h
  · cases h
  · rename_i hunderscore
    split at h
    · rename_i t hlookup
      obtain ⟨before, later, hsplit, -⟩ := List.lookup_eq_some_iff.1 hlookup
      have hmem : (String.ofList w, t) ∈ reserved := by simp [hsplit]
      rw [h] at hmem
      simp [reserved] at hmem
    · rename_i hlookup
      cases h
      refine ⟨rfl, ?_, fun t hmem => ?_⟩
      · rw [← String.toList_inj.ne, String.toList_ofList]
        exact hunderscore
      · simpa using List.lookup_eq_none_iff.1 hlookup _ hmem

end Word

namespace Scanner

open Word

structure MaximalMunch (scanner : Scanner) : Prop where
  longest_iff : ∀ s, (∃ w rest, Longest s w rest) ↔ ∃ c u, s = c :: u ∧ IsStart c
  /-- Exactly the longest word is read, and its token is told by the whole of it. -/
  next : ∀ p s w rest, Longest s w rest →
    scanner.Gives p s (.ok ({ token := meaning w, start := p, stop := p.after w },
      ⟨p.after w, rest⟩))
  /-- A character outside of ASCII is no part of a word and ends the word before it. -/
  not_ascii : ∀ c : Char, 128 ≤ c.toNat → ¬IsPart c ∧ ∀ p w rest, IsWord w →
    scanner.Gives p (w ++ c :: rest) (.ok ({ token := meaning w, start := p, stop := p.after w },
      ⟨p.after w, c :: rest⟩))
  lexeme : ∀ text, ∀ x ∈ (scanner.run text).lexemes, IsMeaning x.token →
    ∃ pre w rest, LiesIn x text pre w rest
  boundary : ∀ text, ∀ x ∈ (scanner.run text).lexemes, IsMeaning x.token →
    ∀ before c later, text.toList = before ++ c :: later →
      String.utf8Len before = x.stop.offset → ¬IsPart c
  ident : ∀ text, ∀ x ∈ (scanner.run text).lexemes, ∀ name, x.token = .ident name →
    slice text x.start.offset x.stop.offset = name ∧ name ≠ "_" ∧ ∀ t, (name, t) ∉ reserved

/-- Words are read as far as they go, whatever follows them. -/
theorem maximal_munch (scanner : Scanner) : scanner.MaximalMunch where
  longest_iff s := by
    constructor
    · rintro ⟨w, rest, hword, hs, -⟩
      obtain ⟨c, tail, rfl, hc, -⟩ := hword
      exact ⟨c, tail ++ rest, hs, hc⟩
    · rintro ⟨c, u, rfl, hc⟩
      exact ⟨_, _, longest_takeWhile ((isStart_iff c).1 hc) u⟩
  next p _ _ _ h := gives_of_longest h scanner p
  not_ascii c hc := by
    have hpart : ¬IsPart c := fun h => Nat.not_lt.2 hc h.lt
    refine ⟨hpart, fun p w rest hw => gives_of_longest (Word.longest_iff.2 ⟨hw, rfl, ?_⟩) scanner p⟩
    rintro d u hrest
    rw [← (List.cons.inj hrest).1]
    exact hpart
  lexeme _ _ hx ht := exists_liesIn hx ht
  boundary _ _ hx ht _ _ _ htext hlen := by
    obtain ⟨pre, w, rest, h⟩ := exists_liesIn hx ht
    exact h.not_isPart htext hlen
  ident text x hx name hname := by
    obtain ⟨pre, w, rest, h⟩ := exists_liesIn hx (.inr (.inr ⟨name, hname⟩))
    obtain ⟨hw, hne, hreserved⟩ := ident_of_meaning (h.token.symm.trans hname)
    exact ⟨h.slice_eq.trans hw, hne, hreserved⟩

end Scanner

end LexDef

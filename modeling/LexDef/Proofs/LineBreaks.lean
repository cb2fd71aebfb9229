import LexDef.Proofs.Layout.Scanner
import LexDef.Proofs.Stream.Positions
/-!
# Line breaks with and without carriage returns

A text is read alike whether its line breaks are written with carriage returns or without. Only
offsets show the difference, and the texts that stand in action code and in strings.
-/

namespace LexDef

def withCrlf (text : String) : String :=
  String.ofList (text.toList.flatMap fun c => if c = '\n' then ['\r', '\n'] else [c])

/-- The position in the text with carriage returns that corresponds to one in `text`: its offset
counts a further byte for each line feed before it. -/
def Position.withCrlf (text : String) (p : Position) : Position :=
  { p with offset := p.offset + (slice text 0 p.offset).toList.count '\n' }

/-- What becomes of a token with carriage returns: action code has them, too, and a string may. -/
def Token.WithCrlf : Token → Token → Prop
  | .code s, t => t = .code (LexDef.withCrlf s)
  | .string s, t =>
    ∃ s', t = .string s' ∧ s'.toList.filter (· ≠ '\r') = s.toList.filter (· ≠ '\r')
  | s, t => t = s

structure Lexeme.WithCrlf (text : String) (x y : Lexeme) : Prop where
  token : x.token.WithCrlf y.token
  start : y.start = x.start.withCrlf text
  stop : y.stop = x.stop.withCrlf text

def Position.widen (p : Position) : Position :=
  { p with offset := p.offset + (p.line - 1) }

theorem Position.widen_line {p : Position} (hp : 1 ≤ p.line) :
    (p.next '\n').widen = p.widen.after ['\r', '\n'] := by
  have hoffset : p.offset + 1 + (p.line + 1 - 1) = p.offset + (p.line - 1) + 2 := by omega
  simp only [after_crlf, next, if_pos, down, widen, hoffset]

theorem Position.widen_of_ne {c : Char} (hc : c ≠ '\n') (p : Position) :
    (p.next c).widen = p.widen.next c := by
  have hoffset : p.offset + c.utf8Size + (p.line - 1) = p.offset + (p.line - 1) + c.utf8Size := by
    omega
  simp only [next_of_ne hc, right, widen, hoffset]

def Layout.crlf : Layout where
  lineBreak := ['\r', '\n']
  pos := Position.widen
  isLineBreak := .inr rfl
  pos_next p c hp := by
    by_cases hc : c = '\n'
    · subst c
      exact Position.widen_line hp
    · rw [if_neg hc]
      exact Position.widen_of_ne hc p

/-! ## Moving positions that are in the text -/

section Congr

variable {f g : Position → Position}

theorem Fault.mapPos_congr {fault : Fault} (h : ∀ p ∈ fault.position?, f p = g p) :
    fault.mapPos f = fault.mapPos g := by
  cases fault with
  | unexpected c p | surrogatePair p | tooDeep n p => simp only [mapPos, h p rfl]
  | unterminated r => simp only [mapPos, Region.mapPos, h r.start rfl]
  | notADigit | notAHexDigit | digitCount | codeTooLarge | beyondUnicode | badSettings => rfl

theorem Mode.mapPos_congr {mode : Mode} (h : ∀ p ∈ mode.start?, f p = g p) :
    mode.mapPos f = mode.mapPos g := by
  cases mode with
  | token => rfl
  | region r => simp only [mapPos, Region.mapPos, h r.start rfl]

theorem Error.mapPos_congr {e : Error} (h : ∀ p ∈ e.positions, f p = g p) :
    e.mapPos f = e.mapPos g := by
  simp only [positions, List.mem_append, Option.mem_toList, List.mem_filterMap] at h
  have hfault : e.fault.mapPos f = e.fault.mapPos g :=
    Fault.mapPos_congr fun p hp => h p (.inl (.inl hp))
  have hlocation : e.location.map f = e.location.map g :=
    Option.map_congr fun p hp => h p (.inl (.inr hp))
  have henclosing : e.enclosing.map (Mode.mapPos f) = e.enclosing.map (Mode.mapPos g) :=
    List.map_congr_left fun m hm => Mode.mapPos_congr fun p hp => h p (.inr ⟨m, hm, hp⟩)
  rw [mapPos, hfault, hlocation, henclosing]
  rfl

end Congr

/-- Before a position there are as many line feeds as its line says. -/
theorem Position.IsIn.widen_eq {text : String} {p : Position} (h : p.IsIn text) :
    p.widen = p.withCrlf text := by
  obtain ⟨before, behind, htext, hoffset, hline, -⟩ := h
  rw [String.utf8ByteSize_ofList] at hoffset
  have hslice : slice text 0 p.offset = String.ofList before := by
    have hsplit : text.toList = [] ++ before ++ behind := htext
    have hpre := slice_utf8Len hsplit
    rw [String.utf8Len_nil, Nat.zero_add, ← hoffset] at hpre
    exact hpre
  have hcount : p.line - 1 = (slice text 0 p.offset).toList.count '\n' := by
    rw [hslice, String.toList_ofList, hline, Nat.add_sub_cancel_left]
  rw [withCrlf, ← hcount, widen]

/-! ## Lexemes -/

namespace Scanner

variable {scanner : Scanner} {text : String} {x y : Lexeme} {xs ys : List Lexeme}

theorem withCrlf_of_matches (hx : ∀ p ∈ x.positions, p.IsIn text) (h : Layout.crlf.Matches x y) :
    x.WithCrlf text y where
  token := by
    obtain ⟨t, p, q⟩ := x
    have htoken := h.token
    cases t with
    | code s => exact htoken
    | string s =>
        obtain ⟨s', hs', hbare⟩ := htoken
        refine ⟨s', hs', ?_⟩
        simpa [Layout.bare, Layout.crlf] using hbare
    | _ => exact htoken
  start := h.start.trans (hx x.start (by simp [Lexeme.positions])).widen_eq
  stop := h.stop.trans (hx x.stop (by simp [Lexeme.positions])).widen_eq

theorem forall₂_withCrlf (hxs : ∀ x ∈ xs, ∀ p ∈ x.positions, p.IsIn text)
    (h : List.Forall₂ Layout.crlf.Matches xs ys) :
    List.Forall₂ (Lexeme.WithCrlf text) xs ys := by
  induction h with
  | nil => exact .nil
  | cons hhead _ ih =>
      rw [List.forall_mem_cons] at hxs
      exact .cons (withCrlf_of_matches hxs.1 hhead) (ih hxs.2)

/-- A text without carriage returns is read alike if its line breaks are written with them. -/
theorem lexemes_withCrlf (scanner : Scanner) (h : '\r' ∉ text.toList) :
    List.Forall₂ (Lexeme.WithCrlf text) (scanner.run text).lexemes
      (scanner.run (withCrlf text)).lexemes ∧
    match scanner.lexemes text with
    | .ok xs => ∃ ys, scanner.lexemes (withCrlf text) = .ok ys ∧
        List.Forall₂ (Lexeme.WithCrlf text) xs ys
    | .error e => scanner.lexemes (withCrlf text) = .error (e.mapPos (Position.withCrlf text)) := by
  have hfits : Layout.crlf.Fits (.ofString text) := ⟨Nat.le_refl 1, .inr h⟩
  have hplace : Layout.crlf.place (.ofString text) = .ofString (withCrlf text) := by
    rw [Place.ofString, Place.ofString, withCrlf, String.toList_ofList]
    rfl
  obtain ⟨hmatches, hcarries⟩ := Layout.run_layout scanner hfits
  rw [hplace] at hmatches hcarries
  have hlexemes := forall₂_withCrlf (fun x hx => isIn_of_mem_lexemes scanner text hx) hmatches
  refine ⟨hlexemes, ?_⟩
  have hread := Layout.lexemes_layout hmatches (List.nil_append _).symm hcarries
  cases htext : scanner.lexemes text with
  | error e =>
      rw [htext] at hread
      have hcongr := Error.mapPos_congr fun p hp => (isIn_of_lexemes_error htext p hp).widen_eq
      exact hread.trans (congrArg Except.error hcongr)
  | ok xs =>
      rw [htext] at hread
      obtain ⟨ys, hys, hread⟩ := hread
      exact ⟨ys, hread, forall₂_withCrlf (isIn_of_lexemes htext) hys⟩

theorem lexemes_withCrlf_nested :
    let scanner : Scanner := { maxNesting_pos := by decide }
    let text := "\"a\\\nb\n\\013\" // é\n\x7b\n\"\\\n\x7d\"\x7d (* '\n' \"\n\\400"
    '\r' ∉ text.toList ∧
    List.Forall₂ (Lexeme.WithCrlf text) (scanner.run text).lexemes
      (scanner.run (withCrlf text)).lexemes ∧
    match scanner.lexemes text with
    | .ok xs => ∃ ys, scanner.lexemes (withCrlf text) = .ok ys ∧
        List.Forall₂ (Lexeme.WithCrlf text) xs ys
    | .error e =>
      scanner.lexemes (withCrlf text) = .error (e.mapPos (Position.withCrlf text)) := by
  intro scanner text
  have h : '\r' ∉ text.toList := by decide +kernel
  exact ⟨h, lexemes_withCrlf scanner h⟩

end Scanner

end LexDef

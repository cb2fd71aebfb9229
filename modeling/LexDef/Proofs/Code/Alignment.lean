import LexDef.Proofs.Code.Tally
import LexDef.Proofs.Position
import LexDef.Proofs.Stream.Delivery
/-!
# The indentation of action code

A text is laid out on a sheet, with a cell for each of its characters. If action code is taken out
of its text and aligned, its characters keep their columns, so that each of its lines is indented as
it was: `Scanner.alignedCode_keeps_indentation`.
-/

namespace LexDef

structure Cell where
  char : Char
  line : Nat
  column : Nat
deriving DecidableEq, Repr

def Cell.down (n : Nat) (cell : Cell) : Cell := { cell with line := n + cell.line }

/-- The cells of characters that are laid out from a line and a column on. A line feed is the last
cell of its line. -/
def cells (line column : Nat) : List Char → List Cell
  | [] => []
  | c :: s =>
    ⟨c, line, column⟩ :: if c = '\n' then cells (line + 1) 1 s else cells line (column + 1) s

def sheet (text : String) : List Cell := cells 1 1 text.toList

/-- The column of the first character of a line that is no white space. -/
def indent? (cs : List Cell) (line : Nat) : Option Nat :=
  (cs.find? fun cell => cell.line = line && !cell.char.isWhitespace).map Cell.column

/-- How the code of a lexeme stands on the sheet of its text, where its opening brace has the index
`brace`, and on a sheet of its own after it was aligned. -/
structure Lexeme.Aligned (x : Lexeme) (text code aligned : String) (brace : Nat) : Prop where
  start : String.utf8Len (text.toList.take brace) = x.start.offset ∧
    (sheet text)[brace]? = some ⟨'{', x.start.line, x.start.column⟩
  blank : ∀ i < x.start.column, (sheet aligned)[i]? = some ⟨' ', 1, 1 + i⟩
  length : aligned.toList.length = x.start.column + code.toList.length
  /-- Each character of the code stands in the same column on both sheets, and as many lines below
  the brace on the one as below the first line on the other. -/
  char : ∀ i c, code.toList[i]? = some c → ∃ lines column,
    (sheet text)[brace + 1 + i]? = some ⟨c, x.start.line + lines, column⟩ ∧
    (sheet aligned)[x.start.column + i]? = some ⟨c, 1 + lines, column⟩
  indent : ∀ lines, indent? (sheet aligned) (1 + lines) =
    indent? (((sheet text).drop (brace + 1)).take code.toList.length) (x.start.line + lines)

/-! ## Cells -/

variable {s : List Char} {c : Char} {i : Nat}

theorem cells_append (p : Position) (s t : List Char) :
    cells p.line p.column (s ++ t) =
      cells p.line p.column s ++ cells (p.after s).line (p.after s).column t := by
  induction s generalizing p with
  | nil => rfl
  | cons c s ih =>
      by_cases hc : c = '\n'
      · simpa [cells, hc, Position.next, Position.down] using ih (p.down 1)
      · simpa [cells, hc, Position.next, Position.right] using ih (p.right c)

@[simp] theorem map_char_cells (line column : Nat) (s : List Char) :
    (cells line column s).map Cell.char = s := by
  induction s generalizing line column with
  | nil => rfl
  | cons c s ih =>
      rw [cells]
      split <;> simp [ih]

@[simp] theorem length_cells (line column : Nat) (s : List Char) :
    (cells line column s).length = s.length := by
  have h := congrArg List.length (map_char_cells line column s)
  rwa [List.length_map] at h

/-- Only the lines of the cells depend on the line that they are laid out from. -/
theorem cells_down (n line column : Nat) (s : List Char) :
    cells (n + line) column s = (cells line column s).map (Cell.down n) := by
  induction s generalizing line column with
  | nil => rfl
  | cons c s ih =>
      rw [cells, cells]
      split
      · rw [Nat.add_assoc, ih]
        rfl
      · rw [ih]
        rfl

theorem cells_replicate_append (line column n : Nat) (s : List Char) :
    cells line column (List.replicate n ' ' ++ s) =
      (List.range' column n).map (⟨' ', line, ·⟩) ++ cells line (column + n) s := by
  induction n generalizing column with
  | zero => rfl
  | succ n ih =>
      rw [List.replicate_succ, List.cons_append, cells, if_neg (by decide), ih, List.range'_succ,
        Nat.add_right_comm, Nat.add_assoc]
      rfl

theorem exists_getElem?_cells (line column : Nat) (h : s[i]? = some c) :
    ∃ line' column', (cells line column s)[i]? = some ⟨c, line', column'⟩ := by
  rw [← map_char_cells line column s, List.getElem?_map, Option.map_eq_some_iff] at h
  obtain ⟨cell, hcell, rfl⟩ := h
  exact ⟨cell.line, cell.column, hcell⟩

@[simp] theorem indent?_map_down (n : Nat) (cs : List Cell) (line : Nat) :
    indent? (cs.map (Cell.down n)) (n + line) = indent? cs line := by
  have hsame : ((fun cell : Cell => decide (cell.line = n + line) && !cell.char.isWhitespace) ∘
      Cell.down n) = fun cell => decide (cell.line = line) && !cell.char.isWhitespace := by
    funext cell
    simp [Cell.down]
  rw [indent?, indent?, List.find?_map, hsame, Option.map_map]
  rfl

theorem indent?_append {blanks : List Cell} (h : ∀ cell ∈ blanks, cell.char.isWhitespace)
    (cs : List Cell) (line : Nat) : indent? (blanks ++ cs) line = indent? cs line := by
  have hnone : blanks.find? (fun cell => cell.line = line && !cell.char.isWhitespace) = none := by
    rw [List.find?_eq_none]
    intro cell hcell
    simp [h cell hcell]
  rw [indent?, indent?, List.find?_append, hnone, Option.none_or]

/-! ## Code on the two sheets -/

/-- The sheet of a text around the code behind a brace: it is laid out from the line of the brace
and the column after it. -/
theorem sheet_eq_append {text : String} {p : Position} {pre code post : List Char}
    (htext : text.toList = pre ++ '{' :: (code ++ post)) (hp : p = ({} : Position).after pre) :
    ∃ behind, sheet text = cells 1 1 pre ++ ⟨'{', p.line, p.column⟩ ::
      ((cells 0 (p.column + 1) code).map (Cell.down p.line) ++ behind) := by
  have hpre := cells_append {} pre ('{' :: (code ++ post))
  have hcode := cells_append (p.right '{') code post
  let q := (p.right '{').after code
  refine ⟨cells q.line q.column post, ?_⟩
  rw [sheet, htext, hpre, ← hp, cells, if_neg (by decide), ← cells_down]
  exact congrArg (fun cs => cells 1 1 pre ++ ⟨'{', p.line, p.column⟩ :: cs) hcode

theorem sheet_replicate_append (column : Nat) (code : List Char) :
    sheet (String.ofList (List.replicate column ' ' ++ code)) =
      (List.range' 1 column).map (⟨' ', 1, ·⟩) ++
        (cells 0 (column + 1) code).map (Cell.down 1) := by
  rw [sheet, String.toList_ofList, cells_replicate_append, Nat.add_comm 1 column, ← cells_down]

theorem aligned_of_toList_eq {x : Lexeme} {text code aligned : String} {pre post : List Char}
    (htext : text.toList = pre ++ '{' :: (code.toList ++ post))
    (hstart : x.start = ({} : Position).after pre)
    (haligned : aligned = String.ofList (List.replicate x.start.column ' ' ++ code.toList)) :
    x.Aligned text code aligned pre.length := by
  obtain ⟨behind, hsheet⟩ := sheet_eq_append htext hstart
  have hlaid := sheet_replicate_append x.start.column code.toList
  rw [← haligned] at hlaid
  -- the code itself is laid out in the same way on both sheets, but for the line it starts in
  have hcode : (sheet text).drop (pre.length + 1) =
      (cells 0 (x.start.column + 1) code.toList).map (Cell.down x.start.line) ++ behind := by
    rw [hsheet, ← List.drop_drop, List.drop_left' (length_cells 1 1 pre)]
    rfl
  have hown : (sheet aligned).drop x.start.column =
      (cells 0 (x.start.column + 1) code.toList).map (Cell.down 1) := by
    rw [hlaid, List.drop_left' (by simp)]
  constructor
  · rw [htext, List.take_left, hstart, Position.after_offset, ← hstart, hsheet,
      List.getElem?_append_right (by simp)]
    exact ⟨(Nat.zero_add _).symm, by simp⟩
  · intro i hi
    rw [hlaid, List.getElem?_append_left (by simpa using hi)]
    simp [hi]
  · simp [haligned]
  · intro i c hc
    obtain ⟨lines, column, hcell⟩ := exists_getElem?_cells 0 (x.start.column + 1) hc
    have hi : i < code.toList.length := (List.getElem?_eq_some_iff.1 hc).1
    refine ⟨lines, column, ?_, ?_⟩
    · rw [← List.getElem?_drop, hcode, List.getElem?_append_left (by simpa using hi),
        List.getElem?_map, hcell]
      rfl
    · rw [← List.getElem?_drop, hown, List.getElem?_map, hcell]
      rfl
  · intro lines
    have hblank : ∀ cell ∈ (List.range' 1 x.start.column).map (Cell.mk ' ' 1),
        cell.char.isWhitespace := by
      intro cell hcell
      obtain ⟨column, -, rfl⟩ := List.mem_map.1 hcell
      rfl
    rw [hlaid, indent?_append hblank, hcode, List.take_left' (by simp), indent?_map_down,
      indent?_map_down]

/-! ## The code of a run -/

variable {scanner : Scanner} {text : String} {x : Lexeme} {code : String}

theorem exists_of_takes_code {p : Position} {t : Token} {after : Place}
    (h : Scanner.Takes scanner p s t after) (ht : t = .code code) :
    ∃ rest, s = '{' :: (code.toList ++ '}' :: rest) := by
  cases h with
  | code hread =>
      obtain ⟨body, rfl, rfl⟩ := Code.exists_of_read scanner.maxNesting_pos hread
      rw [List.dropLast_concat] at ht
      obtain rfl := Token.code.inj ht
      exact ⟨_, by rw [String.toList_ofList]⟩
  | character hform htoken =>
      rcases CharForm.token_cases htoken with ⟨unit, rfl⟩ | ⟨c₁, c₂, -, rfl⟩ <;> cases ht
  | word hc =>
      simp only [Scanner.wordToken] at ht
      unfold Token.ofWord Token.reserved? at ht
      grind
  | symbol hc hsymbol =>
      unfold Token.symbol? at hsymbol
      grind
  | ended | string | dropped => cases ht

theorem exists_toList_eq_of_code (hx : x ∈ (scanner.run text).lexemes)
    (hcode : x.token = .code code) :
    ∃ pre post, text.toList = pre ++ '{' :: (code.toList ++ post) ∧
      x.start = ({} : Position).after pre := by
  obtain ⟨a, b, gap, piece, hreaches, cut⟩ := Scanner.exists_cut_of_mem_run hx
  obtain ⟨pre, htext, hstart⟩ :=
    Place.exists_of_ofString_reaches (hreaches.trans cut.reaches_start)
  obtain ⟨rest, hpiece⟩ := exists_of_takes_code (Scanner.takes_of_token cut.taken) hcode
  exact ⟨pre, _, by rw [htext, hpiece], hstart⟩

/-- All action code that is delivered can be aligned, and it keeps its indentation then. -/
theorem Scanner.alignedCode_keeps_indentation (h : scanner.Delivers text x)
    (hcode : x.token = .code code) :
    ∃ aligned brace, x.alignedCode? = some aligned ∧ x.Aligned text code aligned brace := by
  have hne : x.token ≠ .endOfText := by simp [hcode]
  obtain ⟨pre, post, htext, hstart⟩ := exists_toList_eq_of_code (h.mem_lexemes hne) hcode
  have haligned : x.alignedCode? =
      some (String.ofList (List.replicate x.start.column ' ' ++ code.toList)) := by
    simp only [Lexeme.alignedCode?, hcode]
  exact ⟨_, pre.length, haligned, aligned_of_toList_eq htext hstart rfl⟩

theorem Scanner.alignedCode_keeps_indentation_nested :
    let scanner : Scanner := { maxNesting_pos := by decide }
    let text := "'é' (*\r\nü*)\t\x7b a\r\n \x7b \"\x7d\n  ü\" \x7d\x7d"
    let code := " a\r\n \x7b \"\x7d\n  ü\" \x7d"
    let x : Lexeme := { token := .code code, start := ⟨2, 5, 14⟩, stop := ⟨4, 8, 33⟩ }
    scanner.Delivers text x ∧ x.token = .code code ∧
    ∃ aligned brace, x.alignedCode? = some aligned ∧ x.Aligned text code aligned brace := by
  intro scanner text code x
  have h : scanner.Delivers text x := .run (by decide +kernel)
  exact ⟨h, rfl, alignedCode_keeps_indentation h rfl⟩

end LexDef

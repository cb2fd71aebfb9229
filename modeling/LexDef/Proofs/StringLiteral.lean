import LexDef.Proofs.Escape
import LexDef.Proofs.Position
import LexDef.Proofs.Region.Steps
import LexDef.Scanner.Token
/-!
# What a string literal stands for

The text of a string literal is told by one character after the other, and a backslash by the few
characters after it. Reading a literal as a region gives that text, ends at the same place and fails
in the same way, on its own and inside comments, and so does a reader that takes runs of plain
characters at once, whichever characters it counts as plain: `stringToken_eq_decode`.
-/

namespace LexDef.StringLiteral

def named : List (Char × Char) :=
  [('\\', '\\'), ('"', '"'), ('\'', '\''), ('n', '\n'), ('t', '\t'), ('b', '\x08'), ('r', '\r')]

def number (digits : List Char) : Nat :=
  digits.foldl (fun n d => n * 10 + (d.toNat - '0'.toNat)) 0

/-- What a backslash before `s` stands for, and how many characters of `s` belong to it; or the
number of a character code that is too large. -/
def escape (s : List Char) : Except Nat (List Char × Nat) :=
  if s.take 1 = ['\n'] then .ok ([], 1)
  else if s.take 2 = ['\r', '\n'] then .ok ([], 2)
  else if 3 ≤ s.length ∧ (s.take 3).all Char.isDigit then
    if number (s.take 3) ≤ 255 then .ok ([Char.ofNat (number (s.take 3))], 3)
    else .error (number (s.take 3))
  else
    match s.head?.bind fun c => named.lookup c with
    | some c => .ok ([c], 1)
    | none => .ok (['\\'], 0)

def unclosed (opening stop : Position) : Failure :=
  { error := { fault := .unterminated ⟨.string, opening⟩ }, stop }

def tooLarge (code : Nat) (p : Position) : Failure :=
  { error := { fault := .codeTooLarge code, location := some p }, stop := p.next '\\' }

/-- The text of a literal that is opened at `opening` and goes on with `s` at `p`, and the place
behind its closing quote. -/
def decode (opening p : Position) (s : List Char) : Except Failure (List Char × Place) :=
  match s with
  | [] => .error (unclosed opening p)
  | '"' :: s => .ok ([], ⟨p.next '"', s⟩)
  | '\\' :: s =>
    match escape s with
    | .error code => .error (tooLarge code p)
    | .ok (text, more) =>
      (decode opening ((p.next '\\').after (s.take more)) (s.drop more)).map
        (Prod.map (text ++ ·) id)
  | c :: s => (decode opening (p.next c) s).map (Prod.map (c :: ·) id)
termination_by s.length

/-- The same text, read in runs of plain characters. A run stays on its line, so its end is found by
moving right. -/
def decodeRuns (plain : Char → Bool) (opening p : Position) (s : List Char) :
    Except Failure (List Char × Place) :=
  match s with
  | [] => .error (unclosed opening p)
  | '\n' :: s => (decodeRuns plain opening (p.down 1) s).map (Prod.map ('\n' :: ·) id)
  | '\r' :: '\n' :: s =>
    (decodeRuns plain opening (p.down 2) s).map (Prod.map (['\r', '\n'] ++ ·) id)
  | '"' :: s => .ok ([], ⟨p.right '"', s⟩)
  | '\\' :: s =>
    match escape s with
    | .error code => .error (tooLarge code p)
    | .ok (text, more) =>
      (decodeRuns plain opening ((p.next '\\').after (s.take more)) (s.drop more)).map
        (Prod.map (text ++ ·) id)
  | c :: s =>
    if plain c then
      (decodeRuns plain opening (((c :: s).takeWhile plain).foldl Position.right p)
        (s.dropWhile plain)).map (Prod.map ((c :: s).takeWhile plain ++ ·) id)
    else (decodeRuns plain opening (p.right c) s).map (Prod.map (c :: ·) id)
termination_by s.length
decreasing_by
  all_goals simp only [List.length_cons, List.length_drop]
  all_goals try omega
  exact Nat.lt_succ_of_le (s.dropWhile_suffix plain).length_le

variable {c : Char} {s : List Char}

theorem lookup_named (c : Char) :
    named.lookup c = if Escape.hasMeaning c then some (Escape.meaning c) else none := by
  by_cases hc : c ∈ ['\\', '"', '\'', 'n', 't', 'b', 'r']
  · simp only [List.mem_cons, List.not_mem_nil, or_false] at hc
    rcases hc with rfl | rfl | rfl | rfl | rfl | rfl | rfl <;> rfl
  · rw [if_neg (by simpa [Escape.hasMeaning] using hc), List.lookup_eq_none_iff]
    intro entry hentry
    have hmem : entry.1 ∈ named.map Prod.fst := List.mem_map_of_mem hentry
    rw [bne_iff_ne]
    rintro rfl
    exact hc hmem

theorem decimal_eq {d₁ d₂ d₃ : Char} (h₁ : d₁.isDigit) (h₂ : d₂.isDigit) (h₃ : d₃.isDigit) :
    Escape.decimal d₁ d₂ d₃ =
      if number [d₁, d₂, d₃] ≤ 255 then .ok (number [d₁, d₂, d₃]).toUInt16
      else .error (.codeTooLarge (number [d₁, d₂, d₃])) := by
  have hnumber : number [d₁, d₂, d₃] = (d₁.toNat - '0'.toNat) * 100 + (d₂.toNat - '0'.toNat) * 10 +
      (d₃.toNat - '0'.toNat) := by
    simp only [number, List.foldl_cons, List.foldl_nil]
    omega
  simp only [Escape.decimal, Escape.decimalValue, if_pos h₁, if_pos h₂, if_pos h₃, bind,
    Except.bind, ← hnumber]
  by_cases hcode : number [d₁, d₂, d₃] ≤ 255
  · rw [if_neg (Nat.not_lt.2 hcode), if_pos hcode]
    rfl
  · rw [if_pos (Nat.lt_of_not_le hcode), if_neg hcode]
    rfl

theorem escapeStep_named (c : Char) :
    Region.escapeStep.named c =
      match named.lookup c with
      | some d => { text := [d], more := 1 }
      | none => { text := ['\\'] } := by
  rw [lookup_named, Region.escapeStep.named]
  split <;> rfl

theorem escape_of_not_lineBreak (hlf : c ≠ '\n') (hcrlf : ∀ t, c = '\r' → s ≠ '\n' :: t) :
    escape (c :: s) =
      if 3 ≤ (c :: s).length ∧ ((c :: s).take 3).all Char.isDigit then
        if number ((c :: s).take 3) ≤ 255 then .ok ([Char.ofNat (number ((c :: s).take 3))], 3)
        else .error (number ((c :: s).take 3))
      else
        match named.lookup c with
        | some d => .ok ([d], 1)
        | none => .ok (['\\'], 0) := by
  have hlf' : (c :: s).take 1 ≠ ['\n'] := by simpa using hlf
  have hcrlf' : (c :: s).take 2 ≠ ['\r', '\n'] := by
    intro h
    obtain ⟨rfl, htake⟩ := List.cons.inj h
    apply hcrlf (s.drop 1) rfl
    calc
      s = s.take 1 ++ s.drop 1 := (List.take_append_drop 1 s).symm
      _ = '\n' :: s.drop 1 := congrArg (· ++ s.drop 1) htake
  rw [escape, if_neg hlf', if_neg hcrlf']
  rfl

theorem escapeStep_eq (s : List Char) :
    Region.escapeStep s =
      match escape s with
      | .error code => .error (.codeTooLarge code)
      | .ok (text, more) => .ok { text, more } := by
  unfold Region.escapeStep
  split
  · rfl
  · rfl
  · rename_i d₁ d₂ d₃ s hlf hcrlf
    rw [escape_of_not_lineBreak hlf fun t hc heq => hcrlf hc (List.cons.inj heq).1]
    by_cases hdigits : d₁.isDigit ∧ d₂.isDigit ∧ d₃.isDigit
    · obtain ⟨h₁, h₂, h₃⟩ := hdigits
      rw [if_pos (by simp [h₁, h₂, h₃]), if_pos (by simp [h₁, h₂, h₃]), decimal_eq h₁ h₂ h₃]
      have htake : (d₁ :: d₂ :: d₃ :: s).take 3 = [d₁, d₂, d₃] := rfl
      rw [htake]
      split
      · rename_i hcode
        have hunit : (number [d₁, d₂, d₃]).toUInt16.toNat = number [d₁, d₂, d₃] :=
          UInt16.toNat_ofNat_of_lt' (Nat.lt_of_le_of_lt hcode (by decide))
        simp only [Functor.map, Except.map, hunit]
      · rfl
    · have hall : ¬(3 ≤ (d₁ :: d₂ :: d₃ :: s).length ∧
          ((d₁ :: d₂ :: d₃ :: s).take 3).all Char.isDigit) := by
        simpa [and_assoc] using hdigits
      rw [if_neg (by simpa [and_assoc] using hdigits), if_neg hall, escapeStep_named]
      cases named.lookup d₁ <;> rfl
  · rename_i c s hlf hcrlf hthree
    have hshort : ¬(3 ≤ (c :: s).length ∧ ((c :: s).take 3).all Char.isDigit) := by
      rintro ⟨hlen, -⟩
      match s, hthree with
      | [], _ | [_], _ => simp at hlen
      | d₂ :: d₃ :: s, hthree => exact hthree d₂ d₃ s rfl
    rw [escape_of_not_lineBreak hlf hcrlf, if_neg hshort, escapeStep_named]
    cases named.lookup c <;> rfl
  · rfl

/-! ## Reading a literal as a region -/

/-- What reading gives inside `outer` if a literal in it comes first and has this outcome. -/
def outcome (limit : Nat) (outer : List Region) :
    Except Failure (List Char × Place) → Except Failure (List Char × Place)
  | .error f => .error (f.inside (Region.modes outer))
  | .ok (text, place) =>
    (Region.read limit outer place.pos place.rest).map (Prod.map (text ++ ·) id)

theorem outcome_map (limit : Nat) (outer : List Region) (text : List Char)
    (result : Except Failure (List Char × Place)) :
    outcome limit outer (result.map (Prod.map (text ++ ·) id)) =
      (outcome limit outer result).map (Prod.map (text ++ ·) id) := by
  cases result with
  | error f => rfl
  | ok result =>
      obtain ⟨text', place⟩ := result
      simp only [outcome, Except.map, Prod.map_apply, id_eq]
      cases Region.read limit outer place.pos place.rest with
      | error f => rfl
      | ok result => simp [Prod.map]

theorem step_backslash (opening p : Position) (s : List Char) :
    Region.step ⟨.string, opening⟩ p '\\' s =
      match escape s with
      | .error code => .error { fault := .codeTooLarge code, location := some p }
      | .ok (text, more) => .ok { text, more } := by
  simp only [Region.step, Region.stringStep, escapeStep_eq]
  cases escape s <;> rfl

/-- From inside a literal, reading takes the text of the literal and goes on around it. -/
theorem read_string (limit : Nat) (outer : List Region) (opening p : Position) (s : List Char) :
    Region.read limit (⟨.string, opening⟩ :: outer) p s =
      outcome limit outer (decode opening p s) := by
  fun_induction decode opening p s with
  | case1 p => exact Region.read_end limit ⟨.string, opening⟩ outer p
  | case2 p s =>
      have hstep : Region.step ⟨.string, opening⟩ p '"' s = .ok { move := .closes } := rfl
      rw [Region.read_of_step hstep rfl]
      rfl
  | case3 p s code hescape =>
      have hstep := step_backslash opening p s
      rw [hescape] at hstep
      exact Region.read_of_step_error hstep
  | case4 p s text more hescape ih =>
      have hstep := step_backslash opening p s
      rw [hescape] at hstep
      rw [Region.read_of_step hstep rfl, outcome_map]
      exact congrArg (Except.map _) ih
  | case5 p c s hquote hback ih =>
      have hstep : Region.stringStep c s = .ok { text := [c] } := by
        simp [Region.stringStep]
      rw [Region.read_of_step (Region.step_of_stringStep rfl p hstep) rfl]
      exact (congrArg (Except.map _) ih).trans (outcome_map limit outer [c] _).symm

theorem outcome_nil (limit : Nat) (result : Except Failure (List Char × Place)) :
    outcome limit [] result = result := by
  cases result with
  | error f => simp [outcome, Failure.inside, Error.inside, Region.modes]
  | ok result =>
      obtain ⟨text, place⟩ := result
      simp [outcome, Except.map]

/-! ## Reading a literal in runs -/

theorem decode_cons (opening p : Position) (s : List Char) (hquote : c ≠ '"') (hback : c ≠ '\\') :
    decode opening p (c :: s) = (decode opening (p.next c) s).map (Prod.map (c :: ·) id) := by
  rw [decode]
  · exact hquote
  · exact hback

theorem decode_append (opening p : Position) (run s : List Char)
    (hrun : ∀ c ∈ run, c ≠ '"' ∧ c ≠ '\\') :
    decode opening p (run ++ s) =
      (decode opening (p.after run) s).map (Prod.map (run ++ ·) id) := by
  induction run generalizing p with
  | nil =>
      simp only [List.nil_append, Position.after_nil]
      cases decode opening p s <;> rfl
  | cons c run ih =>
      obtain ⟨hquote, hback⟩ := hrun c List.mem_cons_self
      have htail : ∀ d ∈ run, d ≠ '"' ∧ d ≠ '\\' := fun d hd => hrun d (List.mem_cons_of_mem c hd)
      rw [List.cons_append, decode_cons opening p (run ++ s) hquote hback, ih (p.next c) htail,
        Position.after_cons]
      cases decode opening ((p.next c).after run) s <;> rfl

/-- It makes no difference which characters are read in runs, as long as none of them is special. -/
theorem decodeRuns_eq_decode {plain : Char → Bool}
    (hplain : ∀ c ∈ ['"', '\\', '\n', '\r'], plain c = false) (opening p : Position)
    (s : List Char) : decodeRuns plain opening p s = decode opening p s := by
  have hspecial : ∀ c, plain c → c ∉ ['"', '\\', '\n', '\r'] := by
    intro c hc hmem
    rw [hplain c hmem] at hc
    cases hc
  fun_induction decodeRuns plain opening p s with
  | case1 p => rw [decode]
  | case2 p s ih =>
      rw [ih, decode_cons opening p s (by decide) (by decide)]
      rfl
  | case3 p s ih =>
      rw [ih]
      exact (decode_append opening p ['\r', '\n'] s (by simp)).symm
  | case4 p s =>
      rw [decode]
      rfl
  | case5 p s code hescape => rw [decode, hescape]
  | case6 p s text more hescape ih => rw [decode, hescape, ih]
  | case7 p c s hlf hcrlf hquote hback hc ih =>
      have hmem : ∀ d ∈ (c :: s).takeWhile plain, d ∉ ['"', '\\', '\n', '\r'] :=
        fun d hd => hspecial d (List.mem_takeWhile_imp hd)
      have hrun : ∀ d ∈ (c :: s).takeWhile plain, d ≠ '"' ∧ d ≠ '\\' := by
        intro d hd
        have hd := hmem d hd
        simp only [List.mem_cons, not_or] at hd
        exact ⟨hd.1, hd.2.1⟩
      have hline : '\n' ∉ (c :: s).takeWhile plain := fun hd => hmem _ hd (by simp)
      have hdrop : (c :: s).dropWhile plain = s.dropWhile plain := List.dropWhile_cons_of_pos hc
      rw [ih, ← Position.after_of_not_mem hline, ← hdrop, ← decode_append opening p _ _ hrun,
        List.takeWhile_append_dropWhile]
  | case8 p c s hlf hcrlf hquote hback hc ih =>
      rw [ih, decode_cons opening p s hquote hback, Position.next_of_ne hlf]

/-- The token of a string literal, and what a literal gives inside other regions, is told by decoding
it character by character. So it is if runs of plain characters are taken at once. -/
theorem stringToken_eq_decode (scanner : Scanner) (limit : Nat) (outer : List Region)
    {plain : Char → Bool} (hplain : ∀ c ∈ ['"', '\\', '\n', '\r'], plain c = false) (p : Position)
    (s : List Char) :
    scanner.stringToken p s =
      (decode p (p.next '"') s).map (Prod.map (fun text => .string (String.ofList text)) id) ∧
    Region.read limit (⟨.string, p⟩ :: outer) (p.next '"') s =
      outcome limit outer (decode p (p.next '"') s) ∧
    decodeRuns plain p (p.next '"') s = decode p (p.next '"') s := by
  refine ⟨?_, read_string limit outer p (p.next '"') s, decodeRuns_eq_decode hplain p _ s⟩
  rw [Scanner.stringToken, read_string, outcome_nil]
  cases decode p (p.next '"') s <;> rfl

theorem stringToken_eq_decode_alphanumeric :
    let scanner : Scanner := { maxNesting_pos := by decide }
    let outer : List Region := [⟨.comment, ⟨3, 1, 40⟩⟩]
    let s := "ab\\065\\q\\\n\\\"\" c *)".toList
    (∀ c ∈ ['"', '\\', '\n', '\r'], Char.isAlphanum c = false) ∧
    decode {} ⟨1, 2, 1⟩ s = .ok ("abA\\q\"".toList, ⟨⟨2, 4, 14⟩, " c *)".toList⟩) ∧
    scanner.stringToken {} s =
      (decode {} ⟨1, 2, 1⟩ s).map (Prod.map (fun text => .string (String.ofList text)) id) ∧
    Region.read 2 (⟨.string, {}⟩ :: outer) ⟨1, 2, 1⟩ s =
      outcome 2 outer (decode {} ⟨1, 2, 1⟩ s) ∧
    decodeRuns Char.isAlphanum {} ⟨1, 2, 1⟩ s = decode {} ⟨1, 2, 1⟩ s := by
  intro scanner outer s
  have hplain : ∀ c ∈ ['"', '\\', '\n', '\r'], Char.isAlphanum c = false := by simp
  exact ⟨hplain, by decide +kernel, stringToken_eq_decode scanner 2 outer hplain {} s⟩

end LexDef.StringLiteral

import LexDef.Proofs.Region.Turns
import LexDef.Proofs.Stream.Session
import LexDef.Proofs.Tiling
/-!
# Scanning always makes progress

Every turn of every loop takes at least one character, so each of them ends, whatever the text is.
A lexeme that is not the end of the text moves on by at least one byte, so a stream is over after
one pull more than there are characters: `Scanner.makes_progress`.
-/

namespace LexDef

open Region (lineBreakLength)

namespace Scanner

/-! ## The loop over a gap -/

def isBlank (c : Char) : Bool := c = ' ' || c = '\t'

/-- One turn of the loop that looks for a token: the place where it goes on, unless a token or the
end of the text is found. Blanks are taken in runs. -/
def gapTurn (scanner : Scanner) (p : Position) (s : List Char) : Except Failure (Option Place) :=
  match s with
  | ' ' :: _ | '\t' :: _ => .ok (some (Place.skip ⟨p, s⟩ (s.takeWhile isBlank).length))
  | '\n' :: _ | '\r' :: '\n' :: _ => .ok (some (Place.skip ⟨p, s⟩ (lineBreakLength s)))
  | '(' :: '*' :: rest =>
    (Region.read scanner.maxNesting [⟨.comment, p⟩] (p.after ['(', '*']) rest).map fun result =>
      some result.2
  | '/' :: '/' :: _ => .ok (some (Place.skip ⟨p, s⟩ (s.takeWhile (· ≠ '\n')).length))
  | _ => .ok none

/-- Passes over a gap like `skipGap`, but in at most `n` turns; no result if that is too few. -/
def gapTurns (scanner : Scanner) : Nat → Position → List Char → Option (Except Failure Place)
  | 0, _, _ => none
  | n + 1, p, s =>
    match scanner.gapTurn p s with
    | .error f => some (.error f)
    | .ok none => some (.ok ⟨p, s⟩)
    | .ok (some place) => scanner.gapTurns n place.pos place.rest

variable {scanner : Scanner} {place after : Place} {p : Position} {s run : List Char} {f : Failure}
  {text : String} {x : Lexeme} {xs : List Lexeme} {n : Nat}

theorem skip_takeWhile (p : Position) (s : List Char) (keep : Char → Bool) :
    Place.skip ⟨p, s⟩ (s.takeWhile keep).length =
      ⟨p.after (s.takeWhile keep), s.dropWhile keep⟩ := by
  have hsplit := Place.skip_append p (s.takeWhile keep) (s.dropWhile keep)
  rwa [List.takeWhile_append_dropWhile] at hsplit

theorem skipGap_blanks (scanner : Scanner) (p : Position) (hrun : ∀ c ∈ run, isBlank c)
    (s : List Char) : scanner.skipGap p (run ++ s) = scanner.skipGap (p.after run) s := by
  induction run generalizing p with
  | nil => rfl
  | cons c run ih =>
      have hc : c = ' ' ∨ c = '\t' ∨ c = '\n' := by
        have hblank := hrun c List.mem_cons_self
        simp only [isBlank, Bool.or_eq_true, decide_eq_true_eq] at hblank
        tauto
      rw [List.cons_append, skipGap_cons scanner p (run ++ s) hc, Position.after_cons,
        ih _ fun d hd => hrun d (List.mem_cons_of_mem c hd)]

theorem skipGap_blank_run (scanner : Scanner) (p : Position) (s : List Char) :
    let place := Place.skip ⟨p, s⟩ (s.takeWhile isBlank).length
    scanner.skipGap p s = scanner.skipGap place.pos place.rest := by
  have hall : ∀ d ∈ s.takeWhile isBlank, isBlank d = true := List.all_eq_true.1 List.all_takeWhile
  have hrun := skipGap_blanks scanner p hall (s.dropWhile isBlank)
  rw [List.takeWhile_append_dropWhile] at hrun
  rw [skip_takeWhile]
  exact hrun

theorem skipGap_eq_bind (scanner : Scanner) (p : Position) (s : List Char) :
    scanner.skipGap p s =
      (scanner.gapTurn p s).bind fun found =>
        match found with
        | none => .ok ⟨p, s⟩
        | some place => scanner.skipGap place.pos place.rest := by
  unfold gapTurn
  split
  · exact skipGap_blank_run scanner p _
  · exact skipGap_blank_run scanner p _
  · exact skipGap_cons scanner p _ (.inr (.inr rfl))
  · exact skipGap_crlf scanner p _
  · rename_i rest
    rw [skipGap_comment_bind]
    cases Region.read scanner.maxNesting [⟨.comment, p⟩] (p.after ['(', '*']) rest <;> rfl
  · rename_i rest
    rw [skipGap_line, skip_takeWhile]
    simp [Except.bind]
  · have hgap : startsGap s = false := by
      unfold startsGap
      split <;> simp_all
    exact skipGap_of_not_startsGap scanner p hgap

theorem gapTurn_moves (h : scanner.gapTurn p s = .ok (some place)) :
    place.rest.length < s.length ∧ Place.Reaches ⟨p, s⟩ place := by
  have hskip : ∀ n, s ≠ [] → 0 < n → Place.skip ⟨p, s⟩ n = place →
      place.rest.length < s.length ∧ Place.Reaches ⟨p, s⟩ place := by
    rintro n hs hn rfl
    exact ⟨Place.length_skip_lt hs hn, Place.reaches_skip ⟨p, s⟩ n⟩
  unfold gapTurn at h
  split at h
  · exact hskip _ (List.cons_ne_nil _ _) (by simp [isBlank]) (Option.some.inj (Except.ok.inj h))
  · exact hskip _ (List.cons_ne_nil _ _) (by simp [isBlank]) (Option.some.inj (Except.ok.inj h))
  · exact hskip _ (List.cons_ne_nil _ _) Nat.one_pos (Option.some.inj (Except.ok.inj h))
  · exact hskip _ (List.cons_ne_nil _ _) Nat.two_pos (Option.some.inj (Except.ok.inj h))
  · rename_i rest
    cases hread : Region.read scanner.maxNesting [⟨.comment, p⟩] (p.after ['(', '*']) rest with
    | error f =>
        rw [hread] at h
        cases h
    | ok result =>
        rw [hread] at h
        cases h
        have hreaches := Region.reaches_of_read hread
        have hle := hreaches.length_le
        refine ⟨?_, (Place.reaches_append p ['(', '*'] rest).trans hreaches⟩
        simp only [List.length_cons] at *
        omega
  · exact hskip _ (List.cons_ne_nil _ _) (by simp) (Option.some.inj (Except.ok.inj h))
  · cases h

/-- The loop over a gap ends after no more turns than there are characters, and one more. -/
theorem gapTurns_eq (scanner : Scanner) (p : Position) (s : List Char) (hn : s.length < n) :
    scanner.gapTurns n p s = some (scanner.skipGap p s) := by
  induction n generalizing p s with
  | zero => cases hn
  | succ n ih =>
      rw [gapTurns, skipGap_eq_bind]
      cases hturn : scanner.gapTurn p s with
      | error f => rfl
      | ok found =>
          cases found with
          | none => rfl
          | some place =>
              obtain ⟨hshorter, -⟩ := gapTurn_moves hturn
              exact ih place.pos place.rest (by omega)

/-! ## The number of lexemes -/

theorem Chain.length_add_le (h : Chain scanner place xs after) :
    xs.length + after.rest.length ≤ place.rest.length := by
  induction h with
  | nil place => simp
  | cons head ne_end tail ih =>
      have hlt := length_lt_of_next head ne_end
      rw [List.length_cons]
      omega

theorem length_lexemes_le (scanner : Scanner) (text : String) :
    (scanner.run text).lexemes.length ≤ text.toList.length := by
  obtain ⟨after, hchain, -⟩ := exists_chain_run scanner text
  exact Nat.le_of_add_right_le hchain.length_add_le

end Scanner

namespace Stream

variable {stream : Stream} {scanner : Scanner} {text : String} {x : Lexeme} {n : Nat}

theorem offset_lt_pull (h : stream.pull.1 = .ok x) (hx : x.token ≠ .endOfText) :
    stream.position.offset < stream.pull.2.position.offset := by
  obtain ⟨scanner, state⟩ := stream
  cases state with
  | ended stop =>
      cases h
      exact absurd rfl hx
  | failed f => cases h
  | running place =>
      cases hnext : scanner.next place with
      | error f => simp [pull, hnext] at h
      | ok result =>
          obtain ⟨y, after⟩ := result
          obtain rfl : y = x := by simpa [pull, hnext] using h
          obtain ⟨gap, piece, cut⟩ := Scanner.exists_cut hnext hx
          have hgap := (Position.le_after place.pos gap).1
          have hlexeme := cut.offset_lt
          rw [← cut.start] at hgap
          rw [pull_of_ok hnext hx]
          simp only [position, cut.pos]
          omega

def IsTerminal : Except Error Lexeme → Prop
  | .ok x => x.token = .endOfText
  | .error _ => True

theorem isTerminal_pull (scanner : Scanner) (text : String) :
    IsTerminal ((scanner.stream text).drop (scanner.run text).lexemes.length).pull.1 := by
  rw [pull_drop, item_of_eq rfl]
  rcases Run.last_cases scanner text with ⟨x, hlast, hx, -⟩ | ⟨e, hlast, -⟩
  · rw [hlast]
    exact hx
  · rw [hlast]
    trivial

theorem exists_pull_of_lt (hn : n < (scanner.run text).lexemes.length) :
    ∃ x, ((scanner.stream text).drop n).pull.1 = .ok x ∧ x.token ≠ .endOfText := by
  rw [pull_drop, item_of_lt hn]
  exact ⟨_, rfl, Run.lexemes_ne_end scanner text _ (List.getElem_mem hn)⟩

theorem position_of_end (h : ((scanner.stream text).drop n).pull.1 = .ok x)
    (hx : x.token = .endOfText) :
    ((scanner.stream text).drop (n + 1)).position = ({} : Position).after text.toList := by
  rw [pull_drop] at h
  have hposition : (scanner.run text).position (n + 1) = x.stop := by rw [Run.position, h]
  rw [position_drop, hposition]
  rcases Nat.lt_trichotomy n (scanner.run text).lexemes.length with hn | hn | hn
  · rw [item_of_lt hn] at h
    cases h
    exact absurd hx (Run.lexemes_ne_end scanner text _ (List.getElem_mem hn))
  · rw [item_of_eq hn] at h
    rcases Run.last_cases scanner text with ⟨y, hlast, -, hstop, -⟩ | ⟨e, hlast, -⟩
    · obtain rfl := Except.ok.inj (hlast.symm.trans h)
      exact hstop
    · cases hlast.symm.trans h
  · -- behind the last item the end is given again
    rw [item_of_gt hn] at h
    rcases Run.last_cases scanner text with ⟨y, -, -, hstop, hagain⟩ | ⟨e, -, hagain⟩
    · obtain rfl := Except.ok.inj (hagain.symm.trans h)
      exact hstop
    · cases hagain.symm.trans h

end Stream

namespace Scanner

variable {scanner : Scanner} {text : String} {xs : List Lexeme}

theorem exists_last_of_lexemes (h : scanner.lexemes text = .ok xs) :
    ∃ ys last, xs = ys ++ [last] ∧ last.token = .endOfText ∧ (∀ y ∈ ys, y.token ≠ .endOfText) ∧
      last.stop = ({} : Position).after text.toList ∧ xs.length ≤ text.toList.length + 1 := by
  have hitems := lexemes_eq_items scanner text
  rw [Run.items, mapM_items, h] at hitems
  rcases Run.last_cases scanner text with ⟨last, hlast, hend, hstop, -⟩ | ⟨e, hlast, -⟩
  · rw [hlast] at hitems
    cases hitems
    refine ⟨_, last, rfl, hend, Run.lexemes_ne_end scanner text, hstop, ?_⟩
    rw [List.length_append, List.length_singleton]
    exact Nat.succ_le_succ (length_lexemes_le scanner text)
  · rw [hlast] at hitems
    cases hitems

structure MakesProgress (scanner : Scanner) (text : String) : Prop where
  /-- In every region a turn of the loop takes a character, whatever it takes in runs. -/
  turn : ∀ ordinary : Region.Kind → Char → Bool, (∀ k, ∀ c ∈ k.special, ordinary k c = false) →
    ∀ r p c s t, Region.turn ordinary r p c s = .ok t →
      0 < t.taken ∧ t.taken ≤ (c :: s).length
  gap_turn : ∀ p s place, scanner.gapTurn p s = .ok (some place) →
    place.rest.length < s.length ∧ Place.Reaches ⟨p, s⟩ place
  /-- Regions are read to an end, in no more turns than characters are left and one more. -/
  region : ∀ ordinary : Region.Kind → Char → Bool, (∀ k, ∀ c ∈ k.special, ordinary k c = false) →
    ∀ limit opened p s n, s.length < n →
      Region.readTurns ordinary limit n opened p s = some (Region.read limit opened p s)
  gap : ∀ p s n, s.length < n → scanner.gapTurns n p s = some (scanner.skipGap p s)
  pull : ∀ (stream : Stream) (x : Lexeme), stream.pull.1 = .ok x → x.token ≠ .endOfText →
    stream.position.offset < stream.pull.2.position.offset
  /-- The terminal item is pulled after no more lexemes than there are characters. -/
  terminal : ∃ n ≤ text.toList.length,
    (∀ k < n, ∃ x, ((scanner.stream text).drop k).pull.1 = .ok x ∧ x.token ≠ .endOfText) ∧
    Stream.IsTerminal ((scanner.stream text).drop n).pull.1 ∧
    ((scanner.stream text).drop (n + 1)).isDone = true
  /-- There is at most one lexeme for each character, and then the end of the text. -/
  lexemes : ∀ xs, scanner.lexemes text = .ok xs →
    ∃ ys last, xs = ys ++ [last] ∧ last.token = .endOfText ∧ (∀ y ∈ ys, y.token ≠ .endOfText) ∧
      last.stop = ({} : Position).after text.toList ∧ xs.length ≤ text.toList.length + 1
  regular_end : ∀ n x, ((scanner.stream text).drop n).pull.1 = .ok x → x.token = .endOfText →
    ((scanner.stream text).drop (n + 1)).position = ({} : Position).after text.toList

/-- Whatever the text and the settings are, scanning goes forward and comes to an end. -/
theorem makes_progress (scanner : Scanner) (text : String) : scanner.MakesProgress text where
  turn _ hordinary _ _ _ _ _ h := Region.turn_taken hordinary h
  gap_turn _ _ _ h := gapTurn_moves h
  region _ hordinary limit opened p s _ hn := Region.readTurns_eq hordinary limit opened p s hn
  gap p s _ hn := gapTurns_eq scanner p s hn
  pull _ _ h hx := Stream.offset_lt_pull h hx
  terminal :=
    ⟨_, length_lexemes_le scanner text, fun _ hk => Stream.exists_pull_of_lt hk,
      Stream.isTerminal_pull scanner text, by
        rw [Stream.isDone_drop, Run.length_items, decide_eq_true_iff]⟩
  lexemes _ h := exists_last_of_lexemes h
  regular_end _ _ h hx := Stream.position_of_end h hx

end Scanner

end LexDef

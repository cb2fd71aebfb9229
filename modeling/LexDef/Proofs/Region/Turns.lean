import LexDef.Proofs.Region.Continuation
/-!
# Reading regions in turns

The loop of a region takes what it can at once: a line break, a run of ordinary characters, or what
a special character takes along. A run may be empty, and then a single character is taken. So each
turn takes at least one character, and a line feed only as a line break: `turn_piece`. The loop ends
with what reading step by step gives, after no more turns than there are characters: `readTurns_eq`.
-/

namespace LexDef

theorem Place.skip_append (p : Position) (piece rest : List Char) :
    Place.skip ⟨p, piece ++ rest⟩ piece.length = ⟨p.after piece, rest⟩ := by
  simp [Place.skip]

theorem Place.length_skip_lt {p : Position} {s : List Char} {n : Nat} (hs : s ≠ []) (hn : 0 < n) :
    (Place.skip ⟨p, s⟩ n).rest.length < s.length := by
  have hpos := List.length_pos_iff.2 hs
  simp only [Place.skip, List.length_drop]
  omega

namespace Region

/-- The characters that may mean something in regions of a kind, and those that may break a line. -/
def Kind.special : Kind → List Char
  | string | codeString => ['"', '\\', '\n', '\r']
  | code => ['"', '\\', '{', '}', '\n', '\r']
  | comment => ['\'', '"', '(', '*', '\n', '\r']

/-- Whether regions of a kind have a rule of their own for `c` where `s` follows it. -/
def Kind.heeds : Kind → Char → List Char → Bool
  | string, '"', _ | string, '\\', _ => true
  | code, '"', _ | code, '{', _ | code, '}', _ => true
  | codeString, '"', _ => true
  | code, '\\', d :: _ | codeString, '\\', d :: _ => d = '"' || d = '\\'
  | comment, '*', ')' :: _ | comment, '(', '*' :: _ | comment, '"', _ | comment, '\'', _ => true
  | _, _, _ => false

def lineBreakLength : List Char → Nat
  | '\n' :: _ => 1
  | '\r' :: '\n' :: _ => 2
  | _ => 0

structure Turn where
  move : Move := .stay
  text : List Char := []
  taken : Nat
deriving DecidableEq, Repr

def Step.turn (st : Step) : Turn := { move := st.move, text := st.text, taken := st.more + 1 }

/-- A turn at the character `c`, which is at `p` and followed by `s`. Some characters are ordinary
in a kind of region, so that runs of them are taken at once. -/
def turn (ordinary : Kind → Char → Bool) (r : Region) (p : Position) (c : Char) (s : List Char) :
    Except Error Turn :=
  let eol := lineBreakLength (c :: s)
  let run := (c :: s).takeWhile (ordinary r.kind)
  if eol ≠ 0 then .ok { text := r.kind.plain ((c :: s).take eol), taken := eol }
  else if r.kind.heeds c s then (r.step p c s).map Step.turn
  else if run.isEmpty then .ok { text := r.kind.plain [c], taken := 1 }
  else .ok { text := r.kind.plain run, taken := run.length }

/-- Reads like `read`, but in turns, at most `n` of them; without result if that is too few. -/
def readTurns (ordinary : Kind → Char → Bool) (limit : Nat) :
    Nat → List Region → Position → List Char → Option (Except Failure (List Char × Place))
  | 0, _, _, _ => none
  | _ + 1, [], p, s => some (.ok ([], ⟨p, s⟩))
  | _ + 1, r :: outer, p, [] =>
    some (.error { error := { fault := .unterminated r, enclosing := modes outer }, stop := p })
  | n + 1, r :: outer, p, c :: s =>
    match turn ordinary r p c s with
    | .error e => some (.error { error := e.inside (modes outer), stop := p.next c })
    | .ok t =>
      let after := Place.skip ⟨p, c :: s⟩ t.taken
      match t.move.apply limit r outer with
      | .error e => some (.error { error := e, stop := after.pos })
      | .ok opened =>
        (readTurns ordinary limit n opened after.pos after.rest).map fun result =>
          result.map (Prod.map (t.text ++ ·) id)

variable {ordinary : Kind → Char → Bool} {limit n : Nat} {r : Region} {outer opened : List Region}
  {p : Position} {c : Char} {s run : List Char} {t : Turn} {e : Error}

theorem Kind.plain_append (k : Kind) (s t : List Char) :
    k.plain (s ++ t) = k.plain s ++ k.plain t := by
  cases k <;> rfl

theorem step_of_not_heeds (p : Position) (h : r.kind.heeds c s = false) :
    r.step p c s = .ok { text := r.kind.plain [c] } := by
  obtain ⟨k, start⟩ := r
  cases k with
  | string =>
      have hstep : stringStep c s = .ok { text := [c] } := by
        unfold stringStep
        split
        · simp [Kind.heeds] at h
        · simp [Kind.heeds] at h
        · rfl
      exact step_of_stringStep rfl p hstep
  | code =>
      simp only [step, codeStep]
      split <;> simp_all [Kind.heeds, Kind.plain]
  | codeString =>
      simp only [step, codeStringStep]
      split <;> simp_all [Kind.heeds, Kind.plain]
  | comment =>
      simp only [step, commentStep]
      split <;> simp_all [Kind.heeds, Kind.plain]

theorem heeds_of_not_special {k : Kind} (h : c ∉ k.special) (s : List Char) :
    k.heeds c s = false := by
  unfold Kind.heeds
  cases k <;>
    (simp only [Kind.special, List.mem_cons, List.not_mem_nil, or_false, not_or] at h; grind)

theorem leads_of_run (hrun : ∀ d ∈ run, d ∉ r.kind.special) (limit : Nat) (outer : List Region)
    (p : Position) (s : List Char) :
    Leads limit (r :: outer) ⟨p, run ++ s⟩ (r.kind.plain run) (r :: outer) ⟨p.after run, s⟩ := by
  induction run generalizing p with
  | nil =>
      have htext : r.kind.plain [] = [] := by cases r.kind <;> rfl
      rw [htext]
      exact .refl limit (r :: outer) ⟨p, s⟩
  | cons d run ih =>
      have hstep :=
        step_of_not_heeds p (heeds_of_not_special (hrun d List.mem_cons_self) (run ++ s))
      have hfirst : Leads limit (r :: outer) ⟨p, d :: (run ++ s)⟩ (r.kind.plain [d]) (r :: outer)
          ⟨p.next d, run ++ s⟩ := leads_of_step hstep rfl
      have htext : r.kind.plain (d :: run) = r.kind.plain [d] ++ r.kind.plain run :=
        r.kind.plain_append [d] run
      rw [htext]
      exact hfirst.trans (ih (fun c hc => hrun c (List.mem_cons_of_mem d hc)) (p.next d))

theorem Kind.lineFeed_mem_special (k : Kind) : '\n' ∈ k.special := by
  cases k <;> decide

theorem IsLineBreak.takenAtOnce {eol : List Char} (h : IsLineBreak eol) : TakenAtOnce eol := by
  rcases h with rfl | rfl <;> exact .inr (by decide)

theorem exists_lineBreak (h : lineBreakLength s ≠ 0) :
    ∃ eol rest, IsLineBreak eol ∧ s = eol ++ rest ∧ lineBreakLength s = eol.length := by
  unfold lineBreakLength at *
  split at h
  · exact ⟨['\n'], _, .inl rfl, rfl, rfl⟩
  · exact ⟨['\r', '\n'], _, .inr rfl, rfl, rfl⟩
  · contradiction

def TakesPiece (r : Region) (c : Char) (s piece : List Char) : Prop :=
  piece ≠ [] ∧ piece <+: c :: s ∧ ∀ limit outer p rest,
    Leads limit (r :: outer) ⟨p, piece ++ rest⟩ (r.kind.plain piece) (r :: outer)
      ⟨p.after piece, rest⟩

theorem turn_cases (hordinary : ∀ k, ∀ c ∈ k.special, ordinary k c = false) (r : Region)
    (p : Position) (c : Char) (s : List Char) :
    (∃ piece, TakesPiece r c s piece ∧ TakenAtOnce piece ∧
      turn ordinary r p c s = .ok { text := r.kind.plain piece, taken := piece.length }) ∨
    turn ordinary r p c s = (r.step p c s).map Step.turn := by
  unfold turn
  by_cases heol : lineBreakLength (c :: s) = 0
  · simp only [heol, ne_eq, not_true_eq_false, if_false]
    by_cases hheeds : r.kind.heeds c s = true
    · rw [if_pos hheeds]
      exact .inr rfl
    · rw [if_neg hheeds]
      by_cases hrun : ((c :: s).takeWhile (ordinary r.kind)).isEmpty
      · -- no run starts here, and the one character that is taken is a step
        rw [if_pos hrun, step_of_not_heeds p (Bool.eq_false_iff.2 hheeds)]
        exact .inr rfl
      · rw [if_neg hrun]
        have hspecial : ∀ d ∈ (c :: s).takeWhile (ordinary r.kind), d ∉ r.kind.special := by
          intro d hd hmem
          have htrue := List.all_eq_true.1 List.all_takeWhile d hd
          rw [hordinary r.kind d hmem] at htrue
          cases htrue
        have hline : '\n' ∉ (c :: s).takeWhile (ordinary r.kind) := fun hmem =>
          hspecial '\n' hmem r.kind.lineFeed_mem_special
        exact .inl ⟨_, ⟨by simpa using hrun, List.takeWhile_prefix _,
          fun limit outer p rest => leads_of_run hspecial limit outer p rest⟩, .inl hline, rfl⟩
  · simp only [ne_eq, heol, not_false_eq_true, if_true]
    obtain ⟨eol, rest, hbreak, hs, hlen⟩ := exists_lineBreak heol
    have htake : (c :: s).take eol.length = eol := by rw [hs, List.take_left]
    have hne : eol ≠ [] := by
      rintro rfl
      exact heol hlen
    rw [hlen, htake]
    exact .inl ⟨eol, ⟨hne, ⟨rest, hs.symm⟩,
      fun limit outer p rest => leads_of_lineBreak hbreak limit r outer p rest⟩,
      hbreak.takenAtOnce, rfl⟩

theorem turn_ok_cases (hordinary : ∀ k, ∀ c ∈ k.special, ordinary k c = false)
    (h : turn ordinary r p c s = .ok t) :
    (∃ piece, TakesPiece r c s piece ∧ TakenAtOnce piece ∧
      t = { text := r.kind.plain piece, taken := piece.length }) ∨
    ∃ st, r.step p c s = .ok st ∧ t = st.turn := by
  rcases turn_cases hordinary r p c s with ⟨piece, htakes, honce, hturn⟩ | hturn
  · exact .inl ⟨piece, htakes, honce, Except.ok.inj (h.symm.trans hturn)⟩
  · rw [hturn] at h
    cases hstep : r.step p c s with
    | error e =>
        rw [hstep] at h
        cases h
    | ok st =>
        rw [hstep] at h
        exact .inr ⟨st, rfl, (Except.ok.inj h).symm⟩

theorem turn_taken (hordinary : ∀ k, ∀ c ∈ k.special, ordinary k c = false)
    (h : turn ordinary r p c s = .ok t) : 0 < t.taken ∧ t.taken ≤ (c :: s).length := by
  rcases turn_ok_cases hordinary h with ⟨piece, ⟨hne, hprefix, -⟩, -, rfl⟩ | ⟨st, hstep, rfl⟩
  · exact ⟨List.length_pos_iff.2 hne, hprefix.length_le⟩
  · exact ⟨Nat.succ_pos _, Nat.succ_le_succ (step_cases hstep).1⟩

theorem read_of_turn (hordinary : ∀ k, ∀ c ∈ k.special, ordinary k c = false)
    (h : turn ordinary r p c s = .ok t) (limit : Nat) (outer : List Region) :
    read limit (r :: outer) p (c :: s) =
      match t.move.apply limit r outer with
      | .error e => .error { error := e, stop := (Place.skip ⟨p, c :: s⟩ t.taken).pos }
      | .ok opened =>
        (read limit opened (Place.skip ⟨p, c :: s⟩ t.taken).pos
          (Place.skip ⟨p, c :: s⟩ t.taken).rest).map (Prod.map (t.text ++ ·) id) := by
  rcases turn_ok_cases hordinary h with ⟨piece, ⟨-, ⟨rest, hs⟩, hleads⟩, -, rfl⟩ | ⟨st, hstep, rfl⟩
  · rw [← hs, Place.skip_append]
    exact hleads limit outer p rest
  · cases hmove : st.move.apply limit r outer with
    | error e =>
        simp only [Step.turn, hmove]
        exact read_of_apply_error hstep hmove
    | ok opened =>
        simp only [Step.turn, hmove]
        exact read_of_step hstep hmove

theorem step_of_turn_error (hordinary : ∀ k, ∀ c ∈ k.special, ordinary k c = false)
    (h : turn ordinary r p c s = .error e) : r.step p c s = .error e := by
  rcases turn_cases hordinary r p c s with ⟨piece, -, -, hturn⟩ | hturn
  · rw [hturn] at h
    cases h
  · rw [hturn] at h
    cases hstep : r.step p c s with
    | error e' =>
        rw [hstep] at h
        cases h
        rfl
    | ok st =>
        rw [hstep] at h
        cases h

/-- Reading in turns gives what reading gives, if as many turns are allowed as there are characters
and one more. -/
theorem readTurns_eq (hordinary : ∀ k, ∀ c ∈ k.special, ordinary k c = false) (limit : Nat)
    (opened : List Region) (p : Position) (s : List Char) (hn : s.length < n) :
    readTurns ordinary limit n opened p s = some (read limit opened p s) := by
  induction n generalizing opened p s with
  | zero => cases hn
  | succ n ih =>
      match opened, s with
      | [], s => rw [readTurns, read_nil]
      | r :: outer, [] => rw [readTurns, read_end]
      | r :: outer, c :: s =>
          rw [readTurns]
          cases hturn : turn ordinary r p c s with
          | error e =>
            exact congrArg some (read_of_step_error (step_of_turn_error hordinary hturn)).symm
          | ok t =>
              obtain ⟨hpos, -⟩ := turn_taken hordinary hturn
              rw [read_of_turn hordinary hturn]
              simp only
              cases t.move.apply limit r outer with
              | error e => rfl
              | ok opened =>
                  -- one turn less is allowed, and at least one character less is left
                  have hshorter : (Place.skip ⟨p, c :: s⟩ t.taken).rest.length < n :=
                    Nat.lt_of_lt_of_le (Place.length_skip_lt (List.cons_ne_nil c s) hpos)
                      (Nat.le_of_lt_succ hn)
                  simp only
                  rw [ih opened _ _ hshorter]
                  rfl

example : turn (fun _ => Char.isAlphanum) ⟨.comment, {}⟩ {} 'a' ['b', '*', ')'] =
    .ok { taken := 2 } := rfl

end Region

end LexDef

import LexDef.Proofs.Region.Turns
import LexDef.Proofs.Stream.Delivery
/-!
# The positions that are shown

Every position that a stream shows, in lexemes, in errors or by itself, is the position behind some
beginning of the text. Reading moves only forward, along a line or over a line break.
-/

namespace LexDef

namespace Position

/-- Whether a position is the one behind some beginning of the text: it counts the bytes there, the
line feeds, and the characters behind the last line feed. -/
def IsIn (p : Position) (text : String) : Prop :=
  ∃ before behind, text.toList = before ++ behind ∧
    p.offset = (String.ofList before).utf8ByteSize ∧
    p.line = 1 + before.count '\n' ∧
    p.column = 1 + (before.rtakeWhile (· ≠ '\n')).length

theorem isIn_of_reaches {text : String} {a : Place} (h : (Place.ofString text).Reaches a) :
    a.pos.IsIn text := by
  obtain ⟨before, htext, hpos⟩ := h
  refine ⟨before, a.rest, htext, ?_, ?_, ?_⟩
  · rw [hpos, after_offset, String.utf8ByteSize_ofList]
    exact Nat.zero_add _
  · rw [hpos, after_line]
    rfl
  · rw [hpos]
    exact column_after before

end Position

/-! ## What shows positions -/

def Error.positions (e : Error) : List Position :=
  e.fault.position?.toList ++ e.location.toList ++ e.enclosing.filterMap Mode.start?

def Lexeme.positions (x : Lexeme) : List Position := [x.start, x.stop]

def itemPositions : Except Error Lexeme → List Position
  | .ok x => x.positions
  | .error e => e.positions

def Peek.positions : Peek → List Position
  | lexemes xs | reachedEnd xs => xs.flatMap Lexeme.positions

def Answer.positions : Answer → List Position
  | lexeme x => x.positions
  | error e => e.positions
  | peeked peek => peek.positions
  | token _ | skipped _ | nothing => []

def Run.positions (run : Run) : List Position :=
  run.lexemes.flatMap Lexeme.positions ++
    match run.final with
    | .ok (x, _) => x.positions
    | .error f => [f.stop]

namespace Scanner

variable {scanner : Scanner} {text : String} {place after : Place} {a : Reader} {f : Failure}
  {x : Lexeme} {xs : List Lexeme}

theorem isIn_of_mem_opened (hplace : (Place.ofString text).Reaches place)
    (h : Advances scanner ⟨[], place⟩ a) : ∀ r ∈ a.opened, r.start.IsIn text := by
  induction h with
  | refl =>
      intro r hr
      cases hr
  | @tail b c hmoves hmove ih =>
      intro r hr
      rcases hmove.mem_opened hr with hr | hstart
      · exact ih r hr
      · rw [hstart]
        exact Position.isIn_of_reaches (hplace.trans (Advances.reaches hmoves))

theorem filterMap_modes (opened : List Region) :
    (Region.modes opened).filterMap Mode.start? = opened.map Region.start := by
  induction opened with
  | nil => rfl
  | cons r opened ih => exact congrArg (r.start :: ·) ih

theorem Halts.mem_positions (h : Halts scanner a f) {p : Position} (hp : p ∈ f.error.positions) :
    p = a.place.pos ∨ ∃ r ∈ a.opened, p = r.start := by
  unfold Error.positions at hp
  cases h with
  | unknown => exact .inl (by simpa [Fault.position?] using hp)
  | @character q s rest form fault hform ht =>
      obtain ⟨hwf, -⟩ := CharForm.ofText?_eq_some_iff.1 hform
      rcases CharForm.token_error hwf ht with ⟨code, -, rfl⟩ | ⟨code, -, rfl⟩ | rfl
      all_goals exact .inl (by simpa [Fault.position?] using hp)
  | @ended r outer q =>
      rw [filterMap_modes] at hp
      simp only [Fault.position?, Option.toList_some, Option.toList_none, List.append_nil,
        List.singleton_append] at hp
      rcases List.mem_cons.1 hp with rfl | hp
      · exact .inr ⟨r, List.mem_cons_self, rfl⟩
      · obtain ⟨o, ho, rfl⟩ := List.mem_map.1 hp
        exact .inr ⟨o, List.mem_cons_of_mem r ho, rfl⟩
  | @fault r outer q c s e hstep =>
      obtain ⟨-, -, code, -, rfl⟩ := Region.step_error hstep
      simp only [Error.inside, List.nil_append, filterMap_modes, Fault.position?,
        Option.toList_some, Option.toList_none, List.singleton_append] at hp
      rcases List.mem_cons.1 hp with rfl | hp
      · exact .inl rfl
      · obtain ⟨o, ho, rfl⟩ := List.mem_map.1 hp
        exact .inr ⟨o, List.mem_cons_of_mem r ho, rfl⟩
  | @refused r outer q c s st e hstep hmove =>
      obtain ⟨inner, hm, -, rfl⟩ := Region.apply_error hmove
      simp only [filterMap_modes, Fault.position?, Option.toList_some, Option.toList_none,
        List.append_nil, List.singleton_append] at hp
      rcases List.mem_cons.1 hp with rfl | hp
      · exact .inl (Region.step_opens hstep hm).1
      · exact .inr (by simpa [eq_comm] using hp)

theorem isIn_of_next (hplace : (Place.ofString text).Reaches place)
    (h : scanner.next place = .ok (x, after)) : x.start.IsIn text ∧ x.stop.IsIn text := by
  obtain ⟨gap, opened, hgap, hmoves, hstart, hstop⟩ := advances_of_next h
  have hreach := hplace.trans (Advances.reaches hgap)
  rw [hstart, hstop]
  exact ⟨Position.isIn_of_reaches hreach,
    Position.isIn_of_reaches (hreach.trans (Advances.reaches hmoves))⟩

theorem isIn_of_next_error (hplace : (Place.ofString text).Reaches place)
    (h : scanner.next place = .error f) :
    f.stop.IsIn text ∧ ∀ p ∈ f.error.positions, p.IsIn text := by
  obtain ⟨a, hmoves, hhalts⟩ := failsFrom_of_next h
  have hreach := hplace.trans (Advances.reaches hmoves)
  constructor
  · obtain ⟨rest, hstop⟩ := reaches_of_next_error h
    exact Position.isIn_of_reaches (hplace.trans hstop)
  · intro p hp
    rcases hhalts.mem_positions hp with rfl | ⟨r, hr, rfl⟩
    · exact Position.isIn_of_reaches hreach
    · exact isIn_of_mem_opened hplace hmoves r hr

end Scanner

/-! ## The positions of a run -/

section Run

variable (scanner : Scanner) (text : String)

theorem isIn_of_mem_lexemes {x : Lexeme} (hx : x ∈ (scanner.run text).lexemes) :
    ∀ p ∈ x.positions, p.IsIn text := by
  obtain ⟨a, b, gap, piece, ha, cut⟩ := Scanner.exists_cut_of_mem_run hx
  have hstart := ha.trans cut.reaches_start
  intro p hp
  simp only [Lexeme.positions, List.mem_cons, List.not_mem_nil, or_false] at hp
  rcases hp with rfl | rfl
  · exact Position.isIn_of_reaches hstart
  · rw [← cut.pos]
    exact Position.isIn_of_reaches (hstart.trans cut.start_reaches)

theorem isIn_of_run_end : (scanner.run text).stop.IsIn text ∧
    (∀ p ∈ itemPositions (scanner.run text).last, p.IsIn text) ∧
    ∀ p ∈ itemPositions (scanner.run text).again, p.IsIn text := by
  obtain ⟨place, hchain, hfinal, -⟩ := Scanner.exists_chain_run scanner text
  unfold Run.last Run.again Run.stop
  cases hnext : scanner.next place with
  | error f =>
      obtain ⟨hstop, hpositions⟩ := Scanner.isIn_of_next_error hchain.reaches hnext
      rw [hfinal, hnext]
      exact ⟨hstop, hpositions, hpositions⟩
  | ok result =>
      obtain ⟨x, after⟩ := result
      obtain ⟨hstart, hstop⟩ := Scanner.isIn_of_next hchain.reaches hnext
      rw [hfinal, hnext]
      simp only [itemPositions, Lexeme.positions, Lexeme.endAt, List.mem_cons, List.not_mem_nil,
        or_false]
      refine ⟨hstop, ?_, ?_⟩
      · rintro p (rfl | rfl)
        · exact hstart
        · exact hstop
      · rintro p (rfl | rfl) <;> exact hstop

theorem isIn_of_mem_items {item : Except Error Lexeme} (h : item ∈ (scanner.run text).items) :
    ∀ p ∈ itemPositions item, p.IsIn text := by
  rcases List.mem_append.1 h with h | h
  · obtain ⟨x, hx, rfl⟩ := List.mem_map.1 h
    exact isIn_of_mem_lexemes scanner text hx
  · obtain rfl := List.mem_singleton.1 h
    exact (isIn_of_run_end scanner text).2.1

end Run

/-! ## The positions of answers -/

section Answer

variable {text : String} {xs : List Lexeme} {e : Error}

theorem isIn_of_lexemes {scanner : Scanner} (h : scanner.lexemes text = .ok xs) :
    ∀ x ∈ xs, ∀ p ∈ x.positions, p.IsIn text := by
  intro x hx
  exact isIn_of_mem_items scanner text (mem_items_of_lexemes h hx)

theorem isIn_of_lexemes_error {scanner : Scanner} (h : scanner.lexemes text = .error e) :
    ∀ p ∈ e.positions, p.IsIn text := by
  rw [lexemes_eq_items] at h
  exact isIn_of_mem_items scanner text (mapM_id_error h)

end Answer

/-! ## Positions never decrease -/

end LexDef

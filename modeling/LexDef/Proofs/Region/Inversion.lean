import LexDef.Region.Read
/-!
# What one step of reading regions does

Reading inside open regions takes a step at a character, moves, and goes on behind the characters
that the step takes. These lemmas say all that can happen there, so that proofs about `read` need
not open it.
-/

namespace LexDef.Region

variable {limit : Nat} {r : Region} {outer opened : List Region} {p : Position} {c : Char}
  {s text : List Char} {place place' : Place} {f : Failure} {st : Step}

def Step.after (st : Step) (p : Position) (c : Char) (s : List Char) : Place :=
  ⟨(p.next c).after (s.take st.more), s.drop st.more⟩

theorem Step.after_append (hmore : st.more ≤ s.length) (p : Position) (c : Char) (t : List Char) :
    st.after p c (s ++ t) = ⟨(st.after p c s).pos, (st.after p c s).rest ++ t⟩ := by
  simp only [Step.after]
  rw [List.take_append_of_le_length hmore, List.drop_append_of_le_length hmore]

theorem Step.after_reaches (st : Step) (p : Position) (c : Char) (s : List Char) :
    Place.Reaches ⟨p, c :: s⟩ (st.after p c s) :=
  (Place.reaches_cons p c s).trans (Place.reaches_skip ⟨p.next c, s⟩ st.more)

theorem read_of_step_error {e : Error} (h : r.step p c s = .error e) :
    read limit (r :: outer) p (c :: s) =
      .error { error := e.inside (modes outer), stop := p.next c } := by
  rw [read, h]

theorem read_of_apply_error {e : Error} (h : r.step p c s = .ok st)
    (hmove : st.move.apply limit r outer = .error e) :
    read limit (r :: outer) p (c :: s) = .error { error := e, stop := (st.after p c s).pos } := by
  rw [read, h]
  simp only [hmove, Step.after]

theorem read_of_step (h : r.step p c s = .ok st)
    (hmove : st.move.apply limit r outer = .ok opened) :
    read limit (r :: outer) p (c :: s) =
      (read limit opened (st.after p c s).pos (st.after p c s).rest).map
        (Prod.map (st.text ++ ·) id) := by
  rw [read, h]
  simp only [hmove, Step.after]
  cases read limit opened ((p.next c).after (s.take st.more)) (s.drop st.more) <;> rfl

/-- Reading succeeds, step by step: from inside the open regions at a place it adds a text and comes
to another place. -/
inductive Reads (limit : Nat) : List Region → Place → List Char → Place → Prop where
  | done (place : Place) : Reads limit [] place [] place
  | step {r : Region} {outer opened : List Region} {p : Position} {c : Char} {s text : List Char}
      {st : Step} {place : Place} (hstep : r.step p c s = .ok st)
      (hmove : st.move.apply limit r outer = .ok opened)
      (h : Reads limit opened (st.after p c s) text place) :
      Reads limit (r :: outer) ⟨p, c :: s⟩ (st.text ++ text) place

/-- Reading fails: at the end of the text, in a step, in a move, or further on. -/
inductive Fails (limit : Nat) : List Region → Place → Failure → Prop where
  | ended (r : Region) (outer : List Region) (p : Position) :
      Fails limit (r :: outer) ⟨p, []⟩
        { error := { fault := .unterminated r, enclosing := modes outer }, stop := p }
  | fault {r : Region} {outer : List Region} {p : Position} {c : Char} {s : List Char} {e : Error}
      (hstep : r.step p c s = .error e) :
      Fails limit (r :: outer) ⟨p, c :: s⟩ { error := e.inside (modes outer), stop := p.next c }
  | refused {r : Region} {outer : List Region} {p : Position} {c : Char} {s : List Char}
      {st : Step} {e : Error} (hstep : r.step p c s = .ok st)
      (hmove : st.move.apply limit r outer = .error e) :
      Fails limit (r :: outer) ⟨p, c :: s⟩ { error := e, stop := (st.after p c s).pos }
  | step {r : Region} {outer opened : List Region} {p : Position} {c : Char} {s : List Char}
      {st : Step} {f : Failure} (hstep : r.step p c s = .ok st)
      (hmove : st.move.apply limit r outer = .ok opened)
      (h : Fails limit opened (st.after p c s) f) :
      Fails limit (r :: outer) ⟨p, c :: s⟩ f

theorem Reads.read_eq (h : Reads limit opened place text place') :
    read limit opened place.pos place.rest = .ok (text, place') := by
  induction h with
  | done place => exact read_nil limit place.pos place.rest
  | step hstep hmove _ ih =>
      rw [read_of_step hstep hmove, ih]
      rfl

theorem Fails.read_eq (h : Fails limit opened place f) :
    read limit opened place.pos place.rest = .error f := by
  induction h with
  | ended r outer p => exact read_end limit r outer p
  | fault hstep => exact read_of_step_error hstep
  | refused hstep hmove => exact read_of_apply_error hstep hmove
  | step hstep hmove _ ih =>
      rw [read_of_step hstep hmove, ih]
      rfl

theorem reads_or_fails (limit : Nat) (opened : List Region) (place : Place) :
    (∃ text place', Reads limit opened place text place') ∨ ∃ f, Fails limit opened place f := by
  obtain ⟨p, s⟩ := place
  fun_induction read limit opened p s with
  | case1 p s => exact .inl ⟨[], _, .done _⟩
  | case2 p r outer => exact .inr ⟨_, .ended r outer p⟩
  | case3 p r outer c s e hstep => exact .inr ⟨_, .fault hstep⟩
  | case4 p r outer c s st hstep _ e hmove => exact .inr ⟨_, .refused hstep hmove⟩
  | case5 p r outer c s st hstep _ opened hmove _ _ ih
  | case6 p r outer c s st hstep _ opened hmove _ _ _ ih =>
      rcases ih with ⟨text, place', h⟩ | ⟨f, h⟩
      · exact .inl ⟨_, _, .step hstep hmove h⟩
      · exact .inr ⟨_, .step hstep hmove h⟩

theorem read_eq_ok_iff :
    read limit opened p s = .ok (text, place) ↔ Reads limit opened ⟨p, s⟩ text place := by
  refine ⟨fun h => ?_, fun h => h.read_eq⟩
  rcases reads_or_fails limit opened ⟨p, s⟩ with ⟨text', place', h'⟩ | ⟨f, h'⟩
  · have heq := h'.read_eq.symm.trans h
    cases heq
    exact h'
  · have heq := h'.read_eq.symm.trans h
    cases heq

theorem read_eq_error_iff :
    read limit opened p s = .error f ↔ Fails limit opened ⟨p, s⟩ f := by
  refine ⟨fun h => ?_, fun h => h.read_eq⟩
  rcases reads_or_fails limit opened ⟨p, s⟩ with ⟨text', place', h'⟩ | ⟨f', h'⟩
  · have heq := h'.read_eq.symm.trans h
    cases heq
  · have heq := h'.read_eq.symm.trans h
    cases heq
    exact h'

end LexDef.Region

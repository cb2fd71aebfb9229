import LexDef.Place
import LexDef.Region.Step
/-!
# Reading regions

From inside some open regions a text is read until all of them are closed. The open regions form a
stack, innermost first, which never grows beyond a limit. A failure names the regions around the
place where it arose. Reading only moves forward in the text: `reaches_of_read`.
-/

namespace LexDef

namespace Region

def modes (opened : List Region) : List Mode := opened.map .region

/-- The regions that are open after a move inside `r`, the innermost one. A region is opened only if
fewer than `limit` are open. -/
def Move.apply (limit : Nat) (r : Region) (outer : List Region) :
    Move → Except Error (List Region)
  | stay => .ok (r :: outer)
  | closes => .ok outer
  | opens inner =>
    if (r :: outer).length < limit then .ok (inner :: r :: outer)
    else .error { fault := .tooDeep limit inner.start, enclosing := modes (r :: outer) }

/-- Reads from `p`, inside the regions `opened`, until they are closed. Gives the text that the
steps add and the place after the last closing delimiter. -/
def read (limit : Nat) (opened : List Region) (p : Position) (s : List Char) :
    Except Failure (List Char × Place) :=
  match opened, s with
  | [], s => .ok ([], ⟨p, s⟩)
  | r :: outer, [] =>
    .error { error := { fault := .unterminated r, enclosing := modes outer }, stop := p }
  | r :: outer, c :: s =>
    match r.step p c s with
    | .error e => .error { error := e.inside (modes outer), stop := p.next c }
    | .ok step =>
      let after := (p.next c).after (s.take step.more)
      match step.move.apply limit r outer with
      | .error e => .error { error := e, stop := after }
      | .ok opened =>
        match read limit opened after (s.drop step.more) with
        | .error f => .error f
        | .ok (text, place) => .ok (step.text ++ text, place)
termination_by s.length

@[simp] theorem read_nil (limit : Nat) (p : Position) (s : List Char) :
    read limit [] p s = .ok ([], ⟨p, s⟩) := by
  rw [read]

@[simp] theorem read_end (limit : Nat) (r : Region) (outer : List Region) (p : Position) :
    read limit (r :: outer) p [] =
      .error { error := { fault := .unterminated r, enclosing := modes outer }, stop := p } := by
  rw [read]

theorem reaches_of_read {limit : Nat} {opened : List Region} {p : Position} {s text : List Char}
    {place : Place} (h : read limit opened p s = .ok (text, place)) :
    Place.Reaches ⟨p, s⟩ place := by
  fun_induction read limit opened p s generalizing text with
  | case1 => cases h; exact .refl _
  | case2 | case3 | case4 | case5 => cases h
  | case6 p r outer c s step _ after opened _ more _ hread =>
    rename_i ih
    cases h
    exact (Place.reaches_cons p c s).trans
      ((Place.reaches_skip ⟨p.next c, s⟩ step.more).trans (ih hread))

end Region

end LexDef

import LexDef.Position
/-!
# Places in a text

A place is a position together with what is left to read from there. Reading moves from a place to
one that it reaches: the text in between is a part of the text, and the position has moved over it.
-/

namespace LexDef

structure Place where
  pos : Position := {}
  rest : List Char
deriving DecidableEq, Repr

namespace Place

def ofString (text : String) : Place := { rest := text.toList }

def skip (a : Place) (n : Nat) : Place :=
  { pos := a.pos.after (a.rest.take n), rest := a.rest.drop n }

def Reaches (a b : Place) : Prop :=
  ∃ piece, a.rest = piece ++ b.rest ∧ b.pos = a.pos.after piece

theorem Reaches.refl (a : Place) : a.Reaches a := ⟨[], by simp⟩

theorem Reaches.trans {a b c : Place} (hab : a.Reaches b) (hbc : b.Reaches c) : a.Reaches c := by
  obtain ⟨x, hx, hp⟩ := hab
  obtain ⟨y, hy, hq⟩ := hbc
  exact ⟨x ++ y, by simp [hx, hy], by simp [hp, hq]⟩

theorem Reaches.length_le {a b : Place} (h : a.Reaches b) : b.rest.length ≤ a.rest.length := by
  obtain ⟨x, hx, -⟩ := h
  simp [hx]

theorem reaches_append (p : Position) (piece s : List Char) :
    Reaches ⟨p, piece ++ s⟩ ⟨p.after piece, s⟩ := ⟨piece, rfl, rfl⟩

theorem reaches_cons (p : Position) (c : Char) (s : List Char) :
    Reaches ⟨p, c :: s⟩ ⟨p.next c, s⟩ := ⟨[c], rfl, rfl⟩

theorem reaches_skip (a : Place) (n : Nat) : a.Reaches (a.skip n) :=
  ⟨a.rest.take n, by simp [skip], rfl⟩

end Place

end LexDef

import LexDef.Proofs.Region.Steps
/-!
# Reading that goes on elsewhere

Reading inside open regions adds some text and then goes on as it does inside other regions from a
later place: behind a step, behind a line break or behind a closing delimiter.
-/

namespace LexDef.Region

/-- Whether reading inside `opened` from `place` adds `text` and then goes on as it does inside
`opened'` from `place'`. -/
def Leads (limit : Nat) (opened : List Region) (place : Place) (text : List Char)
    (opened' : List Region) (place' : Place) : Prop :=
  read limit opened place.pos place.rest =
    (read limit opened' place'.pos place'.rest).map (Prod.map (text ++ ·) id)

def IsLineBreak (eol : List Char) : Prop := eol = ['\n'] ∨ eol = ['\r', '\n']

/-- What regions of a kind add to their text for characters that mean nothing special in them. -/
def Kind.plain (s : List Char) : Kind → List Char
  | comment => []
  | string | code | codeString => s

def Kind.closing : Kind → List Char
  | string | comment => []
  | code => ['}']
  | codeString => ['"']

variable {limit : Nat} {r : Region} {outer opened opened' opened'' : List Region} {p : Position}
  {c : Char} {s text text' eol : List Char} {place place' place'' after : Place} {st : Step}
  {f : Failure}

namespace Leads

theorem refl (limit : Nat) (opened : List Region) (place : Place) :
    Leads limit opened place [] opened place := by
  unfold Leads
  cases read limit opened place.pos place.rest <;> rfl

theorem trans (h : Leads limit opened place text opened' place')
    (h' : Leads limit opened' place' text' opened'' place'') :
    Leads limit opened place (text ++ text') opened'' place'' := by
  unfold Leads at *
  rw [h, h']
  cases read limit opened'' place''.pos place''.rest with
  | error f => rfl
  | ok result => exact congrArg Except.ok (Prod.ext (by simp) rfl)

theorem read_ok (h : Leads limit opened place text opened' place')
    (h' : read limit opened' place'.pos place'.rest = .ok (text', after)) :
    read limit opened place.pos place.rest = .ok (text ++ text', after) := by
  rw [h, h']
  rfl

theorem read_error (h : Leads limit opened place text opened' place')
    (h' : read limit opened' place'.pos place'.rest = .error f) :
    read limit opened place.pos place.rest = .error f := by
  rw [h, h']
  rfl

/-- If reading inside some regions goes on inside others, both are closed at the same place. -/
theorem map_snd (h : Leads limit opened place text opened' place') :
    (read limit opened place.pos place.rest).map Prod.snd =
      (read limit opened' place'.pos place'.rest).map Prod.snd := by
  rw [h]
  cases read limit opened' place'.pos place'.rest <;> rfl

end Leads

theorem leads_of_step (h : r.step p c s = .ok st)
    (hmove : st.move.apply limit r outer = .ok opened) :
    Leads limit (r :: outer) ⟨p, c :: s⟩ st.text opened (st.after p c s) :=
  read_of_step h hmove

theorem step_of_plain (r : Region) (p : Position) (s : List Char)
    (hc : c ∉ ['"', '\\', '\'', '(', '*', '{', '}']) :
    r.step p c s = .ok { text := r.kind.plain [c] } := by
  simp only [List.mem_cons, List.not_mem_nil, or_false, not_or] at hc
  cases hk : r.kind with
  | string =>
      have hstep : stringStep c s = .ok { text := [c] } := by simp [stringStep, hc]
      exact step_of_stringStep hk p hstep
  | code => simp [step, hk, codeStep, hc, Kind.plain]
  | codeString => simp [step, hk, codeStringStep, hc, Kind.plain]
  | comment => simp [step, hk, commentStep, hc, Kind.plain]

theorem leads_of_plain (limit : Nat) (r : Region) (outer : List Region) (p : Position)
    (s : List Char) (hc : c ∉ ['"', '\\', '\'', '(', '*', '{', '}']) :
    Leads limit (r :: outer) ⟨p, c :: s⟩ (r.kind.plain [c]) (r :: outer) ⟨p.next c, s⟩ :=
  leads_of_step (step_of_plain r p s hc) rfl

theorem leads_of_lineBreak (heol : IsLineBreak eol) (limit : Nat) (r : Region)
    (outer : List Region) (p : Position) (s : List Char) :
    Leads limit (r :: outer) ⟨p, eol ++ s⟩ (r.kind.plain eol) (r :: outer) ⟨p.after eol, s⟩ := by
  rcases heol with rfl | rfl
  · exact leads_of_plain limit r outer p s (by decide)
  · have hcr := leads_of_plain limit r outer p ('\n' :: s) (c := '\r') (by decide)
    have hlf := leads_of_plain limit r outer (p.next '\r') s (c := '\n') (by decide)
    have htext : r.kind.plain ['\r'] ++ r.kind.plain ['\n'] = r.kind.plain ['\r', '\n'] := by
      cases r.kind <;> rfl
    rw [← htext]
    exact hcr.trans hlf

theorem step_of_escaped_lineBreak (heol : IsLineBreak eol) (hr : r.kind = .string) (p : Position)
    (s : List Char) : r.step p '\\' (eol ++ s) = .ok { more := eol.length } := by
  apply step_of_stringStep hr
  rcases heol with rfl | rfl <;> rfl

theorem leads_of_escaped_lineBreak (heol : IsLineBreak eol) (hr : r.kind = .string) (limit : Nat)
    (outer : List Region) (p : Position) (s : List Char) :
    Leads limit (r :: outer) ⟨p, '\\' :: (eol ++ s)⟩ [] (r :: outer) ⟨p.after ('\\' :: eol), s⟩ := by
  have hleads : Leads limit (r :: outer) ⟨p, '\\' :: (eol ++ s)⟩ [] (r :: outer) _ :=
    leads_of_step (step_of_escaped_lineBreak heol hr p s) rfl
  rw [Step.after, List.take_left, List.drop_left] at hleads
  exact hleads

theorem leads_of_closer (limit : Nat) (r : Region) (outer : List Region) (p : Position)
    (s : List Char) :
    Leads limit (r :: outer) ⟨p, r.kind.closer ++ s⟩ r.kind.closing outer
      ⟨p.after r.kind.closer, s⟩ := by
  obtain ⟨k, start⟩ := r
  cases k with
  | string =>
      have hstep : step ⟨.string, start⟩ p '"' s = .ok { move := .closes } := rfl
      exact leads_of_step hstep rfl
  | code =>
      have hstep : step ⟨.code, start⟩ p '}' s = .ok { move := .closes, text := ['}'] } := rfl
      exact leads_of_step hstep rfl
  | codeString =>
      have hstep : step ⟨.codeString, start⟩ p '"' s = .ok { move := .closes, text := ['"'] } := rfl
      exact leads_of_step hstep rfl
  | comment =>
      have hstep : step ⟨.comment, start⟩ p '*' (')' :: s) =
          .ok { move := .closes, more := 1 } := rfl
      exact leads_of_step hstep rfl

/-- An opening delimiter is one step, in every region that can hold the new one. -/
theorem exists_step_of_opener {k : Kind} (hk : k.host = r.kind) (p : Position) (s : List Char) :
    ∃ c u st, k.opener ++ s = c :: u ∧ r.step p c u = .ok st ∧ st.move = .opens ⟨k, p⟩ ∧
      st.after p c u = ⟨p.after k.opener, s⟩ := by
  obtain ⟨kind, start⟩ := r
  simp only at hk
  subst hk
  cases k with
  | string => exact ⟨'"', s, { move := .opens ⟨.string, p⟩ }, rfl, rfl, rfl, rfl⟩
  | code => exact ⟨'{', s, { move := .opens ⟨.code, p⟩, text := ['{'] }, rfl, rfl, rfl, rfl⟩
  | codeString =>
      exact ⟨'"', s, { move := .opens ⟨.codeString, p⟩, text := ['"'] }, rfl, rfl, rfl, rfl⟩
  | comment =>
      exact ⟨'(', '*' :: s, { move := .opens ⟨.comment, p⟩, more := 1 }, rfl, rfl, rfl, rfl⟩

theorem leads_of_opener {k : Kind} (hk : k.host = r.kind) (hlen : (r :: outer).length < limit)
    (p : Position) (s : List Char) :
    ∃ text, Leads limit (r :: outer) ⟨p, k.opener ++ s⟩ text (⟨k, p⟩ :: r :: outer)
      ⟨p.after k.opener, s⟩ := by
  obtain ⟨c, u, st, hs, hstep, hopens, hafter⟩ := exists_step_of_opener hk p s
  have hmove : st.move.apply limit r outer = .ok (⟨k, p⟩ :: r :: outer) := by
    rw [hopens]
    exact if_pos hlen
  rw [hs, ← hafter]
  exact ⟨st.text, leads_of_step hstep hmove⟩

theorem read_of_opener_too_deep {k : Kind} (hk : k.host = r.kind)
    (hlen : limit ≤ (r :: outer).length) (p : Position) (s : List Char) :
    read limit (r :: outer) p (k.opener ++ s) =
      .error { error := { fault := .tooDeep limit p, enclosing := modes (r :: outer) },
               stop := p.after k.opener } := by
  obtain ⟨c, u, st, hs, hstep, hopens, hafter⟩ := exists_step_of_opener hk p s
  have hmove : st.move.apply limit r outer =
      .error { fault := .tooDeep limit p, enclosing := modes (r :: outer) } := by
    rw [hopens]
    exact if_neg (Nat.not_lt.2 hlen)
  rw [hs, read_of_apply_error hstep hmove, hafter]

/-- What is read inside some regions until they are closed is read in the same way inside further
regions, as far as the limit allows. -/
theorem Reads.leads (h : Reads limit opened place text place') (outer : List Region)
    {limit' : Nat} (hlimit : limit + outer.length ≤ limit') :
    Leads limit' (opened ++ outer) place text outer place' := by
  induction h with
  | done place => exact .refl limit' outer place
  | @step r inner opened p c s text st place hstep hmove h ih =>
      have hmove' : st.move.apply limit' r (inner ++ outer) = .ok (opened ++ outer) := by
        rcases apply_ok_cases hmove with ⟨hm, rfl⟩ | ⟨hm, rfl⟩ | ⟨q, hm, rfl, hlen⟩
        · rw [hm]; rfl
        · rw [hm]; rfl
        · have hlen' : (r :: (inner ++ outer)).length < limit' := by
            simp only [List.length_cons, List.length_append] at *
            omega
          rw [hm]
          exact if_pos hlen'
      exact (leads_of_step hstep hmove').trans ih

/-- Nothing opens in a string, so its moves need no room. -/
theorem apply_of_string (hr : r.kind = .string) (h : r.step p c s = .ok st) :
    (∀ limit outer, st.move.apply limit r outer = .ok (r :: outer)) ∨
    ∀ limit outer, st.move.apply limit r outer = .ok outer := by
  obtain ⟨-, ⟨hclose, -⟩ | ⟨k, -, hhost, -⟩ | hstay⟩ := step_cases h
  · rw [hclose]
    exact .inr fun _ _ => rfl
  · rw [hr] at hhost
    cases k <;> cases hhost
  · rw [hstay]
    exact .inl fun _ _ => rfl

theorem Reads.leads_of_string {limit' : Nat} (h : Reads limit' [r] place text place')
    (hr : r.kind = .string) (limit : Nat) (outer : List Region) :
    Leads limit (r :: outer) place text outer place' := by
  generalize hopened : [r] = opened at h
  induction h with
  | done place => cases hopened
  | step hstep hmove h ih =>
      obtain ⟨rfl, rfl⟩ := List.cons.inj hopened
      rcases apply_of_string hr hstep with hm | hm
      · obtain rfl := Except.ok.inj ((hm _ _).symm.trans hmove)
        exact (leads_of_step hstep (hm limit outer)).trans (ih rfl)
      · obtain rfl := Except.ok.inj ((hm _ _).symm.trans hmove)
        cases h
        rw [List.append_nil]
        exact leads_of_step hstep (hm limit outer)

/-- A string cannot be read if the text ends in it or a character code in it is too large. The same
holds inside other regions, which the error then names. -/
theorem Fails.of_string {limit' : Nat} (h : Fails limit' [r] place f) (hr : r.kind = .string) :
    (f.error = { fault := .unterminated r } ∨
      ∃ code q, 255 < code ∧ f.error = { fault := .codeTooLarge code, location := some q }) ∧
    ∀ limit outer, Fails limit (r :: outer) place (f.inside (modes outer)) := by
  generalize hopened : [r] = opened at h
  induction h with
  | ended q inner p =>
      obtain ⟨rfl, rfl⟩ := List.cons.inj hopened
      exact ⟨.inl rfl, fun limit outer => .ended r outer p⟩
  | @fault q inner p c s e hstep =>
      obtain ⟨rfl, rfl⟩ := List.cons.inj hopened
      obtain ⟨-, -, code, ⟨hlarge, -⟩, rfl⟩ := step_error hstep
      exact ⟨.inr ⟨code, p, hlarge, rfl⟩, fun limit outer => .fault hstep⟩
  | refused hstep hmove =>
      obtain ⟨rfl, rfl⟩ := List.cons.inj hopened
      rcases apply_of_string hr hstep with hm | hm
      · cases (hm _ _).symm.trans hmove
      · cases (hm _ _).symm.trans hmove
  | step hstep hmove h ih =>
      obtain ⟨rfl, rfl⟩ := List.cons.inj hopened
      rcases apply_of_string hr hstep with hm | hm
      · obtain rfl := Except.ok.inj ((hm _ _).symm.trans hmove)
        obtain ⟨herror, hinside⟩ := ih rfl
        exact ⟨herror, fun limit outer => .step hstep (hm limit outer) (hinside limit outer)⟩
      · obtain rfl := Except.ok.inj ((hm _ _).symm.trans hmove)
        cases h

end LexDef.Region

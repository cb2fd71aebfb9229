import LexDef.Proofs.Region.Inversion
/-!
# Counting braces in action code

A block of action code can be read without a stack: one pass that counts the open braces, and knows
whether it is in a string, finds where the block closes. Reading the open regions of the block does
what this pass says: `read_regions`.
-/

namespace LexDef.Code

structure Tally where
  depth : Nat := 1
  quoted : Bool := false

/-- The tally after `c`: a quote flips the flag, and outside strings braces count. -/
def Tally.next (t : Tally) (c : Char) : Tally :=
  if c = '"' then { t with quoted := !t.quoted }
  else if t.quoted then t
  else if c = '{' then { t with depth := t.depth + 1 }
  else if c = '}' then { t with depth := t.depth - 1 }
  else t

namespace Tally

variable {t : Tally} {c : Char}

theorem next_of_quoted (h : t.quoted = true) (hc : c ≠ '"') : t.next c = t := by
  simp [next, h, hc]

theorem next_of_ne (hc : c ≠ '"') (ho : c ≠ '{') (hcl : c ≠ '}') : t.next c = t := by
  simp [next, hc, ho, hcl]

@[simp] theorem next_quote (t : Tally) : t.next '"' = { t with quoted := !t.quoted } := rfl

@[simp] theorem next_begin (h : t.quoted = false) :
    t.next '{' = { t with depth := t.depth + 1 } := by
  simp [next, h]

@[simp] theorem next_end (h : t.quoted = false) :
    t.next '}' = { t with depth := t.depth - 1 } := by
  simp [next, h]

end Tally

/-- A tally with the places where the count last rose to each number and where the last string
began. They take no part in the count. -/
structure Marks extends Tally where
  brace : Nat → Position
  quote : Position

inductive Ending where
  /-- The count came down to zero, and `rest` is left. -/
  | closed (rest : List Char)
  /-- The delimiter at `position` would have opened one region too many. -/
  | tooDeep (marks : Marks) (position : Position)
  | ended (marks : Marks)

namespace Marks

def start (p : Position) : Marks := { brace := fun _ => p, quote := p }

def next (t : Marks) (p : Position) (c : Char) : Marks where
  toTally := t.toTally.next c
  brace n := if c = '{' ∧ ¬t.quoted ∧ n = t.depth + 1 then p else t.brace n
  quote := if c = '"' ∧ ¬t.quoted then p else t.quote

def count (t : Marks) : Nat := t.depth + t.quoted.toNat

/-- The pass over `s`, which is at `p`. A backslash takes a quote or a backslash after it along. -/
def pass (limit : Nat) (t : Marks) (p : Position) : List Char → Ending
  | [] => .ended t
  | '\\' :: '"' :: s => pass limit t (p.after ['\\', '"']) s
  | '\\' :: '\\' :: s => pass limit t (p.after ['\\', '\\']) s
  | c :: s =>
    if (t.next p c).depth = 0 then .closed s
    else if limit < (t.next p c).count then .tooDeep t p
    else pass limit (t.next p c) (p.next c) s

def braces (t : Marks) : Nat → List Region
  | 0 => []
  | n + 1 => ⟨.code, t.brace (n + 1)⟩ :: t.braces n

def regions (t : Marks) : List Region :=
  if t.quoted then ⟨.codeString, t.quote⟩ :: t.braces t.depth else t.braces t.depth

@[simp] theorem length_braces (t : Marks) (n : Nat) : (t.braces n).length = n := by
  induction n with
  | zero => rfl
  | succ n ih => rw [braces, List.length_cons, ih]

@[simp] theorem length_regions (t : Marks) : t.regions.length = t.count := by
  unfold regions count
  cases t.quoted <;> simp

theorem braces_congr {t u : Marks} {n : Nat} (h : ∀ m ≤ n, t.brace m = u.brace m) :
    t.braces n = u.braces n := by
  induction n with
  | zero => rfl
  | succ n ih =>
      rw [braces, braces, h (n + 1) (Nat.le_refl _), ih fun m hm => h m (by omega)]

@[simp] theorem regions_of_quoted {t : Marks} (h : t.quoted = true) :
    t.regions = ⟨.codeString, t.quote⟩ :: t.braces t.depth := by
  rw [regions, if_pos h]

@[simp] theorem regions_of_not_quoted {t : Marks} (h : t.quoted = false) :
    t.regions = t.braces t.depth := by
  simp [regions, h]

variable {t : Marks} {c : Char}

theorem next_of_quoted (h : t.quoted = true) (hc : c ≠ '"') (p : Position) : t.next p c = t := by
  simp [next, h, hc, Tally.next_of_quoted]

theorem next_of_ne (hc : c ≠ '"') (ho : c ≠ '{') (hcl : c ≠ '}') (p : Position) :
    t.next p c = t := by
  simp [next, hc, ho, Tally.next_of_ne hc ho hcl]

theorem regions_end_quote (h : t.quoted = true) (p : Position) :
    (t.next p '"').regions = t.braces t.depth := by
  rw [regions_of_not_quoted (by simp [next, h])]
  exact braces_congr fun m _ => by simp [next]

theorem regions_begin_quote (h : t.quoted = false) (p : Position) :
    (t.next p '"').regions = ⟨.codeString, p⟩ :: t.regions := by
  rw [regions_of_quoted (by simp [next, h]), regions_of_not_quoted h]
  have hquote : (t.next p '"').quote = p := by simp [next, h]
  rw [hquote]
  exact congrArg _ (braces_congr fun m _ => by simp [next])

theorem regions_begin_brace (h : t.quoted = false) (p : Position) :
    (t.next p '{').regions = ⟨.code, p⟩ :: t.regions := by
  have hdepth : (t.next p '{').depth = t.depth + 1 := by simp [next, h]
  rw [regions_of_not_quoted (by simp [next, h]), regions_of_not_quoted h, hdepth, braces]
  have hbrace : (t.next p '{').brace (t.depth + 1) = p := by simp [next, h]
  rw [hbrace]
  refine congrArg _ (braces_congr fun m hm => ?_)
  exact if_neg (by omega)

theorem regions_end_brace (h : t.quoted = false) (p : Position) :
    (t.next p '}').regions = t.braces (t.depth - 1) := by
  have hdepth : (t.next p '}').depth = t.depth - 1 := by simp [next, h]
  rw [regions_of_not_quoted (by simp [next, h]), hdepth]
  exact braces_congr fun m _ => by simp [next]

theorem exists_regions (ht : 0 < t.depth) : ∃ r outer, t.regions = r :: outer := by
  have hlen : t.regions.length ≠ 0 := by
    rw [length_regions, count]
    omega
  exact List.exists_cons_of_length_pos (Nat.pos_of_ne_zero hlen)

theorem closed_of_next {p : Position} (ht : 0 < t.depth) (h : (t.next p c).depth = 0) :
    c = '}' ∧ (t.next p c).quoted = false := by
  grind [next, Tally.next]

theorem opened_of_next {p : Position} {limit : Nat} (hl : t.count ≤ limit)
    (h : limit < (t.next p c).count) : c = '"' ∨ c = '{' := by
  grind [next, count, Tally.next]

end Marks

/-- What reading the open regions of a block over `s`, which is at `p`, must give if the pass ends
in this way. -/
def Ending.Tells (limit : Nat) (p : Position) (s : List Char)
    (result : Except Failure (List Char × Place)) : Ending → Prop
  | closed rest => ∃ code, s = code ++ '}' :: rest ∧
      result = .ok (code ++ ['}'], ⟨p.after (code ++ ['}']), rest⟩)
  | tooDeep t q => result = .error
      { error := { fault := .tooDeep limit q, enclosing := Region.modes t.regions },
        stop := q.next '{' }
  | ended t => ∃ r outer, t.regions = r :: outer ∧ result = .error
      { error := { fault := .unterminated r, enclosing := Region.modes outer }, stop := p.after s }

open Region

theorem Ending.Tells.append {limit : Nat} {p : Position} {piece s : List Char}
    {result : Except Failure (List Char × Place)} {e : Ending}
    (h : e.Tells limit (p.after piece) s result) :
    e.Tells limit p (piece ++ s) (result.map (Prod.map (piece ++ ·) id)) := by
  cases e with
  | closed rest =>
      obtain ⟨code, rfl, rfl⟩ := h
      exact ⟨piece ++ code, by simp, by simp [Except.map]⟩
  | tooDeep t q =>
      subst h
      rfl
  | ended t =>
      obtain ⟨r, outer, hr, rfl⟩ := h
      exact ⟨r, outer, hr, by simp [Except.map]⟩

/-- A verbatim step passes on what the reading behind it tells. -/
theorem tells_of_step {limit : Nat} {r : Region} {outer opened : List Region} {p : Position}
    {c : Char} {piece s : List Char} {st : Step} {e : Ending}
    (hstep : r.step p c (piece ++ s) = .ok st) (hmove : st.move.apply limit r outer = .ok opened)
    (htext : st.text = c :: piece) (hmore : st.more = piece.length)
    (h : e.Tells limit (p.after (c :: piece)) s
      (read limit opened (p.after (c :: piece)) s)) :
    e.Tells limit p (c :: (piece ++ s)) (read limit (r :: outer) p (c :: (piece ++ s))) := by
  have hafter : st.after p c (piece ++ s) = ⟨p.after (c :: piece), s⟩ := by
    simp [Step.after, hmore]
  rw [read_of_step hstep hmove, hafter, htext]
  exact h.append

theorem codeStringStep_of_ne {c : Char} {s : List Char} (hc : c ≠ '"')
    (hq : ∀ u, c = '\\' → s = '"' :: u → False) (hb : ∀ u, c = '\\' → s = '\\' :: u → False) :
    codeStringStep c s = { text := [c] } := by
  unfold codeStringStep
  split <;> simp_all

theorem codeStep_of_ne {p : Position} {c : Char} {s : List Char} (hc : c ≠ '"') (ho : c ≠ '{')
    (hcl : c ≠ '}')
    (hq : ∀ u, c = '\\' → s = '"' :: u → False) (hb : ∀ u, c = '\\' → s = '\\' :: u → False) :
    codeStep p c s = { text := [c] } := by
  unfold codeStep
  split <;> simp_all

theorem opens_apply {limit : Nat} {r inner : Region} {outer opened : List Region}
    (h : opened = inner :: r :: outer) :
    (Move.opens inner).apply limit r outer =
      if opened.length ≤ limit then .ok opened
      else .error { fault := .tooDeep limit inner.start, enclosing := modes (r :: outer) } := by
  subst h
  rfl

/-- One step of reading the open regions of a tally does what the tally does. -/
theorem exists_step {limit : Nat} {t : Marks} {r : Region} {outer : List Region} {p : Position}
    {c : Char} {s : List Char} (hl : t.count ≤ limit) (hr : t.regions = r :: outer)
    (hq : ∀ u, c = '\\' → s = '"' :: u → False) (hb : ∀ u, c = '\\' → s = '\\' :: u → False) :
    ∃ st, r.step p c s = .ok st ∧ st.text = [c] ∧ st.more = 0 ∧
      st.move.apply limit r outer =
        if (t.next p c).count ≤ limit then .ok (t.next p c).regions
        else .error { fault := .tooDeep limit p, enclosing := modes t.regions } := by
  cases hquoted : t.quoted with
  | true =>
      have hr' := hr
      rw [Marks.regions_of_quoted hquoted] at hr'
      obtain ⟨rfl, rfl⟩ := List.cons.inj hr'
      by_cases hc : c = '"'
      · subst c
        refine ⟨{ move := .closes, text := ['"'] }, rfl, rfl, rfl, ?_⟩
        have hlen : (t.next p '"').count ≤ limit := by
          rw [← Marks.length_regions, Marks.regions_end_quote hquoted]
          rw [← Marks.length_regions, hr, List.length_cons] at hl
          omega
        rw [if_pos hlen, Marks.regions_end_quote hquoted]
        rfl
      · refine ⟨{ text := [c] }, ?_, rfl, rfl, ?_⟩
        · rw [step, codeStringStep_of_ne hc hq hb]
        · rw [Marks.next_of_quoted hquoted hc, if_pos hl, hr]
          rfl
  | false =>
      have hr' := hr
      rw [Marks.regions_of_not_quoted hquoted] at hr'
      have hdepth : t.depth = (t.depth - 1) + 1 := by
        have := congrArg List.length hr'
        simp only [Marks.length_braces, List.length_cons] at this
        omega
      rw [hdepth, Marks.braces] at hr'
      obtain ⟨rfl, rfl⟩ := List.cons.inj hr'
      by_cases hc : c = '"'
      · subst c
        refine ⟨{ move := .opens ⟨.codeString, p⟩, text := ['"'] }, rfl, rfl, rfl, ?_⟩
        rw [opens_apply (Marks.regions_begin_quote hquoted p |>.trans (hr ▸ rfl)), hr,
          Marks.length_regions]
      by_cases ho : c = '{'
      · subst c
        refine ⟨{ move := .opens ⟨.code, p⟩, text := ['{'] }, rfl, rfl, rfl, ?_⟩
        rw [opens_apply (Marks.regions_begin_brace hquoted p |>.trans (hr ▸ rfl)), hr,
          Marks.length_regions]
      by_cases hcl : c = '}'
      · subst c
        refine ⟨{ move := .closes, text := ['}'] }, rfl, rfl, rfl, ?_⟩
        have hlen : (t.next p '}').count ≤ limit := by
          rw [← Marks.length_regions, Marks.regions_end_brace hquoted]
          rw [← Marks.length_regions, hr, List.length_cons] at hl
          omega
        rw [if_pos hlen, Marks.regions_end_brace hquoted]
        rfl
      · refine ⟨{ text := [c] }, ?_, rfl, rfl, ?_⟩
        · rw [step, codeStep_of_ne hc ho hcl hq hb]
        · rw [Marks.next_of_ne hc ho hcl, if_pos hl, hr]
          rfl

/-- The pairs of a backslash with a quote or a backslash are text in code and in strings. -/
theorem exists_step_of_pair {t : Marks} {r : Region} {outer : List Region}
    (p : Position) {c : Char} (s : List Char) (hr : t.regions = r :: outer)
    (hc : c = '"' ∨ c = '\\') :
    r.step p '\\' (c :: s) = .ok { text := ['\\', c], more := 1 } := by
  have hkind : r.kind = .code ∨ r.kind = .codeString := by
    unfold Marks.regions at hr
    cases hq : t.quoted <;> cases hd : t.depth <;> grind [Marks.braces]
  rcases hc with rfl | rfl <;> rcases hkind with hk | hk <;> rw [step, hk] <;> rfl

theorem read_regions (limit : Nat) (t : Marks) (p : Position) (s : List Char)
    (ht : 0 < t.depth) (hl : t.count ≤ limit) :
    (t.pass limit p s).Tells limit p s (read limit t.regions p s) := by
  fun_induction Marks.pass limit t p s with
  | case1 t p =>
      obtain ⟨r, outer, hr⟩ := Marks.exists_regions ht
      exact ⟨r, outer, hr, by rw [hr, read_end, Position.after_nil]⟩
  | case2 t p s ih =>
      obtain ⟨r, outer, hr⟩ := Marks.exists_regions ht
      rw [hr] at ih ⊢
      exact tells_of_step (exists_step_of_pair p s hr (.inl rfl)) rfl rfl rfl (ih ht hl)
  | case3 t p s ih =>
      obtain ⟨r, outer, hr⟩ := Marks.exists_regions ht
      rw [hr] at ih ⊢
      exact tells_of_step (exists_step_of_pair p s hr (.inr rfl)) rfl rfl rfl (ih ht hl)
  | case4 t p c s hq hb hclosed =>
      obtain ⟨r, outer, hr⟩ := Marks.exists_regions ht
      obtain ⟨st, hstep, htext, hmore, hmove⟩ := exists_step hl hr (p := p) hq hb
      obtain ⟨rfl, hquoted⟩ := Marks.closed_of_next ht hclosed
      have hnone : (t.next p '}').regions = [] := by
        rw [← List.length_eq_zero_iff, Marks.length_regions, Marks.count, hclosed, hquoted]
        rfl
      rw [← Marks.length_regions, hnone, List.length_nil, if_pos (Nat.zero_le _)] at hmove
      refine ⟨[], rfl, ?_⟩
      rw [hr, read_of_step hstep hmove, read_nil, Step.after, htext, hmore]
      rfl
  | case5 t p c s hq hb hopen hdeep =>
      obtain ⟨r, outer, hr⟩ := Marks.exists_regions ht
      obtain ⟨st, hstep, htext, hmore, hmove⟩ := exists_step hl hr (p := p) hq hb
      rw [if_neg (by omega)] at hmove
      rw [hr, read_of_apply_error hstep hmove, Ending.Tells, Step.after, hmore]
      rcases Marks.opened_of_next hl hdeep with rfl | rfl <;> rfl
  | case6 t p c s hq hb hopen hdeep ih =>
      obtain ⟨r, outer, hr⟩ := Marks.exists_regions ht
      obtain ⟨st, hstep, htext, hmore, hmove⟩ := exists_step hl hr (p := p) hq hb
      rw [if_pos (by omega)] at hmove
      rw [hr]
      exact tells_of_step hstep hmove htext hmore (ih (by omega) (by omega))

theorem exists_of_read {limit : Nat} (hlimit : 0 < limit) {p : Position} {s text : List Char}
    {place : Place} (h : read limit [⟨.code, p⟩] (p.next '{') s = .ok (text, place)) :
    ∃ code, s = code ++ '}' :: place.rest ∧ text = code ++ ['}'] := by
  have hread := read_regions limit (Marks.start p) (p.next '{') s Nat.one_pos hlimit
  have hstart : (Marks.start p).regions = [⟨.code, p⟩] := rfl
  rw [hstart, h] at hread
  cases hpass : (Marks.start p).pass limit (p.next '{') s with
  | closed rest =>
      rw [hpass] at hread
      obtain ⟨code, hs, heq⟩ := hread
      cases heq
      exact ⟨code, hs, rfl⟩
  | tooDeep t q =>
      rw [hpass] at hread
      cases hread
  | ended t =>
      rw [hpass] at hread
      obtain ⟨r, outer, -, heq⟩ := hread
      cases heq

end LexDef.Code

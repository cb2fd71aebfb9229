import LexDef.Proofs.Literal
import LexDef.Proofs.Region.Steps
/-!
# Reading regions is local

The piece of a text that is read until all regions are closed ends with the delimiter of the
outermost one. What follows that piece, and where it stands, makes no difference: `Reads.append`.
-/

namespace LexDef.Region

/-- A move that was made elsewhere, here at `p`. -/
def Move.moved (p : Position) : Move → Move
  | opens inner => opens ⟨inner.kind, p⟩
  | stay => stay
  | closes => closes

def Step.moved (st : Step) (p : Position) : Step := { st with move := st.move.moved p }

variable {limit : Nat} {r r' : Region} {outer outer' opened opened' : List Region}
  {p p' : Position} {c : Char} {s text piece rest rest' : List Char} {place place' : Place}
  {st : Step}

theorem step_moved (hk : r'.kind = r.kind) (p' : Position) (h : r.step p c s = .ok st) :
    r'.step p' c s = .ok (st.moved p') := by
  have hcode : codeStep p' c s = (codeStep p c s).moved p' := by
    unfold codeStep
    split <;> rfl
  have hcodeString : (codeStringStep c s).moved p' = codeStringStep c s := by
    unfold codeStringStep
    split <;> rfl
  have hcomment : commentStep p' c s = (commentStep p c s).moved p' := by
    unfold commentStep
    split
    · rfl
    · rfl
    · rfl
    · split <;> rfl
    · rfl
  unfold step at *
  rw [hk]
  split at h
  · cases hstep : stringStep c s with
    | error e =>
        rw [hstep] at h
        cases h
    | ok st' =>
        rw [hstep] at h
        cases h
        have hmoved : st.moved p' = st := by
          rcases stringStep_cases hstep with ⟨-, rfl⟩ | ⟨hm, -⟩
          · rfl
          · rw [Step.moved, hm, Move.moved, ← hm]
        rw [hmoved]
        rfl
  · cases h
    rw [hcode]
  · cases h
    rw [hcodeString]
  · cases h
    rw [hcomment]

theorem apply_moved {m : Move} (hkind : (r' :: outer').map kind = (r :: outer).map kind)
    (p' : Position) (h : m.apply limit r outer = .ok opened) :
    ∃ opened', (m.moved p').apply limit r' outer' = .ok opened' ∧
      opened'.map kind = opened.map kind := by
  rcases apply_ok_cases h with ⟨rfl, rfl⟩ | ⟨rfl, rfl⟩ | ⟨inner, rfl, rfl, hlen⟩
  · exact ⟨r' :: outer', rfl, hkind⟩
  · exact ⟨outer', rfl, (List.cons.inj hkind).2⟩
  · have hlen' : (r' :: outer').length < limit := by
      rw [← List.length_map (f := kind), hkind, List.length_map]
      exact hlen
    exact ⟨⟨inner.kind, p'⟩ :: r' :: outer', if_pos hlen', congrArg (inner.kind :: ·) hkind⟩

theorem Reads.ends (h : Reads limit opened place text place') {o : Region}
    (ho : opened.getLast? = some o) :
    ∃ init, place.rest = init ++ o.kind.closer ++ place'.rest := by
  induction h with
  | done place => cases ho
  | @step r outer opened p c s text st place hstep hmove h ih =>
      have hmore : c :: s = (c :: s.take st.more) ++ (st.after p c s).rest := by
        simp [Step.after]
      have hlater (ho' : opened.getLast? = some o) :
          ∃ init, c :: s = init ++ o.kind.closer ++ place.rest := by
        obtain ⟨init, hinit⟩ := ih ho'
        exact ⟨c :: s.take st.more ++ init, by rw [hmore, hinit]; simp⟩
      rcases apply_ok_cases hmove with ⟨-, rfl⟩ | ⟨hm, rfl⟩ | ⟨inner, -, rfl, -⟩
      · exact hlater ho
      · cases opened with
        | nil =>
            cases h
            obtain rfl : r = o := by simpa using ho
            refine ⟨[], ?_⟩
            rw [List.nil_append, ← step_closes hstep hm]
            exact hmore
        | cons q opened => exact hlater ho
      · exact hlater ho

/-- What follows a delimiter is no part of an escape before it. -/
theorem escapeStep_append {d : Char} (hd : d = '"' ∨ d = ')' ∨ d = '}')
    (init rest rest' : List Char) :
    escapeStep (init ++ d :: rest) = escapeStep (init ++ d :: rest') := by
  have hdigit : d.isDigit = false := by
    rcases hd with rfl | rfl | rfl <;> rfl
  match init with
  | [] => unfold escapeStep; grind
  | [a] => unfold escapeStep; grind
  | [a, b] => unfold escapeStep; grind
  | a :: b :: e :: init => unfold escapeStep; grind

theorem exists_last_closer (k : Kind) :
    ∃ init d, k.closer = init ++ [d] ∧ (d = '"' ∨ d = ')' ∨ d = '}') := by
  cases k
  · exact ⟨[], '"', rfl, .inl rfl⟩
  · exact ⟨[], '}', rfl, .inr (.inr rfl)⟩
  · exact ⟨[], '"', rfl, .inl rfl⟩
  · exact ⟨['*'], ')', rfl, .inr (.inl rfl)⟩

theorem codeStep_append (h : s ≠ [] ∨ c ≠ '\\') (p : Position) (rest rest' : List Char) :
    codeStep p c (s ++ rest) = codeStep p c (s ++ rest') := by
  cases s with
  | nil =>
      unfold codeStep
      grind
  | cons x s =>
      unfold codeStep
      grind

theorem codeStringStep_append (h : s ≠ [] ∨ c ≠ '\\') (rest rest' : List Char) :
    codeStringStep c (s ++ rest) = codeStringStep c (s ++ rest') := by
  cases s with
  | nil =>
      unfold codeStringStep
      grind
  | cons x s =>
      unfold codeStringStep
      grind

theorem commentStep_of_some {f : CharForm} (p : Position)
    (h : CharForm.ofText? ('\'' :: s) = some (f, rest)) :
    commentStep p '\'' s = { more := f.body.length + 1 } := by
  simp [commentStep, h]

theorem commentStep_of_none (p : Position) (h : CharForm.ofText? ('\'' :: s) = none) :
    commentStep p '\'' s = {} := by
  simp [commentStep, h]

theorem escapeStep_of_digits {d₁ d₂ d₃ : Char} (h₁ : d₁.isDigit) (h₂ : d₂.isDigit)
    (h₃ : d₃.isDigit) (s : List Char) :
    escapeStep (d₁ :: d₂ :: d₃ :: s) =
      (fun code => { text := [Char.ofNat code.toNat], more := 3 }) <$>
        Escape.decimal d₁ d₂ d₃ := by
  obtain ⟨hlf, hcr⟩ := ne_of_isDigit h₁
  unfold escapeStep
  grind

theorem escapeStep_of_not_digits {a : Char} (hlf : a ≠ '\n') (hcr : a ≠ '\r')
    (h : ∀ d₂ d₃ u, a.isDigit → d₂.isDigit → d₃.isDigit → s ≠ d₂ :: d₃ :: u) :
    escapeStep (a :: s) = .ok (escapeStep.named a) := by
  unfold escapeStep
  grind

/-- The character codes and the named characters behind a backslash are on one line. -/
theorem escapeStep_of_same_line {g : List Char → List Char} {s' : List Char} {a : Char}
    (h : SameLine g (a :: s) (a :: s')) (hlf : a ≠ '\n') (hcr : a ≠ '\r') :
    escapeStep (a :: s') = escapeStep (a :: s) := by
  have hline : ∀ d₂ d₃ : Char, a.isDigit → d₂.isDigit → d₃.isDigit →
      '\n' ∉ [a, d₂, d₃] ∧ '\r' ∉ [a, d₂, d₃] := by
    intro d₂ d₃ h₁ h₂ h₃
    simp [ne_of_isDigit h₁, ne_of_isDigit h₂, ne_of_isDigit h₃]
  by_cases hdigits : ∃ d₂ d₃ u, a.isDigit ∧ d₂.isDigit ∧ d₃.isDigit ∧ s = d₂ :: d₃ :: u
  · obtain ⟨d₂, d₃, u, h₁, h₂, h₃, rfl⟩ := hdigits
    obtain ⟨hn, hr⟩ := hline d₂ d₃ h₁ h₂ h₃
    have hs' : a :: s' = a :: d₂ :: d₃ :: g u := (h [a, d₂, d₃] (g u) hn hr).2 ⟨u, rfl, rfl⟩
    rw [hs', escapeStep_of_digits h₁ h₂ h₃, escapeStep_of_digits h₁ h₂ h₃]
  · have hnot : ∀ d₂ d₃ u, a.isDigit → d₂.isDigit → d₃.isDigit → s ≠ d₂ :: d₃ :: u :=
      fun d₂ d₃ u h₁ h₂ h₃ hs => hdigits ⟨d₂, d₃, u, h₁, h₂, h₃, hs⟩
    have hnot' : ∀ d₂ d₃ u, a.isDigit → d₂.isDigit → d₃.isDigit → s' ≠ d₂ :: d₃ :: u := by
      rintro d₂ d₃ u h₁ h₂ h₃ rfl
      obtain ⟨hn, hr⟩ := hline d₂ d₃ h₁ h₂ h₃
      obtain ⟨v, hv, -⟩ := (h [a, d₂, d₃] u hn hr).1 rfl
      exact hnot d₂ d₃ v h₁ h₂ h₃ (List.cons.inj hv).2
    rw [escapeStep_of_not_digits hlf hcr hnot, escapeStep_of_not_digits hlf hcr hnot']

/-- A step does not see what is changed behind the end of a line, unless a backslash in a string
escapes the line break. -/
theorem step_of_same_line {g : List Char → List Char} {s' : List Char} (hs : SameLine g s s')
    (hquote : SameLine g ('\'' :: s) ('\'' :: s'))
    (hescape : r.kind = .string → c = '\\' → escapeStep s' = escapeStep s) :
    r.step p c s' = r.step p c s := by
  have hq := hs.cons_iff (d := '"') (by decide) (by decide)
  have hb := hs.cons_iff (d := '\\') (by decide) (by decide)
  have ho := hs.cons_iff (d := '*') (by decide) (by decide)
  have hc := hs.cons_iff (d := ')') (by decide) (by decide)
  unfold step
  split
  · rename_i hk
    suffices hstring : stringStep c s' = stringStep c s by rw [hstring]
    unfold stringStep
    split
    · rfl
    · exact hescape hk rfl
    · rfl
  · refine congrArg Except.ok ?_
    unfold codeStep
    cases s <;> cases s' <;> grind
  · refine congrArg Except.ok ?_
    unfold codeStringStep
    cases s <;> cases s' <;> grind
  · refine congrArg Except.ok ?_
    by_cases hquoted : c = '\''
    · subst c
      have hform := CharForm.ofText?_of_same_line hquote
      cases h : CharForm.ofText? ('\'' :: s) with
      | none =>
          rw [h] at hform
          rw [commentStep_of_none p h, commentStep_of_none p hform]
      | some result =>
          rw [h] at hform
          rw [commentStep_of_some p h, commentStep_of_some p hform]
          rfl
    · unfold commentStep
      cases s <;> cases s' <;> grind

theorem commentStep_append {init : List Char} (hclose : c :: s = init ++ ['*', ')'])
    (hmore : (commentStep p c (s ++ rest)).more ≤ s.length) (rest' : List Char) :
    commentStep p c (s ++ rest') = commentStep p c (s ++ rest) := by
  by_cases hc : c = '\''
  · subst c
    cases hform : CharForm.ofText? ('\'' :: (s ++ rest)) with
    | none =>
        have hform' : CharForm.ofText? ('\'' :: (s ++ rest')) = none := by
          rw [← List.cons_append, hclose] at hform ⊢
          exact CharForm.ofText?_append_of_closed init rest rest' hform
        rw [commentStep_of_none p hform, commentStep_of_none p hform']
    | some result =>
        obtain ⟨f, tail⟩ := result
        rw [commentStep_of_some p hform] at hmore ⊢
        obtain ⟨hwf, heq⟩ := CharForm.ofText?_eq_some_iff.1 hform
        have hlen : f.spelling.length ≤ ('\'' :: s).length := by
          simp only [CharForm.spelling, List.length_cons, List.length_append, List.length_nil]
          simp only at hmore
          omega
        rw [← List.cons_append] at heq
        obtain ⟨v, hv⟩ : ∃ v, '\'' :: s = f.spelling ++ v := by
          rcases List.append_eq_append_iff.1 heq with ⟨v, hv, -⟩ | ⟨v, hv, -⟩
          · have := congrArg List.length hv
            rw [List.length_append] at this
            have hnil : v = [] := List.length_eq_zero_iff.1 (by omega)
            exact ⟨[], by rw [hv, hnil]; simp⟩
          · exact ⟨v, hv⟩
        have hform' : CharForm.ofText? ('\'' :: (s ++ rest')) = some (f, v ++ rest') := by
          rw [← List.cons_append, hv, List.append_assoc, CharForm.ofText?_spelling hwf]
        exact commentStep_of_some p hform'
  · cases s with
    | nil =>
        have := congrArg List.length hclose
        simp at this
    | cons x s =>
        unfold commentStep
        grind
/-- A step depends only on what is read until all regions are closed. -/
theorem step_append {k : Kind} (hk : r.kind = .comment → k = .comment)
    (hclose : ∃ init, c :: s = init ++ k.closer) (h : r.step p c (s ++ rest) = .ok st)
    (hmore : st.more ≤ s.length) (rest' : List Char) : r.step p c (s ++ rest') = .ok st := by
  obtain ⟨init, hinit⟩ := hclose
  obtain ⟨front, d, hlast, hd⟩ := exists_last_closer k
  have hend : (c = d ∧ s = []) ∨ ∃ u, s = u ++ [d] := by
    rw [hlast, ← List.append_assoc] at hinit
    cases hinit' : init ++ front with
    | nil => grind
    | cons a u => grind
  have hback : s ≠ [] ∨ c ≠ '\\' := by
    rcases hend with ⟨rfl, -⟩ | ⟨u, rfl⟩
    · exact .inr (by rcases hd with rfl | rfl | rfl <;> decide)
    · exact .inl (by simp)
  unfold step at *
  split
  · rename_i hkind
    simp only [hkind] at h
    suffices hs : stringStep c (s ++ rest') = stringStep c (s ++ rest) by rw [hs, h]
    unfold stringStep
    split
    · rfl
    · obtain ⟨u, rfl⟩ : ∃ u, s = u ++ [d] := by
        rcases hend with ⟨rfl, -⟩ | hu
        · simp at hd
        · exact hu
      rw [List.append_assoc, List.append_assoc]
      exact escapeStep_append hd u rest' rest
    · rfl
  · rename_i hkind
    simp only [hkind] at h
    rw [codeStep_append hback p rest' rest, h]
  · rename_i hkind
    simp only [hkind] at h
    rw [codeStringStep_append hback rest' rest, h]
  · rename_i hkind
    simp only [hkind] at h
    cases h
    obtain rfl := hk hkind
    rw [commentStep_append hinit hmore]

theorem comment_of_getLast {o : Region} (hn : Nested (r :: outer))
    (ho : (r :: outer).getLast? = some o) (hr : r.kind = .comment) : o.kind = .comment := by
  rcases List.mem_cons.1 (List.mem_of_getLast? ho) with rfl | hmem
  · exact hr
  · rw [hn o hmem, hr, Kind.host]

/-- Reading depends only on the piece that is read and on the kinds of the open regions. -/
theorem Reads.append (h : Reads limit opened place text place') (hn : Nested opened)
    (hkind : opened'.map kind = opened.map kind) (hpiece : place.rest = piece ++ place'.rest)
    (p' : Position) (rest' : List Char) :
    Reads limit opened' ⟨p', piece ++ rest'⟩ text ⟨p'.after piece, rest'⟩ := by
  induction h generalizing opened' piece p' with
  | done place =>
      obtain rfl : opened' = [] := by simpa using hkind
      obtain rfl : piece = [] := by simpa using hpiece
      exact .done _
  | @step r outer opened p c s text st place hstep hmove h ih =>
      obtain ⟨r', outer', rfl⟩ : ∃ r' outer', opened' = r' :: outer' := by
        cases opened' with
        | nil => simp at hkind
        | cons r' outer' => exact ⟨r', outer', rfl⟩
      obtain ⟨tail, htail, -⟩ := Region.reaches_of_read h.read_eq
      -- the piece is what the step takes and then `tail`
      obtain ⟨hlen, -⟩ := step_cases hstep
      have hs : s = s.take st.more ++ tail ++ place.rest := by
        rw [List.append_assoc, ← htail]
        exact (List.take_append_drop st.more s).symm
      obtain rfl : piece = c :: (s.take st.more ++ tail) := by
        refine List.append_cancel_right (hpiece.symm.trans ?_)
        exact congrArg (c :: ·) hs
      have hmore : (s.take st.more).length = st.more := by
        rw [List.length_take]
        omega
      obtain ⟨o, ho⟩ : ∃ o, (r :: outer).getLast? = some o :=
        ⟨_, List.getLast?_eq_some_getLast (List.cons_ne_nil r outer)⟩
      obtain ⟨init, hinit⟩ := (Reads.step hstep hmove h).ends ho
      have hclose : c :: (s.take st.more ++ tail) = init ++ o.kind.closer := by
        refine List.append_cancel_right (Eq.trans ?_ hinit)
        exact congrArg (c :: ·) hs.symm
      have hstep' := step_append (comment_of_getLast hn ho) ⟨init, hclose⟩ (hs ▸ hstep)
        (by rw [List.length_append]; omega) rest'
      have hafter : (st.moved p').after p' c (s.take st.more ++ tail ++ rest') =
          ⟨(p'.next c).after (s.take st.more), tail ++ rest'⟩ := by
        have hm : (st.moved p').more = (s.take st.more).length := hmore.symm
        rw [Step.after, hm, List.append_assoc, List.take_left, List.drop_left]
      obtain ⟨opened', hmove', hkind'⟩ := apply_moved hkind p' hmove
      have hrest := ih (nested_of_apply hn hstep hmove) hkind' htail
        ((p'.next c).after (s.take st.more))
      rw [← hafter] at hrest
      have := Reads.step (step_moved (List.cons.inj hkind).1 p' hstep') hmove' hrest
      rw [Position.after_cons, Position.after_append]
      exact this

theorem read_append {k : Kind} {q : Position} (h : read limit [⟨k, p⟩] q s = .ok (text, place))
    (hpiece : s = piece ++ place.rest) (p' q' : Position) (rest' : List Char) :
    read limit [⟨k, p'⟩] q' (piece ++ rest') = .ok (text, ⟨q'.after piece, rest'⟩) := by
  have hn : Nested [⟨k, p⟩] := fun _ ho => absurd ho List.not_mem_nil
  have hkind : [(⟨k, p'⟩ : Region)].map kind = [(⟨k, p⟩ : Region)].map kind := rfl
  exact ((read_eq_ok_iff.1 h).append hn hkind hpiece q' rest').read_eq

end LexDef.Region

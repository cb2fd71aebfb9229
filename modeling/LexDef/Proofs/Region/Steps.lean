import LexDef.Proofs.Literal
import LexDef.Proofs.Region.Inversion
/-!
# What steps in regions do

A step closes its region, opens a region in it, or stays. So regions stand in each other only as
their kinds allow: code and its strings in code, comments and strings in comments.
-/

namespace LexDef.Region

def Kind.closer : Kind → List Char
  | string | codeString => ['"']
  | code => ['}']
  | comment => ['*', ')']

def Kind.opener : Kind → List Char
  | string | codeString => ['"']
  | code => ['{']
  | comment => ['(', '*']

/-- The kind of the regions that those of a kind can stand in. -/
def Kind.host : Kind → Kind
  | string | comment => comment
  | code | codeString => code

/-- Whether open regions, innermost first, stand in each other as their kinds allow. -/
def Nested : List Region → Prop
  | [] => True
  | r :: outer => ∀ o ∈ outer, o.kind = r.kind.host

/-- The line breaks that reading takes at once, alone or behind a backslash. -/
def lineBreaks : List (List Char) := [['\n'], ['\r', '\n'], ['\\', '\n'], ['\\', '\r', '\n']]

/-- Whether reading may take these characters at once: they stand on one line or break it. -/
def TakenAtOnce (piece : List Char) : Prop := '\n' ∉ piece ∨ piece ∈ lineBreaks

variable {limit : Nat} {r : Region} {outer opened : List Region} {p : Position} {c : Char}
  {s text : List Char} {place place' : Place} {st : Step} {e : Error} {fault : Fault}

theorem escapeStep_stays (h : escapeStep s = .ok st) : st.move = .stay ∧ st.more ≤ s.length := by
  unfold escapeStep at h
  split at h
  · cases h; simp
  · cases h; simp
  · split at h
    · rename_i d₁ d₂ d₃ _ _ _ _
      cases hcode : Escape.decimal d₁ d₂ d₃ with
      | error e =>
          rw [hcode] at h
          cases h
      | ok code =>
          rw [hcode] at h
          cases h
          simp
    · cases h; unfold escapeStep.named; split <;> simp
  · cases h; unfold escapeStep.named; split <;> simp
  · cases h; simp

theorem stringStep_cases (h : stringStep c s = .ok st) :
    (c = '"' ∧ st = { move := .closes }) ∨ (st.move = .stay ∧ st.more ≤ s.length) := by
  unfold stringStep at h
  split at h
  · cases h
    exact .inl ⟨rfl, rfl⟩
  · exact .inr (escapeStep_stays h)
  · cases h
    exact .inr ⟨rfl, Nat.zero_le _⟩

theorem codeStep_cases (p : Position) (c : Char) (s : List Char) :
    (c = '}' ∧ codeStep p c s = { move := .closes, text := ['}'] }) ∨
    (c = '{' ∧ codeStep p c s = { move := .opens ⟨.code, p⟩, text := ['{'] }) ∨
    (c = '"' ∧ codeStep p c s = { move := .opens ⟨.codeString, p⟩, text := ['"'] }) ∨
    ((codeStep p c s).move = .stay ∧ (codeStep p c s).more ≤ s.length) := by
  unfold codeStep
  split <;> simp

theorem codeStringStep_cases (c : Char) (s : List Char) :
    (c = '"' ∧ codeStringStep c s = { move := .closes, text := ['"'] }) ∨
    ((codeStringStep c s).move = .stay ∧ (codeStringStep c s).more ≤ s.length) := by
  unfold codeStringStep
  split <;> simp

theorem commentStep_cases (p : Position) (c : Char) (s : List Char) :
    (∃ u, c = '*' ∧ s = ')' :: u ∧ commentStep p c s = { move := .closes, more := 1 }) ∨
    (∃ u, c = '(' ∧ s = '*' :: u ∧ commentStep p c s = { move := .opens ⟨.comment, p⟩, more := 1 }) ∨
    (c = '"' ∧ commentStep p c s = { move := .opens ⟨.string, p⟩ }) ∨
    ((commentStep p c s).move = .stay ∧ (commentStep p c s).more ≤ s.length) := by
  unfold commentStep
  split
  · simp
  · simp
  · simp
  · split
    · rename_i f rest hf
      have hlen := congrArg List.length (CharForm.eq_of_ofText? hf)
      simp only [CharForm.spelling, List.length_cons, List.length_append, List.length_nil] at hlen
      refine .inr (.inr (.inr ⟨rfl, ?_⟩))
      simp only
      omega
    · simp
  · simp

theorem takenAtOnce_singleton (c : Char) : TakenAtOnce [c] := by
  by_cases hc : c = '\n'
  · subst c
    exact .inr (by decide)
  · exact .inl (by simpa using Ne.symm hc)

theorem escapeStep_piece (h : escapeStep s = .ok st) : TakenAtOnce ('\\' :: s.take st.more) := by
  have hnamed : ∀ (d : Char) (u : List Char),
      TakenAtOnce ('\\' :: (d :: u).take (escapeStep.named d).more) := by
    intro d u
    unfold escapeStep.named
    split
    · rename_i hd
      refine .inl ?_
      have hne : '\n' ≠ d := by
        rintro rfl
        exact absurd hd (by decide)
      simp [hne]
    · exact .inl (by simp)
  unfold escapeStep at h
  split at h
  · cases h
    exact .inr (by simp [lineBreaks])
  · cases h
    exact .inr (by simp [lineBreaks])
  · split at h
    · rename_i d₁ d₂ d₃ _ _ _ hdigits
      simp only [Bool.and_eq_true] at hdigits
      obtain ⟨⟨h₁, h₂⟩, h₃⟩ := hdigits
      cases hcode : Escape.decimal d₁ d₂ d₃ with
      | error e =>
          rw [hcode] at h
          cases h
      | ok code =>
          rw [hcode] at h
          cases h
          exact .inl (by simp [ne_of_isDigit h₁, ne_of_isDigit h₂, ne_of_isDigit h₃])
    · cases h
      exact hnamed _ _
  · cases h
    exact hnamed _ _
  · cases h
    exact .inl (by simp)

theorem step_piece (h : r.step p c s = .ok st) : TakenAtOnce (c :: s.take st.more) := by
  unfold step at h
  split at h
  · cases hstep : stringStep c s with
    | error e =>
        rw [hstep] at h
        cases h
    | ok st' =>
        rw [hstep] at h
        cases h
        unfold stringStep at hstep
        split at hstep
        · cases hstep
          exact takenAtOnce_singleton _
        · exact escapeStep_piece hstep
        · cases hstep
          exact takenAtOnce_singleton _
  · cases h
    unfold codeStep
    split
    · exact takenAtOnce_singleton _
    · exact takenAtOnce_singleton _
    · exact takenAtOnce_singleton _
    · exact .inl (by simp)
    · exact .inl (by simp)
    · exact takenAtOnce_singleton _
  · cases h
    unfold codeStringStep
    split
    · exact takenAtOnce_singleton _
    · exact .inl (by simp)
    · exact .inl (by simp)
    · exact takenAtOnce_singleton _
  · cases h
    unfold commentStep
    split
    · exact .inl (by simp)
    · exact .inl (by simp)
    · exact takenAtOnce_singleton _
    · split
      · rename_i f rest hform
        obtain ⟨hwf, heq⟩ := CharForm.ofText?_eq_some_iff.1 hform
        have hlen : f.spelling.length = f.body.length + 1 + 1 := by
          simp [CharForm.spelling]
        have htake : '\'' :: s.take (f.body.length + 1) = f.spelling := by
          rw [← List.take_succ_cons, heq, ← hlen, List.take_left]
        rw [htake]
        exact .inl hwf.not_mem_spelling.1
      · exact takenAtOnce_singleton _
    · exact takenAtOnce_singleton _

theorem step_cases (h : r.step p c s = .ok st) : st.more ≤ s.length ∧
    ((st.move = .closes ∧ c :: s.take st.more = r.kind.closer) ∨
    (∃ k : Kind, st.move = .opens ⟨k, p⟩ ∧ k.host = r.kind ∧ c :: s.take st.more = k.opener) ∨
    st.move = .stay) := by
  unfold step at h
  split at h
  · rename_i hk
    cases hstep : stringStep c s with
    | error e =>
        rw [hstep] at h
        cases h
    | ok st' =>
        rw [hstep] at h
        cases h
        rcases stringStep_cases hstep with ⟨rfl, rfl⟩ | ⟨hm, hlen⟩
        · exact ⟨Nat.zero_le _, .inl ⟨rfl, by rw [hk]; rfl⟩⟩
        · exact ⟨hlen, .inr (.inr hm)⟩
  · rename_i hk
    cases h
    rcases codeStep_cases p c s with ⟨rfl, h⟩ | ⟨rfl, h⟩ | ⟨rfl, h⟩ | ⟨hm, hlen⟩
    · rw [h, hk]; exact ⟨Nat.zero_le _, .inl ⟨rfl, rfl⟩⟩
    · rw [h, hk]; exact ⟨Nat.zero_le _, .inr (.inl ⟨.code, rfl, rfl, rfl⟩)⟩
    · rw [h, hk]; exact ⟨Nat.zero_le _, .inr (.inl ⟨.codeString, rfl, rfl, rfl⟩)⟩
    · exact ⟨hlen, .inr (.inr hm)⟩
  · rename_i hk
    cases h
    rcases codeStringStep_cases c s with ⟨rfl, h⟩ | ⟨hm, hlen⟩
    · rw [h, hk]; exact ⟨Nat.zero_le _, .inl ⟨rfl, rfl⟩⟩
    · exact ⟨hlen, .inr (.inr hm)⟩
  · rename_i hk
    cases h
    rcases commentStep_cases p c s with ⟨u, rfl, rfl, h⟩ | ⟨u, rfl, rfl, h⟩ | ⟨rfl, h⟩ | ⟨hm, hlen⟩
    · rw [h, hk]; exact ⟨by simp, .inl ⟨rfl, rfl⟩⟩
    · rw [h, hk]; exact ⟨by simp, .inr (.inl ⟨.comment, rfl, rfl, rfl⟩)⟩
    · rw [h, hk]; exact ⟨Nat.zero_le _, .inr (.inl ⟨.string, rfl, rfl, rfl⟩)⟩
    · exact ⟨hlen, .inr (.inr hm)⟩

theorem step_closes (h : r.step p c s = .ok st) (hm : st.move = .closes) :
    c :: s.take st.more = r.kind.closer := by
  obtain ⟨-, ⟨-, hcloser⟩ | ⟨k, ho, -⟩ | hs⟩ := step_cases h
  · exact hcloser
  · rw [hm] at ho
    cases ho
  · rw [hm] at hs
    cases hs

theorem step_opens {inner : Region} (h : r.step p c s = .ok st) (hm : st.move = .opens inner) :
    inner.start = p ∧ inner.kind.host = r.kind ∧ c :: s.take st.more = inner.kind.opener := by
  obtain ⟨-, ⟨hc, -⟩ | ⟨k, ho, hhost, hopener⟩ | hs⟩ := step_cases h
  · rw [hm] at hc
    cases hc
  · rw [hm] at ho
    cases ho
    exact ⟨rfl, hhost, hopener⟩
  · rw [hm] at hs
    cases hs

theorem apply_ok_cases {m : Move} (h : m.apply limit r outer = .ok opened) :
    (m = .stay ∧ opened = r :: outer) ∨ (m = .closes ∧ opened = outer) ∨
    ∃ inner, m = .opens inner ∧ opened = inner :: r :: outer ∧ (r :: outer).length < limit := by
  cases m with
  | stay => exact .inl ⟨rfl, (Except.ok.inj h).symm⟩
  | closes => exact .inr (.inl ⟨rfl, (Except.ok.inj h).symm⟩)
  | opens inner =>
      rw [Move.apply] at h
      split at h
      · exact .inr (.inr ⟨inner, rfl, (Except.ok.inj h).symm, ‹_›⟩)
      · cases h

theorem step_of_stringStep (hr : r.kind = .string) (p : Position) (h : stringStep c s = .ok st) :
    r.step p c s = .ok st := by
  unfold step
  rw [hr, h]
  rfl

/-- A step fails only in a string, at a backslash before the digits of a code that is too large. -/
theorem escapeStep_error (h : escapeStep s = .error fault) :
    ∃ code, (255 < code ∧ ∃ d₁ d₂ d₃ u, s = d₁ :: d₂ :: d₃ :: u ∧ Escape.Writes d₁ d₂ d₃ code) ∧
      fault = .codeTooLarge code := by
  unfold escapeStep at h
  split at h
  · cases h
  · cases h
  · split at h
    · rename_i d₁ d₂ d₃ u _ _ hdigits
      simp only [Bool.and_eq_true] at hdigits
      obtain ⟨⟨h₁, h₂⟩, h₃⟩ := hdigits
      cases hcode : Escape.decimal d₁ d₂ d₃ with
      | error e =>
          rw [hcode] at h
          cases h
          obtain ⟨code, ⟨hlarge, hwrites⟩, hfault⟩ := Escape.decimal_error h₁ h₂ h₃ hcode
          exact ⟨code, ⟨hlarge, d₁, d₂, d₃, u, rfl, hwrites⟩, hfault⟩
      | ok code =>
          rw [hcode] at h
          cases h
    · cases h
  · cases h
  · cases h

theorem step_error (h : r.step p c s = .error e) : r.kind = .string ∧ c = '\\' ∧
    ∃ code, (255 < code ∧ ∃ d₁ d₂ d₃ u, s = d₁ :: d₂ :: d₃ :: u ∧ Escape.Writes d₁ d₂ d₃ code) ∧
      e = { fault := .codeTooLarge code, location := some p } := by
  unfold step at h
  split at h
  · rename_i hk
    cases hstep : stringStep c s with
    | ok st =>
        rw [hstep] at h
        cases h
    | error fault =>
        rw [hstep] at h
        cases h
        unfold stringStep at hstep
        split at hstep
        · cases hstep
        · obtain ⟨code, hcode, rfl⟩ := escapeStep_error hstep
          exact ⟨hk, rfl, code, hcode, rfl⟩
        · cases hstep
  · cases h
  · cases h
  · cases h

/-- A move fails only where it would open one region too many. -/
theorem apply_error {m : Move} (h : m.apply limit r outer = .error e) :
    ∃ inner, m = .opens inner ∧ limit ≤ (r :: outer).length ∧
      e = { fault := .tooDeep limit inner.start, enclosing := modes (r :: outer) } := by
  cases m with
  | stay => cases h
  | closes => cases h
  | opens inner =>
      rw [Move.apply] at h
      split at h
      · cases h
      · rename_i hlen
        exact ⟨inner, rfl, Nat.not_lt.1 hlen, (Except.error.inj h).symm⟩

theorem host_host (k : Kind) : k.host.host = k.host := by
  cases k <;> rfl

theorem host_cases (k : Kind) : k.host = .comment ∨ k.host = .code := by
  cases k <;> simp [Kind.host]

theorem host_of_nested {o : Region} (hn : Nested (r :: outer)) (ho : o ∈ r :: outer) :
    o.kind.host = r.kind.host := by
  rcases List.mem_cons.1 ho with rfl | ho
  · rfl
  · rw [hn o ho, host_host]

theorem nested_of_apply (hn : Nested (r :: outer)) (hstep : r.step p c s = .ok st)
    (hmove : st.move.apply limit r outer = .ok opened) : Nested opened := by
  rcases apply_ok_cases hmove with ⟨-, rfl⟩ | ⟨-, rfl⟩ | ⟨inner, hm, rfl, -⟩
  · exact hn
  · cases opened with
    | nil => trivial
    | cons o opened =>
        intro q hq
        rw [hn q (List.mem_cons_of_mem o hq), hn o List.mem_cons_self, host_host]
  · obtain ⟨-, hhost, -⟩ := step_opens hstep hm
    intro o ho
    rcases List.mem_cons.1 ho with rfl | ho
    · exact hhost.symm
    · rw [hn o ho, ← hhost, host_host]

end LexDef.Region

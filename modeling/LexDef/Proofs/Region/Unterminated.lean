import LexDef.Proofs.Region.Continuation
import LexDef.Proofs.Region.Locality
/-!
# Regions that the text ends in

Where the text ends inside open regions, reading fails and names them, innermost first. If the text
goes on with a line feed, reading goes on inside just these regions, whatever the text ended with:
`Fails.resume`. Their closing delimiters then close them one by one: `leads_of_closers`.
-/

namespace LexDef.Region

def closers (opened : List Region) : List Char :=
  opened.flatMap fun r => r.kind.closer

variable {limit : Nat} {r : Region} {outer opened : List Region} {p : Position} {c : Char}
  {s : List Char} {place : Place} {st : Step} {f : Failure}

theorem exists_of_append_line_eq {s t u v : List Char} (h : s ++ '\n' :: t = u ++ v)
    (hu : '\n' ∉ u) : ∃ w, s = u ++ w ∧ v = w ++ '\n' :: t := by
  rcases List.append_eq_append_iff.1 h with ⟨w, rfl, hw⟩ | ⟨w, rfl, rfl⟩
  · cases w with
    | nil => exact ⟨[], by simp, by simpa using hw.symm⟩
    | cons d w =>
        obtain ⟨rfl, -⟩ := List.cons.inj hw
        exact absurd (List.mem_append_right s List.mem_cons_self) hu
  · exact ⟨w, rfl, rfl⟩

theorem sameLine_append (s t : List Char) : SameLine (· ++ '\n' :: t) s (s ++ '\n' :: t) := by
  intro u v hu _
  constructor
  · intro h
    exact exists_of_append_line_eq h hu
  · rintro ⟨w, rfl, rfl⟩
    exact List.append_assoc u w _

theorem escapeStep_append_line (hs : s ≠ [] ∧ s ≠ ['\r']) (t : List Char) :
    escapeStep (s ++ '\n' :: t) = escapeStep s := by
  cases s with
  | nil => exact absurd rfl hs.1
  | cons a s =>
      by_cases hlf : a = '\n'
      · subst a
        rfl
      · by_cases hcr : a = '\r'
        · subst a
          obtain ⟨b, s, rfl⟩ := List.exists_cons_of_ne_nil fun hnil => hs.2 (hnil ▸ rfl)
          unfold escapeStep
          cases s <;> grind
        · exact escapeStep_of_same_line (sameLine_append (a :: s) t) hlf hcr

/-- A step does not see that the text goes on with a line feed, except at a backslash in a string,
where the line feed may be escaped. -/
theorem step_append_line (hback : r.kind = .string → c = '\\' → s ≠ [] ∧ s ≠ ['\r'])
    (p : Position) (t : List Char) : r.step p c (s ++ '\n' :: t) = r.step p c s :=
  step_of_same_line (sameLine_append s t) (sameLine_append ('\'' :: s) t) fun hk hc =>
    escapeStep_append_line (hback hk hc) t

/-- A backslash that the text of a string ends with stands for itself. -/
theorem step_of_last_backslash (hr : r.kind = .string) (p : Position) (hs : s = [] ∨ s = ['\r']) :
    r.step p '\\' s = .ok { text := ['\\'] } := by
  apply step_of_stringStep hr
  rcases hs with rfl | rfl <;> rfl

/-- Where nothing but a carriage return is left, the innermost region is to blame. -/
theorem Fails.error_of_rest (h : Fails limit (r :: outer) place f)
    (hs : place.rest = [] ∨ place.rest = ['\r']) :
    f.error = { fault := .unterminated r, enclosing := modes outer } := by
  obtain ⟨p, s⟩ := place
  have hread := h.read_eq
  rcases hs with rfl | rfl
  · rw [read_end] at hread
    rw [← Except.error.inj hread]
  · have hend := (leads_of_plain limit r outer p [] (c := '\r') (by decide)).read_error
      (read_end limit r outer (p.next '\r'))
    rw [hend] at hread
    rw [← Except.error.inj hread]

theorem Fails.ne_nil (h : Fails limit opened place f) : opened ≠ [] := by
  cases h <;> exact List.cons_ne_nil _ _

theorem getLast?_of_apply {m : Move} (h : m.apply limit r outer = .ok opened)
    (hne : opened ≠ []) : opened.getLast? = (r :: outer).getLast? := by
  rcases apply_ok_cases h with ⟨-, rfl⟩ | ⟨-, rfl⟩ | ⟨inner, -, rfl, -⟩
  · rfl
  · exact (List.getLast?_cons_of_ne_nil hne).symm
  · rfl

/-- The regions that the text ends in are named, and reading comes to the end of the text. -/
theorem Fails.unterminated (h : Fails limit opened place f) (hn : Nested opened)
    (hf : f.error.fault = .unterminated r) :
    ∃ outer, f.error = { fault := .unterminated r, enclosing := modes outer } ∧
      Nested (r :: outer) ∧ (r :: outer).getLast? = opened.getLast? ∧
      f.stop = place.pos.after place.rest := by
  induction h with
  | ended q outer p =>
      obtain rfl := Fault.unterminated.inj hf
      exact ⟨outer, rfl, hn, rfl, rfl⟩
  | fault hstep =>
      obtain ⟨-, -, code, -, rfl⟩ := step_error hstep
      cases hf
  | refused hstep hmove =>
      obtain ⟨inner, -, -, rfl⟩ := apply_error hmove
      cases hf
  | @step q outer opened p c s st f hstep hmove h ih =>
      obtain ⟨outer', herror, hnested, hlast, hstop⟩ := ih (nested_of_apply hn hstep hmove) hf
      obtain ⟨piece, hpiece, hpos⟩ := st.after_reaches p c s
      simp only at hpiece hpos
      refine ⟨outer', herror, hnested, hlast.trans (getLast?_of_apply hmove h.ne_nil), ?_⟩
      rw [hstop, hpos, hpiece, Position.after_append]

/-- Where the text ends in open regions, reading names them, and it goes on inside them if a line
feed follows. -/
theorem Fails.resume (h : Fails limit opened place f) (hf : f.error.fault = .unterminated r) :
    ∃ outer, f.error = { fault := .unterminated r, enclosing := modes outer } ∧
      (r :: outer).getLast? = opened.getLast? ∧
      ∀ t, ∃ text, Leads limit opened ⟨place.pos, place.rest ++ '\n' :: t⟩ text (r :: outer)
        ⟨place.pos.after (place.rest ++ ['\n']), t⟩ := by
  induction h with
  | ended q outer p =>
      obtain rfl := Fault.unterminated.inj hf
      exact ⟨outer, rfl, rfl, fun t => ⟨_, leads_of_lineBreak (.inl rfl) limit q outer p t⟩⟩
  | fault hstep =>
      obtain ⟨-, -, code, -, rfl⟩ := step_error hstep
      cases hf
  | refused hstep hmove =>
      obtain ⟨inner, -, -, rfl⟩ := apply_error hmove
      cases hf
  | @step q outer opened p c s st f hstep hmove h ih =>
      by_cases hback : q.kind = .string ∧ c = '\\' ∧ (s = [] ∨ s = ['\r'])
      · -- the line feed is escaped, so the backslash is read in another way
        obtain ⟨hq, rfl, hs⟩ := hback
        rw [step_of_last_backslash hq p hs] at hstep
        cases hstep
        cases hmove
        have herror := h.error_of_rest hs
        rw [herror] at hf
        obtain rfl := Fault.unterminated.inj hf
        have heol : IsLineBreak (s ++ ['\n']) := by
          rcases hs with rfl | rfl
          · exact .inl rfl
          · exact .inr rfl
        refine ⟨outer, herror, rfl, fun t => ⟨[], ?_⟩⟩
        have hleads := leads_of_escaped_lineBreak heol hq limit outer p t
        rw [List.append_assoc] at hleads
        exact hleads
      · obtain ⟨outer', herror, hlast, hresume⟩ := ih hf
        obtain ⟨hmore, -⟩ := step_cases hstep
        refine ⟨outer', herror, hlast.trans (getLast?_of_apply hmove h.ne_nil), fun t => ?_⟩
        have hstep' := (step_append_line (fun hq hc => by grind) p t).trans hstep
        have hfirst : Leads limit (q :: outer) ⟨p, c :: (s ++ '\n' :: t)⟩ st.text opened _ :=
          leads_of_step hstep' hmove
        rw [Step.after_append hmore] at hfirst
        obtain ⟨text, hlater⟩ := hresume t
        obtain ⟨piece, hpiece, hpos⟩ := st.after_reaches p c s
        have hplace : (st.after p c s).pos.after ((st.after p c s).rest ++ ['\n']) =
            p.after (c :: s ++ ['\n']) := by
          simp only at hpiece hpos
          rw [hpos, hpiece, ← Position.after_append, List.append_assoc]
        rw [hplace] at hlater
        exact ⟨_, hfirst.trans hlater⟩

theorem leads_of_closers (limit : Nat) (inner outer : List Region) (p : Position) (s : List Char) :
    ∃ text, Leads limit (inner ++ outer) ⟨p, closers inner ++ s⟩ text outer
      ⟨p.after (closers inner), s⟩ := by
  induction inner generalizing p with
  | nil => exact ⟨[], .refl limit outer ⟨p, s⟩⟩
  | cons r inner ih =>
      have hfirst := leads_of_closer limit r (inner ++ outer) p (closers inner ++ s)
      obtain ⟨text, hlater⟩ := ih (p.after r.kind.closer)
      have hclosers : closers (r :: inner) = r.kind.closer ++ closers inner := List.flatMap_cons
      refine ⟨r.kind.closing ++ text, ?_⟩
      rw [hclosers, List.append_assoc, Position.after_append]
      exact hfirst.trans hlater

end LexDef.Region

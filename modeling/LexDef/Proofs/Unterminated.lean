import LexDef.Proofs.Region.Unterminated
import LexDef.Proofs.Scanner.Chain
/-!
# What an error about an unterminated region names

The error names exactly the regions that are open where the text ends, from the innermost to the
outermost: their closing delimiters on a new line close them one by one, and nothing else is needed
for the text to be read to its end.
-/

namespace LexDef

/-- The lexemes of a region around which no other one is open, if it ends at `stop`. -/
def Region.ClosedAt (o : Region) (stop : Position) (xs : List Lexeme) : Prop :=
  match o.kind with
  | .comment => xs = []
  | .string => ∃ text, xs = [{ token := .string text, start := o.start, stop }]
  | .code => ∃ text, xs = [{ token := .code text, start := o.start, stop }]
  | .codeString => False

theorem Region.ClosedAt.ne_end {o : Region} {stop : Position} {xs : List Lexeme}
    (h : o.ClosedAt stop xs) : ∀ x ∈ xs, x.token ≠ .endOfText := by
  unfold ClosedAt at h
  split at h
  · simp [h]
  · obtain ⟨text, rfl⟩ := h
    simp
  · obtain ⟨text, rfl⟩ := h
    simp
  · exact h.elim

namespace Scanner

open Region (Leads closers modes)

variable {scanner : Scanner} {place gap after : Place} {p : Position} {s : List Char}
  {f : Failure} {r : Region}

/-- A gap whose comments the text ends in goes on inside these comments. -/
theorem skipGap_resume (h : scanner.skipGap p s = .error f)
    (hf : f.error.fault = .unterminated r) :
    ∃ outer o, f.error = { fault := .unterminated r, enclosing := modes outer } ∧
      (r :: outer).getLast? = some o ∧ o.kind = .comment ∧
      ∀ t, scanner.skipGap p (s ++ '\n' :: t) =
        match Region.read scanner.maxNesting (r :: outer) (p.after (s ++ ['\n'])) t with
        | .error g => .error g
        | .ok (_, after) => scanner.skipGap after.pos after.rest := by
  fun_induction skipGap scanner p s with
  | case1 p s ih | case2 p s ih | case3 p s ih =>
      obtain ⟨outer, o, herror, hlast, hkind, hresume⟩ := ih h
      refine ⟨outer, o, herror, hlast, hkind, fun t => ?_⟩
      rw [List.cons_append, skipGap_cons _ _ _ (by simp)]
      exact hresume t
  | case4 p s ih =>
      obtain ⟨outer, o, herror, hlast, hkind, hresume⟩ := ih h
      refine ⟨outer, o, herror, hlast, hkind, fun t => ?_⟩
      rw [List.cons_append, List.cons_append, skipGap_crlf]
      exact hresume t
  | case5 p s g hread =>
      cases h
      obtain ⟨outer, herror, hlast, hresume⟩ := (Region.read_eq_error_iff.1 hread).resume hf
      refine ⟨outer, ⟨.comment, p⟩, herror, hlast, rfl, fun t => ?_⟩
      obtain ⟨text, hleads⟩ := hresume t
      simp only [List.cons_append]
      cases hlater : Region.read scanner.maxNesting (r :: outer)
          (p.after ('(' :: '*' :: (s ++ ['\n']))) t with
      | error g => exact skipGap_comment_error (hleads.read_error hlater)
      | ok result => exact skipGap_comment (hleads.read_ok hlater)
  | case6 p s text mid hread ih =>
      obtain ⟨outer, o, herror, hlast, hkind, hresume⟩ := ih h
      refine ⟨outer, o, herror, hlast, hkind, fun t => ?_⟩
      obtain ⟨comment, rfl, hpos⟩ := Region.reaches_of_read hread
      have hread' := Region.read_append hread rfl p (p.after ['(', '*']) (mid.rest ++ '\n' :: t)
      rw [← hpos] at hread'
      have hplace : p.after ('(' :: '*' :: (comment ++ (mid.rest ++ ['\n']))) =
          mid.pos.after (mid.rest ++ ['\n']) := by
        rw [hpos]
        simp
      simp only [List.cons_append, List.append_assoc] at hread' ⊢
      rw [skipGap_comment hread', hplace]
      exact hresume t
  | case7 p s ih =>
      obtain ⟨outer, o, herror, hlast, hkind, hresume⟩ := ih h
      refine ⟨outer, o, herror, hlast, hkind, fun t => ?_⟩
      obtain ⟨hline, hhead⟩ := takeWhile_line s
      have hnext : ∀ c v, s.dropWhile (· ≠ '\n') ++ '\n' :: t = c :: v → c = '\n' := by
        intro c v hv
        cases hdrop : s.dropWhile (· ≠ '\n') with
        | nil =>
            rw [hdrop] at hv
            exact (List.cons.inj hv).1.symm
        | cons d u =>
            rw [hdrop] at hv
            rw [← (List.cons.inj hv).1]
            exact hhead d u hdrop
      have hskip := skipGap_line_append scanner p hline hnext
      rw [← List.append_assoc, List.takeWhile_append_dropWhile, hresume t, ← Position.after_append,
        List.cons_append, List.cons_append, ← List.append_assoc,
        List.takeWhile_append_dropWhile] at hskip
      exact hskip
  | case8 => cases h

/-- Action code or a string that the text ends in goes on inside it. -/
theorem token_resume (h : scanner.token p s = .error f) (hset : scanner.unclosedCode = .refused)
    (hf : f.error.fault = .unterminated r) :
    ∃ outer o, f.error = { fault := .unterminated r, enclosing := modes outer } ∧
      (r :: outer).getLast? = some o ∧ (∀ t, startsGap (s ++ t) = false) ∧
      ∀ t,
        match Region.read scanner.maxNesting (r :: outer) (p.after (s ++ ['\n'])) t with
        | .error g => scanner.token p (s ++ '\n' :: t) = .error g
        | .ok (_, after) => ∃ token, o.ClosedAt after.pos [{ token, start := p, stop := after.pos }] ∧
            scanner.token p (s ++ '\n' :: t) = .ok (token, after) := by
  cases rejects_of_token h with
  | unknown => cases hf
  | character hform ht =>
      obtain ⟨code, -, rfl⟩ | ⟨code, -, rfl⟩ | rfl :=
        CharForm.token_error (CharForm.wellFormed_of_ofText? hform) ht
      all_goals cases hf
  | @string s f hread =>
      obtain ⟨outer, herror, hlast, hresume⟩ := (Region.read_eq_error_iff.1 hread).resume hf
      refine ⟨outer, ⟨.string, p⟩, herror, hlast, fun _ => rfl, fun t => ?_⟩
      obtain ⟨text, hleads⟩ := hresume t
      cases hlater : Region.read scanner.maxNesting (r :: outer)
          (p.after ('"' :: s ++ ['\n'])) t with
      | error g => exact stringToken_of_error (hleads.read_error hlater)
      | ok result => exact ⟨_, ⟨_, rfl⟩, stringToken_of_read (hleads.read_ok hlater)⟩
  | @code s f hread =>
      obtain ⟨outer, herror, hlast, hresume⟩ := (Region.read_eq_error_iff.1 hread).resume hf
      refine ⟨outer, ⟨.code, p⟩, herror, hlast, fun _ => rfl, fun t => ?_⟩
      obtain ⟨text, hleads⟩ := hresume t
      cases hlater : Region.read scanner.maxNesting (r :: outer)
          (p.after ('{' :: s ++ ['\n'])) t with
      | error g => exact codeToken_of_refused (hleads.read_error hlater) hset
      | ok result => exact ⟨_, ⟨_, rfl⟩, codeToken_of_read (hleads.read_ok hlater)⟩

/-- Where a lexeme could not be read because the text ends in open regions, reading goes on inside
these regions if the text goes on with a line feed. -/
theorem next_resume (h : scanner.next place = .error f) (hset : scanner.unclosedCode = .refused)
    (hf : f.error.fault = .unterminated r) :
    ∃ outer o, f.error = { fault := .unterminated r, enclosing := modes outer } ∧
      (r :: outer).getLast? = some o ∧
      ∀ t,
        match Region.read scanner.maxNesting (r :: outer)
          (place.pos.after (place.rest ++ ['\n'])) t with
        | .error g => scanner.next ⟨place.pos, place.rest ++ '\n' :: t⟩ = .error g
        | .ok (_, after) => ∃ closed mid, o.ClosedAt after.pos closed ∧
            Chain scanner ⟨place.pos, place.rest ++ '\n' :: t⟩ closed mid ∧
            scanner.skipGap mid.pos mid.rest = scanner.skipGap after.pos after.rest := by
  rcases cases_of_next_error h with hgap | ⟨gap, hgap, htoken⟩
  · obtain ⟨outer, o, herror, hlast, hkind, hresume⟩ := skipGap_resume hgap hf
    refine ⟨outer, o, herror, hlast, fun t => ?_⟩
    specialize hresume t
    split at hresume
    · exact next_of_gap_error hresume
    · refine ⟨[], _, ?_, .nil _, hresume⟩
      rw [Region.ClosedAt, hkind]
  · obtain ⟨outer, o, herror, hlast, hstuck, hresume⟩ := token_resume htoken hset hf
    refine ⟨outer, o, herror, hlast, fun t => ?_⟩
    specialize hresume t
    obtain ⟨u, hu, hpos⟩ := reaches_of_skipGap hgap
    have hskip : scanner.skipGap place.pos (place.rest ++ '\n' :: t) =
        .ok ⟨gap.pos, gap.rest ++ '\n' :: t⟩ := by
      rw [hu, List.append_assoc, skipGap_append hgap hu (follows_append_line gap.rest t), ← hpos]
      exact skipGap_of_not_startsGap scanner gap.pos (hstuck _)
    have hplace : gap.pos.after (gap.rest ++ ['\n']) = place.pos.after (place.rest ++ ['\n']) := by
      rw [hu, hpos, List.append_assoc, ← Position.after_append]
    rw [hplace] at hresume
    split at hresume
    · exact next_of_token_error hskip hresume
    · obtain ⟨token, hclosed, htoken⟩ := hresume
      have hne : token ≠ .endOfText := hclosed.ne_end _ List.mem_cons_self
      have hnext : scanner.next ⟨place.pos, place.rest ++ '\n' :: t⟩ = .ok (⟨token, _, _⟩, _) :=
        next_of_token hskip htoken
      exact ⟨_, _, hclosed, .cons hnext hne (.nil _), rfl⟩

/-- An error about an unterminated region names the regions that are open where the text ends: on a
new line their closing delimiters close one after the other, and the text is complete with the last
of them. -/
theorem lexemes_unterminated {scanner : Scanner} {text : String} {e : Error} {r : Region}
    (hset : scanner.unclosedCode = .refused) (h : scanner.lexemes text = .error e)
    (hfault : e.fault = .unterminated r) :
    ∃ outer, e = { fault := .unterminated r, enclosing := modes outer } ∧
      (∀ (j : Nat) (hj : j < (r :: outer).length),
        scanner.lexemes (text ++ "\n" ++ String.ofList (closers ((r :: outer).take j))) =
          .error { fault := .unterminated (r :: outer)[j]
                   enclosing := modes ((r :: outer).drop (j + 1)) }) ∧
      ∃ closed stop, ((r :: outer).getLast (List.cons_ne_nil r outer)).ClosedAt stop closed ∧
        stop = ({} : Position).after (text.toList ++ '\n' :: closers (r :: outer)) ∧
        scanner.lexemes (text ++ "\n" ++ String.ofList (closers (r :: outer))) =
          .ok ((scanner.run text).lexemes ++ closed ++ [.endAt stop]) := by
  obtain ⟨place, hchain, hfinal, -⟩ := exists_chain_run scanner text
  obtain ⟨f, hf, rfl⟩ := exists_of_lexemes_error h
  rw [hf] at hfinal
  obtain ⟨outer, o, herror, hlast, hresume⟩ := next_resume hfinal.symm hset hfault
  obtain ⟨u, hu, hpos⟩ := hchain.reaches
  change text.toList = u ++ place.rest at hu
  have hplace : place.pos.after (place.rest ++ ['\n']) =
      ({} : Position).after (text.toList ++ ['\n']) := by
    rw [hu, hpos, List.append_assoc, ← Position.after_append]
    rfl
  have hextend (t : List Char) : text ++ "\n" ++ String.ofList t =
      String.ofList (u ++ (place.rest ++ '\n' :: t)) := by
    rw [← List.append_assoc, ← hu, ← String.toList_inj]
    simp
  have hchain' (t : List Char) := hchain.append hu (follows_append_line place.rest t)
  refine ⟨outer, herror, ?_, ?_⟩
  · intro j hj
    obtain ⟨text', hleads⟩ := Region.leads_of_closers scanner.maxNesting ((r :: outer).take j)
      ((r :: outer).drop j) (place.pos.after (place.rest ++ ['\n'])) []
    rw [List.take_append_drop, List.append_nil, List.drop_eq_getElem_cons hj] at hleads
    have hread := hleads.read_error (Region.read_end _ _ _ _)
    have hnext := hresume (closers ((r :: outer).take j))
    simp only [hread] at hnext
    rw [hextend]
    exact (hchain' _).lexemes_error hnext
  · obtain ⟨text', hleads⟩ := Region.leads_of_closers scanner.maxNesting (r :: outer) []
      (place.pos.after (place.rest ++ ['\n'])) []
    rw [List.append_nil, List.append_nil] at hleads
    have hread := hleads.read_ok (Region.read_nil _ _ _)
    have hnext := hresume (closers (r :: outer))
    simp only [hread] at hnext
    obtain ⟨closed, mid, hclosed, htail, hgap⟩ := hnext
    have hend := hgap.trans (skipGap_of_not_startsGap scanner _ rfl)
    rw [List.getLast?_eq_some_getLast (List.cons_ne_nil r outer), Option.some.injEq] at hlast
    rw [hextend, hlast]
    refine ⟨closed, _, hclosed, ?_, ((hchain' _).trans htail).lexemes_eq hend⟩
    rw [hplace, ← Position.after_append, List.append_assoc]
    rfl

theorem lexemes_unterminated_code_string :
    let scanner : Scanner := { maxNesting_pos := by decide }
    let text := "a (* é *) \x7b\"\\"
    let quote : Region := ⟨.codeString, ⟨1, 12, 12⟩⟩
    let brace : Region := ⟨.code, ⟨1, 11, 11⟩⟩
    let e : Error := { fault := .unterminated quote, enclosing := modes [brace] }
    scanner.unclosedCode = .refused ∧ scanner.lexemes text = .error e ∧
    e.fault = .unterminated quote ∧
    ∃ outer, e = { fault := .unterminated quote, enclosing := modes outer } ∧
      (∀ (j : Nat) (hj : j < (quote :: outer).length),
        scanner.lexemes (text ++ "\n" ++ String.ofList (closers ((quote :: outer).take j))) =
          .error { fault := .unterminated (quote :: outer)[j]
                   enclosing := modes ((quote :: outer).drop (j + 1)) }) ∧
      ∃ closed stop, ((quote :: outer).getLast (List.cons_ne_nil quote outer)).ClosedAt stop closed ∧
        stop = ({} : Position).after (text.toList ++ '\n' :: closers (quote :: outer)) ∧
        scanner.lexemes (text ++ "\n" ++ String.ofList (closers (quote :: outer))) =
          .ok ((scanner.run text).lexemes ++ closed ++ [.endAt stop]) := by
  intro scanner text quote brace e
  have h : scanner.lexemes text = .error e := by decide +kernel
  exact ⟨rfl, h, rfl, lexemes_unterminated rfl h rfl⟩

end Scanner

end LexDef

import LexDef.Proofs.Layout.Basic
import LexDef.Proofs.Region.Locality
/-!
# Regions in another layout

Inside open regions a text is read in every layout in the same steps, except that a line break is
one step or two: `read_layout`.
-/

namespace LexDef.Layout

open Region

variable {layout : Layout} {limit : Nat} {r : Region} {outer opened : List Region} {p : Position}
  {c : Char} {s text : List Char} {st : Step} {e : Error} {place : Place}

/-- Behind a backslash in a string a layout changes nothing, unless a line break follows. -/
theorem escapeStep_text (h : layout.lineBreak = ['\n'] ∨ '\r' ∉ s) (hs : ∀ u, s ≠ '\n' :: u) :
    escapeStep (layout.text s) = escapeStep s := by
  rcases h with h | h
  · rw [text_of_lineFeed h]
  · cases s with
    | nil => rfl
    | cons a s =>
        have hlf : a ≠ '\n' := fun ha => hs s (ha ▸ rfl)
        have hcr : a ≠ '\r' := fun ha => h (ha ▸ List.mem_cons_self)
        have hline := layout.sameLine_text (a :: s)
        rw [text_cons layout s hlf] at hline ⊢
        exact escapeStep_of_same_line hline hlf hcr

theorem step_text (h : layout.lineBreak = ['\n'] ∨ '\r' ∉ s)
    (hback : r.kind = .string → c = '\\' → ∀ u, s ≠ '\n' :: u) :
    r.step p c (layout.text s) = r.step p c s := by
  have hquote := layout.sameLine_text ('\'' :: s)
  rw [text_cons layout s (by decide)] at hquote
  exact step_of_same_line (layout.sameLine_text s) hquote fun hk hc =>
    escapeStep_text h (hback hk hc)

theorem step_mapPos (f : Position → Position) (r : Region) (p : Position) (c : Char)
    (s : List Char) :
    (r.mapPos f).step (f p) c s =
      match r.step p c s with
      | .ok st => .ok (st.moved (f p))
      | .error e => .error (e.mapPos f) := by
  cases h : r.step p c s with
  | ok st => exact step_moved rfl (f p) h
  | error e =>
      obtain ⟨hk, rfl, code, -, rfl⟩ := step_error h
      have hk' : (r.mapPos f).kind = .string := hk
      unfold step at h ⊢
      rw [hk] at h
      rw [hk']
      cases hstring : stringStep '\\' s with
      | ok st =>
          rw [hstring] at h
          cases h
      | error fault =>
          rw [hstring] at h
          cases h
          rfl

theorem apply_mapPos (limit : Nat) (outer : List Region) (f : Position → Position)
    (hstep : r.step p c s = .ok st) :
    (st.moved (f p)).move.apply limit (r.mapPos f) (outer.map (Region.mapPos f)) =
      match st.move.apply limit r outer with
      | .ok opened => .ok (opened.map (Region.mapPos f))
      | .error e => .error (e.mapPos f) := by
  cases hm : st.move with
  | stay => simp [Step.moved, hm, Move.moved, Move.apply]
  | closes => simp [Step.moved, hm, Move.moved, Move.apply]
  | opens inner =>
      obtain ⟨rfl, -, -⟩ := step_opens hstep hm
      simp only [Step.moved, hm, Move.moved, Move.apply, List.length_cons, List.length_map]
      split
      · rfl
      · have hmodes := modes_mapPos f (r :: outer)
        rw [List.map_cons] at hmodes
        simp only [hmodes]
        rfl

theorem step_of_backslash_line (hk : r.kind ≠ .string) (p : Position) (s : List Char) :
    r.step p '\\' ('\n' :: s) = .ok { text := r.kind.plain ['\\'] } := by
  unfold step
  cases hr : r.kind with
  | string => exact absurd hr hk
  | code | codeString | comment => rfl

/-- What a step takes is the same in every layout, unless it is a line break or escapes one. -/
theorem text_taken (h : layout.lineBreak = ['\n'] ∨ '\r' ∉ c :: s) (hstep : r.step p c s = .ok st)
    (hc : c ≠ '\n') (hback : r.kind = .string → c = '\\' → ∀ u, s ≠ '\n' :: u) :
    layout.text (c :: s.take st.more) = c :: s.take st.more := by
  rcases h with h | h
  · exact text_of_lineFeed h _
  · have hcr : '\r' ∉ c :: s.take st.more := fun hmem =>
      h (List.cons_subset_cons c (s.take_subset st.more) hmem)
    rcases step_piece hstep with hpiece | hpiece
    · exact text_of_not_mem layout hpiece
    · simp only [lineBreaks, List.mem_cons, List.not_mem_nil, or_false] at hpiece
      rcases hpiece with hpiece | hpiece | hpiece | hpiece
      · exact absurd (List.cons.inj hpiece).1 hc
      · simp [hpiece] at hcr
      · -- only strings escape line breaks
        obtain ⟨rfl, htake⟩ := List.cons.inj hpiece
        obtain ⟨u, rfl⟩ : ∃ u, s = '\n' :: u :=
          ⟨s.drop st.more, by rw [← List.singleton_append, ← htake, List.take_append_drop]⟩
        have hk : r.kind ≠ .string := fun hk => hback hk rfl u rfl
        rw [step_of_backslash_line hk] at hstep
        cases hstep
        cases htake
      · simp [hpiece] at hcr

theorem place_after_step (h : layout.Fits ⟨p, c :: s⟩) (st : Step) :
    layout.place (st.after p c s) =
      ⟨(layout.pos p).after (layout.text (c :: s.take st.more)), layout.text (s.drop st.more)⟩ :=
  layout.place_after h.line (c :: s.take st.more) (s.drop st.more)

/-- A step in another layout is the same and leads to the same place, unless it takes a line break. -/
theorem step_layout (h : layout.Fits ⟨p, c :: s⟩) (hstep : r.step p c s = .ok st) (hc : c ≠ '\n')
    (hback : r.kind = .string → c = '\\' → ∀ u, s ≠ '\n' :: u) :
    (r.mapPos layout.pos).step (layout.pos p) c (layout.text s) = .ok (st.moved (layout.pos p)) ∧
      (st.moved (layout.pos p)).after (layout.pos p) c (layout.text s) =
        layout.place (st.after p c s) := by
  have hplain := (h.reaches (Place.reaches_cons p c s)).plain
  have htaken := text_taken h.plain hstep hc hback
  have hsplit : layout.text s = s.take st.more ++ layout.text (s.drop st.more) := by
    rw [text_cons layout _ hc] at htaken
    rw [← (List.cons.inj htaken).2, ← text_append, List.take_append_drop]
  have hlen : (st.moved (layout.pos p)).more = (s.take st.more).length := by
    rw [List.length_take]
    exact (Nat.min_eq_left (step_cases hstep).1).symm
  constructor
  · rw [step_mapPos, step_text hplain hback, hstep]
  · rw [place_after_step h, htaken, Step.after, hsplit, hlen, List.take_left, List.drop_left]
    rfl

/-- A step in one layout is one step or, at a line break, two in another. -/
theorem exists_leads (h : layout.Fits ⟨p, c :: s⟩) (hstep : r.step p c s = .ok st)
    (hmove : st.move.apply limit r outer = .ok opened) :
    ∃ text, layout.bare text = layout.bare st.text ∧
      Leads limit (layout.regions (r :: outer)) (layout.place ⟨p, c :: s⟩) text
        (layout.regions opened) (layout.place (st.after p c s)) := by
  by_cases hc : c = '\n'
  · subst c
    rw [step_of_plain r p s (by decide)] at hstep
    cases hstep
    cases hmove
    refine ⟨r.kind.plain layout.lineBreak, ?_, ?_⟩
    · have hbare := layout.bare_lineBreak
      cases hk : r.kind <;> simp only [Kind.plain, hbare]
    · have hleads := leads_of_lineBreak layout.isLineBreak limit (r.mapPos layout.pos)
        (layout.regions outer) (layout.pos p) (layout.text s)
      have hafter := place_after_step h { text := r.kind.plain ['\n'] }
      simp only [List.take_zero, text_line, text_nil, List.append_nil, List.drop_zero] at hafter
      rw [hafter, place, text_line]
      exact hleads
  · by_cases hback : r.kind = .string ∧ c = '\\' ∧ ∃ u, s = '\n' :: u
    · obtain ⟨hk, rfl, u, rfl⟩ := hback
      have hescaped : r.step p '\\' ('\n' :: u) = .ok { more := 1 } :=
        step_of_escaped_lineBreak (.inl rfl) hk p u
      rw [hescaped] at hstep
      cases hstep
      cases hmove
      have hleads := leads_of_escaped_lineBreak layout.isLineBreak
        (r := r.mapPos layout.pos) hk limit (layout.regions outer) (layout.pos p) (layout.text u)
      refine ⟨[], rfl, ?_⟩
      have hafter := place_after_step h { more := 1 }
      simp only [List.take_succ_cons, List.take_zero, List.drop_succ_cons, List.drop_zero,
        text_cons layout _ hc, text_line, text_nil, List.append_nil] at hafter
      rw [hafter, place, text_cons layout _ hc, text_line]
      exact hleads
    · have hback' : r.kind = .string → c = '\\' → ∀ u, s ≠ '\n' :: u :=
        fun hk hc u hu => hback ⟨hk, hc, u, hu⟩
      obtain ⟨hstep', hafter⟩ := step_layout h hstep hc hback'
      have hmove' := apply_mapPos limit outer layout.pos hstep
      rw [hmove] at hmove'
      have hleads := leads_of_step hstep' hmove'
      rw [hafter, ← text_cons layout s hc] at hleads
      exact ⟨st.text, rfl, hleads⟩

/-- Reading in another layout comes to the same place, or fails in the same way. The text that it
adds is the same but for carriage returns that the layout adds. -/
theorem read_layout (limit : Nat) (opened : List Region) (h : layout.Fits ⟨p, s⟩) :
    layout.Carries (fun a b => layout.bare b.1 = layout.bare a.1 ∧ b.2 = layout.place a.2)
      (read limit opened p s)
      (read limit (layout.regions opened) (layout.pos p) (layout.text s)) := by
  fun_induction read limit opened p s with
  | case1 p s => exact ⟨_, read_nil _ _ _, rfl, rfl⟩
  | case2 p r outer =>
      have hend := read_end limit (r.mapPos layout.pos) (layout.regions outer) (layout.pos p)
      rw [regions, modes_mapPos] at hend
      exact hend
  | case3 p r outer c s e hstep =>
      obtain ⟨hk, rfl, -⟩ := step_error hstep
      have hback : ∀ u, s ≠ '\n' :: u := by
        rintro u rfl
        have hescaped : r.step p '\\' ('\n' :: u) = .ok { more := 1 } :=
          step_of_escaped_lineBreak (.inl rfl) hk p u
        rw [hescaped] at hstep
        cases hstep
      have hplain := (h.reaches (Place.reaches_cons p '\\' s)).plain
      have hstep' : (r.mapPos layout.pos).step (layout.pos p) '\\' (layout.text s) =
          .error (e.mapPos layout.pos) := by
        rw [step_mapPos, step_text hplain fun _ _ => hback, hstep]
      have hread : Region.read limit (layout.regions (r :: outer)) (layout.pos p)
          ('\\' :: layout.text s) = _ := read_of_step_error hstep'
      rw [regions, inside_mapPos, ← layout.pos_next_of_ne h.line (by decide)] at hread
      rw [text_cons layout s (by decide)]
      exact hread
  | case4 p r outer c s st hstep after e hmove =>
      obtain ⟨inner, hm, -, -⟩ := apply_error hmove
      obtain ⟨-, hhost, hopener⟩ := step_opens hstep hm
      have hc : c ≠ '\n' := by
        rintro rfl
        cases hk : inner.kind <;> rw [hk] at hopener <;> cases hopener
      have hk : r.kind ≠ .string := by
        rw [← hhost]
        cases inner.kind <;> decide
      obtain ⟨hstep', hafter⟩ := step_layout h hstep hc fun hk' => absurd hk' hk
      have hmove' := apply_mapPos limit outer layout.pos hstep
      rw [hmove] at hmove'
      have hread := read_of_apply_error hstep' hmove'
      rw [hafter] at hread
      rw [text_cons layout s hc]
      exact hread
  | case5 p r outer c s st hstep after opened hmove f hread ih
  | case6 p r outer c s st hstep after opened hmove text place hread ih =>
      obtain ⟨text', hbare, hleads⟩ := exists_leads h hstep hmove
      have hread' : Region.read limit (layout.regions (r :: outer)) (layout.pos p)
          (layout.text (c :: s)) =
            (Region.read limit (layout.regions opened) (layout.pos after)
              (layout.text (s.drop st.more))).map (Prod.map (text' ++ ·) id) := hleads
      have hlater := ih (h.reaches (st.after_reaches p c s))
      rw [hread] at hlater
      rw [hread']
      exact hlater.map (g := Prod.map (st.text ++ ·) id) fun a b _ hab => by simpa [hbare] using hab

end LexDef.Layout

import LexDef.Proofs.Scanner.Chain
/-!
# The evidence for an error

An error points into its text, and what stands there shows why the text was refused. The regions
that it names around that place are of one kind, and each starts with its delimiter before the next.
-/

namespace LexDef

def Shows (text : String) (p : Position) (piece : List Char) : Prop :=
  ∃ s, (Place.ofString text).Reaches ⟨p, piece ++ s⟩

namespace Fault

/-- What a text has to show at `p` for a fault. No text can show the faults of a decoder that is fed
with other characters than digits, nor those of settings. -/
def Evidence (text : String) (p : Position) : Fault → Prop
  | unexpected c _ => Shows text p [c]
  | unterminated r => Shows text p r.kind.opener
  | tooDeep _ _ => ∃ k : Region.Kind, Shows text p k.opener
  | surrogatePair _ | beyondUnicode _ => Shows text p ['\'']
  | codeTooLarge code => 255 < code ∧ ∃ d₁ d₂ d₃, Escape.Writes d₁ d₂ d₃ code ∧
      (Shows text p ['\\', d₁, d₂, d₃] ∨ Shows text p ['\'', '\\', d₁, d₂, d₃])
  | notADigit _ | notAHexDigit _ | digitCount _ _ | badSettings _ => False

def ArisesIn (host : Region.Kind) : Fault → Prop
  | unterminated r => r.kind.host = host
  | codeTooLarge _ => host = .comment
  | tooDeep _ _ => host = .comment ∨ host = .code
  | _ => False

end Fault

/-- Whether an error points to `p` and names the regions `outer` around it, and the text shows the
reason for it there and these regions around it. -/
structure Error.Evident (text : String) (e : Error) (p : Position) (outer : List Region) :
    Prop where
  position : e.position? = some p
  evidence : e.fault.Evidence text p
  enclosing : e.enclosing = Region.modes outer
  host : outer ≠ [] → ∃ k, (k = .comment ∨ k = .code) ∧ e.fault.ArisesIn k ∧ ∀ r ∈ outer, r.kind = k
  openers : ∀ r ∈ outer, Shows text r.start r.kind.opener
  descending : (p :: outer.map Region.start).Pairwise fun q q' => q'.offset < q.offset

theorem Error.Evident.alone {text : String} {e : Error} {p : Position}
    (hposition : e.position? = some p) (hevidence : e.fault.Evidence text p)
    (henclosing : e.enclosing = []) : e.Evident text p [] where
  position := hposition
  evidence := hevidence
  enclosing := henclosing
  host := fun h => absurd rfl h
  openers := by simp
  descending := by simp

namespace Scanner

variable {scanner : Scanner} {text : String} {a b : Reader} {f : Failure} {p : Position}
  {piece : List Char}

/-- What holds of a reader on its way through a text: the open regions are nested, and each starts
with its delimiter before the next one. -/
structure Reader.Tracks (a : Reader) (text : String) : Prop where
  reaches : (Place.ofString text).Reaches a.place
  nested : Region.Nested a.opened
  openers : ∀ r ∈ a.opened, Shows text r.start r.kind.opener
  descending : (a.place.pos :: a.opened.map Region.start).Pairwise fun q q' => q'.offset < q.offset

theorem Reader.Tracks.shows (h : a.Tracks text) (hpiece : piece <+: a.place.rest) :
    Shows text a.place.pos piece := by
  obtain ⟨s, hs⟩ := hpiece
  refine ⟨s, ?_⟩
  rw [hs]
  exact h.reaches

theorem tracks_start (text : String) : Reader.Tracks ⟨[], .ofString text⟩ text where
  reaches := .refl _
  nested := trivial
  openers := by simp
  descending := by simp

theorem Advance.tracks (h : Advance scanner a b) (ha : a.Tracks text) : b.Tracks text := by
  have hlt : a.place.pos.offset < b.place.pos.offset := by
    obtain ⟨piece, hne, -, -, hpos⟩ := h.exists_piece
    rw [hpos]
    exact Position.offset_lt_after _ hne
  obtain ⟨hhead, htail⟩ := List.pairwise_cons.1 ha.descending
  -- regions that stay open keep their evidence, a new one has it where the move starts
  rcases h.opened_cases with hsuffix | ⟨inner, hopened, hstart, hopener⟩
  · have hstarts := hsuffix.map Region.start
    refine ⟨ha.reaches.trans h.reaches, h.nested ha.nested,
      fun r hr => ha.openers r (hsuffix.mem hr), List.pairwise_cons.2 ⟨fun q hq => ?_, ?_⟩⟩
    · exact Nat.lt_trans (hhead q (hstarts.mem hq)) hlt
    · exact htail.sublist hstarts.sublist
  · refine ⟨ha.reaches.trans h.reaches, h.nested ha.nested, fun r hr => ?_,
      List.pairwise_cons.2 ⟨fun q hq => ?_, ?_⟩⟩
    · rw [hopened] at hr
      rcases List.mem_cons.1 hr with rfl | hr
      · rw [hstart]
        exact ha.shows hopener
      · exact ha.openers r hr
    · rw [hopened, List.map_cons, hstart] at hq
      rcases List.mem_cons.1 hq with rfl | hq
      · exact hlt
      · exact Nat.lt_trans (hhead q hq) hlt
    · rw [hopened, List.map_cons, hstart]
      exact ha.descending

theorem Advances.tracks (h : Advances scanner a b) (ha : a.Tracks text) : b.Tracks text := by
  induction h with
  | refl => exact ha
  | tail _ hmove ih => exact hmove.tracks ih

theorem evident_of_character {s rest : List Char} {form : CharForm} {fault : Fault}
    (hform : CharForm.ofText? ('\'' :: s) = some (form, rest)) (ht : form.token p = .error fault)
    (hplace : (Place.ofString text).Reaches ⟨p, '\'' :: s⟩) :
    Error.Evident text { fault, location := some p } p [] := by
  have hquote : Shows text p ['\''] := ⟨s, hplace⟩
  obtain ⟨hwf, hs⟩ := CharForm.ofText?_eq_some_iff.1 hform
  rcases CharForm.token_error hwf ht with
    ⟨code, ⟨hlarge, d₁, d₂, d₃, rfl, hwrites⟩, rfl⟩ | ⟨code, -, rfl⟩ | rfl
  · have hdigits : Shows text p ['\'', '\\', d₁, d₂, d₃] := ⟨'\'' :: rest, hs ▸ hplace⟩
    exact .alone rfl ⟨hlarge, d₁, d₂, d₃, hwrites, .inr hdigits⟩ rfl
  · exact .alone rfl hquote rfl
  · exact .alone rfl hquote rfl

theorem Halts.evident (h : Halts scanner a f) (ha : a.Tracks text) :
    ∃ p outer, f.error.Evident text p outer := by
  cases h with
  | @unknown p c s hgap hform hopen hc ht => exact ⟨p, [], .alone rfl ⟨s, ha.reaches⟩ rfl⟩
  | @character p s rest form fault hform ht =>
      exact ⟨p, [], evident_of_character hform ht ha.reaches⟩
  | @ended r outer p =>
      exact ⟨r.start, outer,
        { position := rfl
          evidence := ha.openers r List.mem_cons_self
          enclosing := rfl
          host := fun _ => ⟨r.kind.host, Region.host_cases r.kind, rfl, ha.nested⟩
          openers := fun o ho => ha.openers o (List.mem_cons_of_mem r ho)
          descending := (List.pairwise_cons.1 ha.descending).2 }⟩
  | @fault r outer p c s e hstep =>
      obtain ⟨hr, rfl, code, ⟨hlarge, d₁, d₂, d₃, u, rfl, hwrites⟩, rfl⟩ := Region.step_error hstep
      have hdigits : Shows text p ['\\', d₁, d₂, d₃] := ⟨u, ha.reaches⟩
      -- the literal itself is not named, only the comments around it
      have hcomments : ∀ o ∈ outer, o.kind = .comment := by
        intro o ho
        rw [ha.nested o ho, hr, Region.Kind.host]
      have hstarts := (List.sublist_cons_self r.start (outer.map Region.start)).cons_cons p
      exact ⟨p, outer,
        { position := rfl
          evidence := ⟨hlarge, d₁, d₂, d₃, hwrites, .inl hdigits⟩
          enclosing := rfl
          host := fun _ => ⟨.comment, .inl rfl, rfl, hcomments⟩
          openers := fun o ho => ha.openers o (List.mem_cons_of_mem r ho)
          descending := ha.descending.sublist hstarts }⟩
  | @refused r outer p c s st e hstep hmove =>
      obtain ⟨inner, hm, -, rfl⟩ := Region.apply_error hmove
      obtain ⟨rfl, hhost, hopener⟩ := Region.step_opens hstep hm
      have hinner : Shows text inner.start inner.kind.opener := by
        rw [← hopener]
        exact ha.shows (List.take_prefix (st.more + 1) (c :: s))
      have hkinds : ∀ o ∈ r :: outer, o.kind = inner.kind.host := by
        intro o ho
        rcases List.mem_cons.1 ho with rfl | ho
        · exact hhost.symm
        · rw [ha.nested o ho, ← hhost, Region.host_host]
      have hcases := Region.host_cases inner.kind
      exact ⟨inner.start, r :: outer,
        { position := rfl
          evidence := ⟨inner.kind, hinner⟩
          enclosing := rfl
          host := fun _ => ⟨inner.kind.host, hcases, hcases, hkinds⟩
          openers := ha.openers
          descending := ha.descending }⟩

/-- Every error points into its text, and is evident there. So the decoders are never fed with
anything but digits in the right number, and no error of settings arises. -/
theorem lexemes_error_evident {e : Error} (h : scanner.lexemes text = .error e) :
    ∃ p outer, e.Evident text p outer := by
  obtain ⟨a, f, hmoves, hhalts, rfl⟩ := exists_reader_of_lexemes_error h
  exact hhalts.evident (Advances.tracks hmoves (tracks_start text))

theorem lexemes_error_evident_in_comments :
    let scanner : Scanner := { maxNesting_pos := by decide }
    let text := "a (* (*\"\\256"
    let e : Error :=
      { fault := .codeTooLarge 256
        enclosing := Region.modes [⟨.comment, ⟨1, 6, 5⟩⟩, ⟨.comment, ⟨1, 3, 2⟩⟩]
        location := some ⟨1, 9, 8⟩ }
    scanner.lexemes text = .error e ∧ ∃ p outer, e.Evident text p outer := by
  intro scanner text e
  have h : scanner.lexemes text = .error e := by decide +kernel
  exact ⟨h, lexemes_error_evident h⟩

end Scanner

end LexDef

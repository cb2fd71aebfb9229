import LexDef.Lexeme
import LexDef.Proofs.Position
import LexDef.Proofs.Region.Continuation
/-!
# Layouts

A layout writes every line feed of a text as a line break of its own and moves the positions of the
text along. Moving a text to another place is a layout, and so is writing its line breaks with
carriage returns.
-/

namespace LexDef

/-! ## Moving positions -/

def Region.mapPos (f : Position → Position) (r : Region) : Region := { r with start := f r.start }

def Mode.mapPos (f : Position → Position) : Mode → Mode
  | token => token
  | region r => region (r.mapPos f)

def Fault.mapPos (f : Position → Position) : Fault → Fault
  | unexpected c p => unexpected c (f p)
  | surrogatePair p => surrogatePair (f p)
  | unterminated r => unterminated (r.mapPos f)
  | tooDeep depth p => tooDeep depth (f p)
  | notADigit c => notADigit c
  | notAHexDigit c => notAHexDigit c
  | digitCount expected actual => digitCount expected actual
  | codeTooLarge code => codeTooLarge code
  | beyondUnicode code => beyondUnicode code
  | badSettings reason => badSettings reason

def Error.mapPos (f : Position → Position) (e : Error) : Error where
  fault := e.fault.mapPos f
  enclosing := e.enclosing.map (Mode.mapPos f)
  location := e.location.map f

def Failure.mapPos (f : Position → Position) (e : Failure) : Failure :=
  { error := e.error.mapPos f, stop := f e.stop }

def Lexeme.mapPos (f : Position → Position) (x : Lexeme) : Lexeme :=
  { x with start := f x.start, stop := f x.stop }

theorem exists_of_mapPos_unterminated {f : Position → Position} {fault : Fault} {r : Region}
    (h : fault.mapPos f = .unterminated r) : ∃ q, fault = .unterminated ⟨r.kind, q⟩ := by
  cases fault with
  | unterminated q =>
      obtain rfl := Fault.unterminated.inj h
      exact ⟨q.start, rfl⟩
  | _ => cases h

theorem modes_mapPos (f : Position → Position) (opened : List Region) :
    Region.modes (opened.map (Region.mapPos f)) = (Region.modes opened).map (Mode.mapPos f) := by
  simp [Region.modes, Mode.mapPos, Function.comp_def]

theorem inside_mapPos (f : Position → Position) (e : Error) (opened : List Region) :
    (e.mapPos f).inside (Region.modes (opened.map (Region.mapPos f))) =
      (e.inside (Region.modes opened)).mapPos f := by
  rw [modes_mapPos]
  simp [Error.inside, Error.mapPos]

/-! ## Layouts of texts -/

/-- A way to write line feeds, and where it moves the positions of a text. -/
structure Layout where
  lineBreak : List Char
  pos : Position → Position
  isLineBreak : Region.IsLineBreak lineBreak
  pos_next : ∀ (p : Position) (c : Char), 1 ≤ p.line →
    pos (p.next c) = (pos p).after (if c = '\n' then lineBreak else [c])

namespace Layout

def text (layout : Layout) (s : List Char) : List Char :=
  s.flatMap fun c => if c = '\n' then layout.lineBreak else [c]

/-- What is left of a text without the carriage returns that the layout may add. -/
def bare (layout : Layout) (s : List Char) : List Char :=
  s.filter fun c => c ∉ layout.lineBreak.dropLast

def place (layout : Layout) (a : Place) : Place := ⟨layout.pos a.pos, layout.text a.rest⟩

def regions (layout : Layout) (opened : List Region) : List Region :=
  opened.map (Region.mapPos layout.pos)

/-- Whether the text at a place has no carriage return that a layout with carriage returns would
be confused by. Lines count from one. -/
structure Fits (layout : Layout) (a : Place) : Prop where
  line : 1 ≤ a.pos.line
  plain : layout.lineBreak = ['\n'] ∨ '\r' ∉ a.rest

variable {layout : Layout} {p : Position} {c : Char} {s t u : List Char} {a b : Place}

@[simp] theorem text_nil (layout : Layout) : layout.text [] = [] := rfl

@[simp] theorem text_append (layout : Layout) (s t : List Char) :
    layout.text (s ++ t) = layout.text s ++ layout.text t :=
  List.flatMap_append

theorem text_line (layout : Layout) (s : List Char) :
    layout.text ('\n' :: s) = layout.lineBreak ++ layout.text s :=
  List.flatMap_cons

theorem text_cons (layout : Layout) (s : List Char) (hc : c ≠ '\n') :
    layout.text (c :: s) = c :: layout.text s := by
  rw [text, List.flatMap_cons, if_neg hc]
  rfl

theorem text_of_not_mem (layout : Layout) (hs : '\n' ∉ s) : layout.text s = s := by
  induction s with
  | nil => rfl
  | cons c s ih =>
      obtain ⟨hc, hs⟩ := List.ne_and_not_mem_of_not_mem_cons hs
      rw [text_cons layout s hc.symm, ih hs]

theorem text_of_lineFeed (h : layout.lineBreak = ['\n']) (s : List Char) : layout.text s = s := by
  induction s with
  | nil => rfl
  | cons c s ih =>
      by_cases hc : c = '\n'
      · subst c
        rw [text_line, h, ih]
        rfl
      · rw [text_cons layout s hc, ih]

theorem sameLine_text (layout : Layout) (s : List Char) :
    SameLine layout.text s (layout.text s) := by
  intro t u hlf hcr
  constructor
  · intro h
    induction t generalizing s with
    | nil => exact ⟨s, rfl, h.symm⟩
    | cons d t ih =>
        obtain ⟨hd, htlf⟩ := List.ne_and_not_mem_of_not_mem_cons hlf
        obtain ⟨hd', htcr⟩ := List.ne_and_not_mem_of_not_mem_cons hcr
        cases s with
        | nil => cases h
        | cons c s =>
            by_cases hc : c = '\n'
            · subst c
              rw [text_line] at h
              rcases layout.isLineBreak with heol | heol <;> rw [heol] at h
              · exact absurd (List.cons.inj h).1 hd
              · exact absurd (List.cons.inj h).1 hd'
            · rw [text_cons layout s hc] at h
              obtain ⟨rfl, htail⟩ := List.cons.inj h
              obtain ⟨v, rfl, rfl⟩ := ih s htlf htcr htail
              exact ⟨v, rfl, rfl⟩
  · rintro ⟨v, rfl, rfl⟩
    rw [text_append, text_of_not_mem layout hlf]

@[simp] theorem bare_append (layout : Layout) (s t : List Char) :
    layout.bare (s ++ t) = layout.bare s ++ layout.bare t :=
  List.filter_append s t

theorem bare_of_lineFeed (h : layout.lineBreak = ['\n']) (s : List Char) : layout.bare s = s := by
  simp [bare, h]

theorem bare_lineBreak (layout : Layout) : layout.bare layout.lineBreak = layout.bare ['\n'] := by
  unfold bare
  rcases layout.isLineBreak with h | h
  · rw [h]
  · rw [h]
    rfl

/-! ## Positions -/

theorem pos_after (layout : Layout) (hp : 1 ≤ p.line) (s : List Char) :
    layout.pos (p.after s) = (layout.pos p).after (layout.text s) := by
  induction s generalizing p with
  | nil => rfl
  | cons c s ih =>
      have hnext : 1 ≤ (p.next c).line := by
        rw [show p.next c = p.after [c] from rfl, Position.after_line]
        omega
      have htext : layout.text (c :: s) =
          (if c = '\n' then layout.lineBreak else [c]) ++ layout.text s :=
        List.flatMap_cons
      rw [Position.after_cons, ih hnext, layout.pos_next p c hp, htext, Position.after_append]

theorem Fits.reaches (h : layout.Fits a) (hab : a.Reaches b) : layout.Fits b := by
  obtain ⟨piece, hrest, hpos⟩ := hab
  constructor
  · rw [hpos, Position.after_line]
    exact Nat.le_trans h.line (Nat.le_add_right _ _)
  · rcases h.plain with hplain | hplain
    · exact .inl hplain
    · refine .inr fun hmem => hplain ?_
      rw [hrest]
      exact List.mem_append_right piece hmem

theorem place_after (layout : Layout) (hp : 1 ≤ p.line) (s t : List Char) :
    layout.place ⟨p.after s, t⟩ = ⟨(layout.pos p).after (layout.text s), layout.text t⟩ := by
  rw [place, layout.pos_after hp]

theorem pos_next_line (layout : Layout) (hp : 1 ≤ p.line) :
    layout.pos (p.next '\n') = (layout.pos p).after layout.lineBreak := by
  rw [layout.pos_next p '\n' hp, if_pos rfl]

theorem pos_next_of_ne (layout : Layout) (hp : 1 ≤ p.line) (hc : c ≠ '\n') :
    layout.pos (p.next c) = (layout.pos p).next c := by
  rw [layout.pos_next p c hp, if_neg hc]
  rfl

/-! ## Outcomes -/

/-- Whether an outcome goes along with a layout: what is read is related, and a failure has its
positions moved. -/
def Carries {α β : Type} (layout : Layout) (R : α → β → Prop) (o : Except Failure α)
    (o' : Except Failure β) : Prop :=
  match o with
  | .ok x => ∃ y, o' = .ok y ∧ R x y
  | .error f => o' = .error (f.mapPos layout.pos)

theorem Carries.bind {α β α' β' : Type} {R : α → β → Prop} {R' : α' → β' → Prop}
    {o : Except Failure α} {o' : Except Failure β} {k : α → Except Failure α'}
    {k' : β → Except Failure β'} (h : layout.Carries R o o')
    (hk : ∀ x y, o = .ok x → R x y → layout.Carries R' (k x) (k' y)) :
    layout.Carries R' (o.bind k) (o'.bind k') := by
  cases o with
  | error f =>
      obtain rfl : o' = _ := h
      rfl
  | ok x =>
      obtain ⟨y, rfl, hxy⟩ := h
      exact hk x y rfl hxy

theorem Carries.map {α β α' β' : Type} {R : α → β → Prop} {R' : α' → β' → Prop}
    {o : Except Failure α} {o' : Except Failure β} {g : α → α'} {g' : β → β'}
    (h : layout.Carries R o o') (hg : ∀ x y, o = .ok x → R x y → R' (g x) (g' y)) :
    layout.Carries R' (o.map g) (o'.map g') := by
  cases o with
  | error f =>
      obtain rfl : o' = _ := h
      rfl
  | ok x =>
      obtain ⟨y, rfl, hxy⟩ := h
      exact ⟨g' y, rfl, hg x y rfl hxy⟩

end Layout

end LexDef

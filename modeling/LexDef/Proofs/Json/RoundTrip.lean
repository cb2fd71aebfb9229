import LexDef.Json.Lexeme
import LexDef.Json.Settings
import LexDef.Proofs.Json.Form
/-!
# Data survive their JSON forms

Each type of data has a form, and a value is read from exactly the spellings of what is written for
it. So what is written for a value that fits is read as that value again, every other way to spell a
value is read as the same one, and what breaks the form at any depth is refused:
`serial_lawful`.
-/

namespace LexDef

open Json (Form)

/-- What the JSON form of a type of data promises, if `form` is how its values are spelled and `Fits`
says which of them can be written. -/
structure Serial.Lawful (α : Type) [Serial α] (form : Form) (Fits : α → Prop) : Prop where
  read_written : ∀ x, Fits x → ofJson? (toJson x) = some x
  written_inj : ∀ x y : α, Fits x → Fits y → toJson x = toJson y → x = y
  /-- What is accepted is written in a way that is accepted again, as the same value. -/
  read_again : ∀ (j : Json) (x : α), ofJson? j = some x → Fits x ∧ ofJson? (toJson x) = some x
  /-- A value is read from the spellings of what is written for it, and from nothing else. -/
  read_iff : ∀ (j : Json) (x : α), ofJson? j = some x ↔ form.Spells (toJson x) j
  refused : ∀ j : Json, form.Breaks j → (ofJson? j : Option α) = none

theorem Serial.Lawful.of_read_iff {α : Type} [Serial α] {form : Form} {Fits : α → Prop}
    (read_iff : ∀ (j : Json) (x : α), ofJson? j = some x ↔ form.Spells (toJson x) j)
    (spells_self : ∀ x, Fits x → form.Spells (toJson x) (toJson x))
    (fits_of_spells : ∀ x j, form.Spells (toJson x) j → Fits x) : Serial.Lawful α form Fits where
  read_written := fun x hx => (read_iff _ x).2 (spells_self x hx)
  written_inj := by
    intro x y hx hy heq
    have hread := (read_iff _ x).2 (spells_self x hx)
    rw [heq, (read_iff _ y).2 (spells_self y hy)] at hread
    exact (Option.some.inj hread).symm
  read_again := by
    intro j x hx
    have fits := fits_of_spells x j ((read_iff j x).1 hx)
    exact ⟨fits, (read_iff _ x).2 (spells_self x fits)⟩
  read_iff
  refused := by
    intro j hj
    rw [Option.eq_none_iff_forall_ne_some]
    intro x hx
    exact hj.not_spells _ ((read_iff j x).1 hx)

/-! ## Positions -/

namespace Position

def form : Form :=
  .record [("line", .natural UInt64.size), ("column", .natural UInt64.size),
    ("offset", .natural UInt64.size)]

/-- Whether the numbers of a position take no more than 64 bits. -/
def Fits (p : Position) : Prop :=
  p.line < UInt64.size ∧ p.column < UInt64.size ∧ p.offset < UInt64.size

theorem spells_iff {p : Position} {j : Json} :
    form.Spells (toJson p) j ↔ ∃ line column offset,
      j.record? ["line", "column", "offset"] = some [line, column, offset] ∧
        line.size? = some p.line ∧ column.size? = some p.column ∧ offset.size? = some p.offset := by
  have hspells : form.Spells (toJson p) j ↔ _ :=
    Form.spells_record_iff [.int p.line, .int p.column, .int p.offset] (by decide) rfl
  rw [hspells]
  constructor
  · rintro ⟨values, hvalues, _ | ⟨hline, _ | ⟨hcolumn, _ | ⟨hoffset, _ | _⟩⟩⟩⟩
    exact ⟨_, _, _, hvalues, Form.spells_natural_iff.1 hline, Form.spells_natural_iff.1 hcolumn,
      Form.spells_natural_iff.1 hoffset⟩
  · rintro ⟨line, column, offset, hvalues, hline, hcolumn, hoffset⟩
    exact ⟨_, hvalues, .cons (Form.spells_natural_iff.2 hline)
      (.cons (Form.spells_natural_iff.2 hcolumn)
        (.cons (Form.spells_natural_iff.2 hoffset) .nil))⟩

theorem read_iff (j : Json) (p : Position) : ofJson? j = some p ↔ form.Spells (toJson p) j := by
  rw [spells_iff]
  constructor
  · intro h
    obtain ⟨values, hvalues, h⟩ := Option.bind_eq_some_iff.1 h
    split at h
    · obtain ⟨line, hline, h⟩ := Option.bind_eq_some_iff.1 h
      obtain ⟨column, hcolumn, h⟩ := Option.bind_eq_some_iff.1 h
      obtain ⟨offset, hoffset, h⟩ := Option.bind_eq_some_iff.1 h
      cases h
      exact ⟨_, _, _, hvalues, hline, hcolumn, hoffset⟩
    · cases h
  · rintro ⟨line, column, offset, hvalues, hline, hcolumn, hoffset⟩
    exact Option.bind_eq_some_iff.2 ⟨_, hvalues, Option.bind_eq_some_iff.2 ⟨_, hline,
      Option.bind_eq_some_iff.2 ⟨_, hcolumn, Option.bind_eq_some_iff.2 ⟨_, hoffset, rfl⟩⟩⟩⟩

theorem spells_self {p : Position} (h : p.Fits) : form.Spells (toJson p) (toJson p) :=
  spells_iff.2 ⟨_, _, _, rfl, if_pos h.1, if_pos h.2.1, if_pos h.2.2⟩

theorem fits_of_spells {p : Position} {j : Json} (h : form.Spells (toJson p) j) : p.Fits := by
  obtain ⟨line, column, offset, -, hline, hcolumn, hoffset⟩ := spells_iff.1 h
  exact ⟨Form.lt_of_natural? hline, Form.lt_of_natural? hcolumn, Form.lt_of_natural? hoffset⟩

end Position

/-! ## Tokens -/

namespace Token

def cases : List (String × Option Form) :=
  [("Rule", none), ("Parse", none), ("Eof", none), ("Let", none), ("And", none),
    ("Char", some (.natural UInt16.size)), ("String", some .string), ("Ident", some .string),
    ("UnicodeCategory", some .string), ("Code", some .string), ("Bar", none), ("Dot", none),
    ("Plus", none), ("Star", none), ("QMark", none), ("Equals", none), ("LBrack", none),
    ("RBrack", none), ("LParen", none), ("RParen", none), ("Underscore", none), ("Hat", none),
    ("Dash", none), ("EndOfInput", none)]

def form : Form := .variant cases

theorem ofVariant?_eq_some_iff {name : String} {payload : Option Json} {t : Token} :
    ofVariant? name payload = some t ↔ form.Spells (toJson t) (.variant name payload) := by
  constructor
  · intro h
    have hunit {u : Token} (hu : Json.unit? u payload = some t)
        (hwritten : toJson u = .str u.variantName) (hname : cases.lookup u.variantName = some none) :
        form.Spells (toJson t) (.variant u.variantName payload) := by
      obtain ⟨rfl, hpayload⟩ := Json.unit?_eq_some_iff.1 hu
      rw [hwritten]
      exact (Form.spells_unit_iff hname).2 ⟨rfl, hpayload⟩
    have htext {make : String → Token} {name : String}
        (hu : (do return make (← (← payload).string?)) = some t)
        (hwritten : ∀ text, toJson (make text) = .obj [(name, .str text)])
        (hname : cases.lookup name = some (some .string)) :
        form.Spells (toJson t) (.variant name payload) := by
      obtain ⟨j, hj, hu⟩ := Option.bind_eq_some_iff.1 hu
      obtain ⟨text, htext, hu⟩ := Option.bind_eq_some_iff.1 hu
      cases hu
      rw [hwritten]
      exact (Form.spells_payload_iff hname).2 ⟨rfl, j, hj, Form.spells_string_iff.2 htext⟩
    unfold ofVariant? at h
    split at h
    all_goals try exact hunit h rfl rfl
    all_goals try exact htext h (fun _ => rfl) rfl
    · obtain ⟨j, hj, h⟩ := Option.bind_eq_some_iff.1 h
      obtain ⟨n, hn, h⟩ := Option.bind_eq_some_iff.1 h
      cases h
      have hunit : n.toUInt16.toNat = n :=
        UInt16.toNat_ofNat_of_lt' (Form.lt_of_natural? hn)
      refine (Form.spells_payload_iff rfl).2 ⟨rfl, j, hj, ?_⟩
      rw [hunit]
      exact Form.spells_natural_iff.2 hn
    · cases h
  · intro h
    cases t with
    | char unit =>
        obtain ⟨rfl, j, rfl, hspells⟩ := (Form.spells_payload_iff rfl).1 h
        have hread : j.natural? UInt16.size = some unit.toNat := Form.spells_natural_iff.1 hspells
        simp [ofVariant?, variantName, hread]
    | string text | ident text | category text | code text =>
        obtain ⟨rfl, j, rfl, hspells⟩ := (Form.spells_payload_iff rfl).1 h
        have hread : j.string? = some text := Form.spells_string_iff.1 hspells
        simp [ofVariant?, variantName, hread]
    | _ =>
        obtain ⟨rfl, rfl | rfl⟩ := (Form.spells_unit_iff rfl).1 h <;> rfl

theorem read_iff (j : Json) (t : Token) : ofJson? j = some t ↔ form.Spells (toJson t) j := by
  constructor
  · intro h
    obtain ⟨⟨name, payload⟩, hvariant, h⟩ := Option.bind_eq_some_iff.1 h
    rw [Json.variant?_eq_some_iff.1 hvariant]
    exact ofVariant?_eq_some_iff.1 h
  · intro h
    obtain ⟨name, payload, rfl⟩ := h.exists_variant
    refine Option.bind_eq_some_iff.2 ⟨(name, payload), Json.variant?_eq_some_iff.2 rfl, ?_⟩
    exact ofVariant?_eq_some_iff.2 h

theorem spells_self (t : Token) : form.Spells (toJson t) (toJson t) := by
  cases t with
  | char unit => exact .payload rfl (.natural unit.toNat_lt)
  | string text | ident text | category text | code text => exact .payload rfl (.string text)
  | _ => exact .name rfl

end Token

/-! ## Lexemes -/

namespace Lexeme

def form : Form :=
  .record [("token", Token.form), ("start", Position.form), ("end", Position.form)]

def Fits (x : Lexeme) : Prop := x.start.Fits ∧ x.stop.Fits

theorem spells_iff {x : Lexeme} {j : Json} :
    form.Spells (toJson x) j ↔ ∃ token start stop,
      j.record? ["token", "start", "end"] = some [token, start, stop] ∧
        Token.form.Spells (toJson x.token) token ∧ Position.form.Spells (toJson x.start) start ∧
          Position.form.Spells (toJson x.stop) stop := by
  have hspells : form.Spells (toJson x) j ↔ _ :=
    Form.spells_record_iff [toJson x.token, toJson x.start, toJson x.stop] (by decide) rfl
  rw [hspells]
  constructor
  · rintro ⟨values, hvalues, _ | ⟨htoken, _ | ⟨hstart, _ | ⟨hstop, _ | _⟩⟩⟩⟩
    exact ⟨_, _, _, hvalues, htoken, hstart, hstop⟩
  · rintro ⟨token, start, stop, hvalues, htoken, hstart, hstop⟩
    exact ⟨_, hvalues, .cons htoken (.cons hstart (.cons hstop .nil))⟩

theorem read_iff (j : Json) (x : Lexeme) : ofJson? j = some x ↔ form.Spells (toJson x) j := by
  simp only [spells_iff, ← Token.read_iff, ← Position.read_iff]
  constructor
  · intro h
    obtain ⟨values, hvalues, h⟩ := Option.bind_eq_some_iff.1 h
    split at h
    · obtain ⟨token, htoken, h⟩ := Option.bind_eq_some_iff.1 h
      obtain ⟨start, hstart, h⟩ := Option.bind_eq_some_iff.1 h
      obtain ⟨stop, hstop, h⟩ := Option.bind_eq_some_iff.1 h
      cases h
      exact ⟨_, _, _, hvalues, htoken, hstart, hstop⟩
    · cases h
  · rintro ⟨token, start, stop, hvalues, htoken, hstart, hstop⟩
    exact Option.bind_eq_some_iff.2 ⟨_, hvalues, Option.bind_eq_some_iff.2 ⟨_, htoken,
      Option.bind_eq_some_iff.2 ⟨_, hstart, Option.bind_eq_some_iff.2 ⟨_, hstop, rfl⟩⟩⟩⟩

theorem spells_self {x : Lexeme} (h : x.Fits) : form.Spells (toJson x) (toJson x) :=
  spells_iff.2 ⟨_, _, _, rfl, Token.spells_self x.token, Position.spells_self h.1,
    Position.spells_self h.2⟩

theorem fits_of_spells {x : Lexeme} {j : Json} (h : form.Spells (toJson x) j) : x.Fits := by
  obtain ⟨token, start, stop, -, -, hstart, hstop⟩ := spells_iff.1 h
  exact ⟨Position.fits_of_spells hstart, Position.fits_of_spells hstop⟩

end Lexeme

/-! ## Modes -/

namespace Region.Kind

theorem ofVariantName?_eq_some_iff {name : String} {kind : Region.Kind} :
    ofVariantName? name = some kind ↔ name = kind.variantName := by
  constructor
  · intro h
    unfold ofVariantName? at h
    split at h <;> cases h <;> rfl
  · rintro rfl
    cases kind <;> rfl

end Region.Kind

namespace Mode

/-- The variants of modes. A region is known by its start. -/
def cases : List (String × Option Form) :=
  [("Token", none), ("StringLiteral", some Position.form), ("ActionCode", some Position.form),
    ("ActionCodeString", some Position.form), ("Comment", some Position.form)]

def form : Form := .variant cases

def Fits : Mode → Prop
  | token => True
  | region r => r.start.Fits

theorem lookup_variantName (kind : Region.Kind) :
    cases.lookup kind.variantName = some (some Position.form) := by
  cases kind <;> rfl

theorem spells_region_iff {r : Region} {name : String} {payload : Option Json} :
    form.Spells (toJson (region r)) (.variant name payload) ↔
      name = r.kind.variantName ∧ ∃ j, payload = some j ∧ ofJson? j = some r.start := by
  simp only [Position.read_iff]
  exact Form.spells_payload_iff (lookup_variantName r.kind)

theorem read_iff (j : Json) (m : Mode) : ofJson? j = some m ↔ form.Spells (toJson m) j := by
  constructor
  · intro h
    obtain ⟨⟨name, payload⟩, hvariant, h⟩ := Option.bind_eq_some_iff.1 h
    rw [Json.variant?_eq_some_iff.1 hvariant]
    dsimp only at h
    split at h
    · rename_i hname
      obtain ⟨rfl, hpayload⟩ := Json.unit?_eq_some_iff.1 h
      exact (Form.spells_unit_iff rfl).2 ⟨hname, hpayload⟩
    · obtain ⟨kind, hkind, h⟩ := Option.bind_eq_some_iff.1 h
      obtain ⟨value, hvalue, h⟩ := Option.bind_eq_some_iff.1 h
      obtain ⟨start, hstart, h⟩ := Option.bind_eq_some_iff.1 h
      cases h
      exact spells_region_iff.2
        ⟨Region.Kind.ofVariantName?_eq_some_iff.1 hkind, value, hvalue, hstart⟩
  · intro h
    obtain ⟨name, payload, rfl⟩ := h.exists_variant
    refine Option.bind_eq_some_iff.2 ⟨(name, payload), Json.variant?_eq_some_iff.2 rfl, ?_⟩
    cases m with
    | token =>
        obtain ⟨rfl, hpayload⟩ := (Form.spells_unit_iff rfl).1 h
        exact Json.unit?_eq_some_iff.2 ⟨rfl, hpayload⟩
    | region r =>
        obtain ⟨rfl, value, rfl, hstart⟩ := spells_region_iff.1 h
        have hname : r.kind.variantName ≠ "Token" := by
          cases r.kind <;> decide
        dsimp only
        rw [if_neg hname]
        refine Option.bind_eq_some_iff.2 ⟨r.kind, Region.Kind.ofVariantName?_eq_some_iff.2 rfl, ?_⟩
        exact Option.bind_eq_some_iff.2 ⟨value, rfl, Option.bind_eq_some_iff.2 ⟨_, hstart, rfl⟩⟩

theorem spells_self {m : Mode} (h : m.Fits) : form.Spells (toJson m) (toJson m) := by
  cases m with
  | token => exact .name rfl
  | region r => exact .payload (lookup_variantName r.kind) (Position.spells_self h)

theorem fits_of_spells {m : Mode} {j : Json} (h : form.Spells (toJson m) j) : m.Fits := by
  obtain ⟨name, payload, rfl⟩ := h.exists_variant
  cases m with
  | token => trivial
  | region r =>
      obtain ⟨-, value, -, hstart⟩ := spells_region_iff.1 h
      exact Position.fits_of_spells ((Position.read_iff value r.start).1 hstart)

end Mode

/-! ## Settings -/

namespace UnclosedCode

def form : Form := .variant [("Error", none), ("EndOfInput", none)]

theorem read_iff (j : Json) (u : UnclosedCode) : ofJson? j = some u ↔ form.Spells (toJson u) j := by
  constructor
  · intro h
    obtain ⟨⟨name, payload⟩, hvariant, h⟩ := Option.bind_eq_some_iff.1 h
    rw [Json.variant?_eq_some_iff.1 hvariant]
    split at h
    · rename_i heq
      obtain ⟨rfl, hpayload⟩ := Json.unit?_eq_some_iff.1 h
      cases heq
      exact (Form.spells_unit_iff rfl).2 ⟨rfl, hpayload⟩
    · rename_i heq
      obtain ⟨rfl, hpayload⟩ := Json.unit?_eq_some_iff.1 h
      cases heq
      exact (Form.spells_unit_iff rfl).2 ⟨rfl, hpayload⟩
    · cases h
  · intro h
    obtain ⟨name, payload, rfl⟩ := h.exists_variant
    refine Option.bind_eq_some_iff.2 ⟨(name, payload), Json.variant?_eq_some_iff.2 rfl, ?_⟩
    cases u with
    | refused | dropped =>
        obtain ⟨rfl, hpayload⟩ := (Form.spells_unit_iff rfl).1 h
        exact Json.unit?_eq_some_iff.2 ⟨rfl, hpayload⟩

theorem spells_self (u : UnclosedCode) : form.Spells (toJson u) (toJson u) := by
  cases u <;> exact .name rfl

end UnclosedCode

namespace Settings

def form : Form :=
  .record [("code_block_at_eof", UnclosedCode.form), ("max_nesting_depth", .natural UInt64.size)]

def Fits (settings : Settings) : Prop := settings.maxNesting < UInt64.size

theorem spells_iff {settings : Settings} {j : Json} :
    form.Spells (toJson settings) j ↔ ∃ unclosedCode maxNesting,
      j.record? ["code_block_at_eof", "max_nesting_depth"] = some [unclosedCode, maxNesting] ∧
        ofJson? unclosedCode = some settings.unclosedCode ∧
          maxNesting.size? = some settings.maxNesting := by
  have hspells : form.Spells (toJson settings) j ↔ _ :=
    Form.spells_record_iff [toJson settings.unclosedCode, .int settings.maxNesting] (by decide) rfl
  rw [hspells]
  constructor
  · rintro ⟨values, hvalues, _ | ⟨hcode, _ | ⟨hnesting, _ | _⟩⟩⟩
    exact ⟨_, _, hvalues, (UnclosedCode.read_iff _ _).2 hcode, Form.spells_natural_iff.1 hnesting⟩
  · rintro ⟨unclosedCode, maxNesting, hvalues, hcode, hnesting⟩
    exact ⟨_, hvalues, .cons ((UnclosedCode.read_iff _ _).1 hcode)
      (.cons (Form.spells_natural_iff.2 hnesting) .nil)⟩

theorem read_iff (j : Json) (settings : Settings) :
    ofJson? j = some settings ↔ form.Spells (toJson settings) j := by
  rw [spells_iff]
  constructor
  · intro h
    obtain ⟨values, hvalues, h⟩ := Option.bind_eq_some_iff.1 h
    split at h
    · obtain ⟨unclosedCode, hcode, h⟩ := Option.bind_eq_some_iff.1 h
      obtain ⟨maxNesting, hnesting, h⟩ := Option.bind_eq_some_iff.1 h
      cases h
      exact ⟨_, _, hvalues, hcode, hnesting⟩
    · cases h
  · rintro ⟨unclosedCode, maxNesting, hvalues, hcode, hnesting⟩
    exact Option.bind_eq_some_iff.2 ⟨_, hvalues, Option.bind_eq_some_iff.2 ⟨_, hcode,
      Option.bind_eq_some_iff.2 ⟨_, hnesting, rfl⟩⟩⟩

theorem spells_self {settings : Settings} (h : settings.Fits) :
    form.Spells (toJson settings) (toJson settings) :=
  spells_iff.2 ⟨_, _, rfl, (UnclosedCode.read_iff _ _).2 (UnclosedCode.spells_self _), if_pos h⟩

theorem fits_of_spells {settings : Settings} {j : Json} (h : form.Spells (toJson settings) j) :
    settings.Fits := by
  obtain ⟨unclosedCode, maxNesting, -, -, hnesting⟩ := spells_iff.1 h
  exact Form.lt_of_natural? hnesting

end Settings

/-- All data with a JSON form keep the promises of their form, as far as their numbers take no more
than 64 bits. -/
theorem serial_lawful :
    Serial.Lawful Token Token.form (fun _ => True) ∧
    Serial.Lawful Lexeme Lexeme.form Lexeme.Fits ∧
    Serial.Lawful Position Position.form Position.Fits ∧
    Serial.Lawful Mode Mode.form Mode.Fits ∧
    Serial.Lawful UnclosedCode UnclosedCode.form (fun _ => True) ∧
    Serial.Lawful Settings Settings.form Settings.Fits := by
  refine ⟨?_, ?_, ?_, ?_, ?_, ?_⟩
  · exact .of_read_iff Token.read_iff (fun t _ => Token.spells_self t) fun _ _ _ => trivial
  · exact .of_read_iff Lexeme.read_iff (fun _ => Lexeme.spells_self) fun _ _ => Lexeme.fits_of_spells
  · exact .of_read_iff Position.read_iff (fun _ => Position.spells_self)
      fun _ _ => Position.fits_of_spells
  · exact .of_read_iff Mode.read_iff (fun _ => Mode.spells_self) fun _ _ => Mode.fits_of_spells
  · exact .of_read_iff UnclosedCode.read_iff (fun u _ => UnclosedCode.spells_self u)
      fun _ _ _ => trivial
  · exact .of_read_iff Settings.read_iff (fun _ => Settings.spells_self)
      fun _ _ => Settings.fits_of_spells

example : (ofJson? (.arr [.obj [("Bar", .null)], .arr [.int 1, .int 1, .int 0],
    .obj [("offset", .int 1), ("line", .int 1), ("note", .null), ("column", .int 2)]])) =
      some ({ token := .bar, start := {}, stop := { column := 2, offset := 1 } } : Lexeme) := by
  decide

end LexDef

import LexDef.Literal.Character
import LexDef.Proofs.Escape
/-!
# The grammar of character literals

What is recognised as a character literal is exactly the spelling of a well-formed form, whatever
follows it, so no two forms match one text: `ofText?_eq_some_iff`.
-/

namespace LexDef

/-- Whether `s'` is `s` changed by `g`, but only behind the end of its first line. -/
def SameLine (g : List Char → List Char) (s s' : List Char) : Prop :=
  ∀ t u, '\n' ∉ t → '\r' ∉ t → (s' = t ++ u ↔ ∃ v, s = t ++ v ∧ u = g v)

/-- Texts with the same first line start with the same character, unless it ends the line. -/
theorem SameLine.cons_iff {g : List Char → List Char} {s s' : List Char} (h : SameLine g s s')
    {d : Char} (hlf : '\n' ≠ d) (hcr : '\r' ≠ d) : (∃ u, s' = d :: u) ↔ ∃ v, s = d :: v := by
  constructor
  · rintro ⟨u, hu⟩
    obtain ⟨v, hv, -⟩ := (h [d] u (by simpa using hlf) (by simpa using hcr)).1 hu
    exact ⟨v, hv⟩
  · rintro ⟨v, hv⟩
    exact ⟨g v, (h [d] (g v) (by simpa using hlf) (by simpa using hcr)).2 ⟨v, hv, rfl⟩⟩

theorem ne_of_isDigit {d : Char} (h : d.isDigit) : '\n' ≠ d ∧ '\r' ≠ d := by
  constructor <;> (rintro rfl; exact absurd h (by decide))

namespace CharForm

def WellFormed : CharForm → Prop
  | plain c => c ≠ '\\' ∧ isLineBreak c = false
  | escaped c => isLineBreak c = false
  | decimal d₁ d₂ d₃ => d₁.isDigit ∧ d₂.isDigit ∧ d₃.isDigit
  | hexByte h₁ h₂ => Hex.isDigit h₁ ∧ Hex.isDigit h₂
  | hexUnit digits => digits.length = 4 ∧ digits.all Hex.isDigit
  | codePoint digits => digits.length = 8 ∧ digits.all Hex.isDigit
  | category c₁ c₂ => c₁.isUpper ∧ c₂.isLower

inductive Kind where
  | plain
  | escaped
  | decimal
  | hexByte
  | hexUnit
  | codePoint
  | category
deriving DecidableEq

def kind : CharForm → Kind
  | plain _ => .plain
  | escaped _ => .escaped
  | decimal _ _ _ => .decimal
  | hexByte _ _ => .hexByte
  | hexUnit _ => .hexUnit
  | codePoint _ => .codePoint
  | category _ _ => .category

def Kind.escape? : Kind → List Char → Option (CharForm × List Char)
  | plain => fun _ => none
  | escaped => escaped?
  | decimal => decimal?
  | hexByte => hexByte?
  | hexUnit => hexUnit?
  | codePoint => codePoint?
  | category => category?

variable {p : Char → Bool} {n : Nat} {s t rest : List Char} {f : CharForm} {k : Kind}

theorem closedRun?_eq_some (h : closedRun? p n s = some (t, rest)) :
    t.length = n ∧ t.all p := by
  unfold closedRun? at h
  split at h
  · rename_i hd
    split at h
    · rename_i hp
      cases h
      refine ⟨?_, hp⟩
      have hlen := congrArg List.length hd
      simp only [List.length_drop, List.length_cons] at hlen
      rw [List.length_take]
      omega
    · simp at h
  · simp at h

theorem closedRun?_append (hlen : t.length = n) (hp : t.all p) :
    closedRun? p n (t ++ '\'' :: rest) = some (t, rest) := by
  subst hlen
  simp [closedRun?, hp]

/-- A run that the quote ends too early is none. -/
theorem closedRun?_short (hlen : t.length < n) (hq : p '\'' = false) :
    closedRun? p n (t ++ '\'' :: rest) = none := by
  have hmem : '\'' ∈ (t ++ '\'' :: rest).take n := by
    obtain ⟨k, hk⟩ : ∃ k, n - t.length = k + 1 := ⟨n - t.length - 1, by omega⟩
    rw [List.take_append, hk, List.take_succ_cons]
    exact List.mem_append_right _ List.mem_cons_self
  have hall : ((t ++ '\'' :: rest).take n).all p = false := by
    rw [List.all_eq_false]
    exact ⟨'\'', hmem, by simp [hq]⟩
  unfold closedRun?
  split
  · rw [if_neg (by simp [hall])]
  · rfl

theorem of_map_closedRun? {make : List Char → CharForm}
    (h : (closedRun? Hex.isDigit n s).map (fun (digits, rest) => (make digits, rest)) =
      some (f, rest)) :
    ∃ digits, f = make digits ∧ (digits.length = n ∧ digits.all Hex.isDigit) ∧
      s = digits ++ '\'' :: rest := by
  obtain ⟨⟨digits, tail⟩, hrun, hf⟩ := Option.map_eq_some_iff.1 h
  cases hf
  exact ⟨digits, rfl, closedRun?_eq_some hrun, eq_of_closedRun? hrun⟩

theorem of_escape? (h : k.escape? s = some (f, rest)) :
    f.kind = k ∧ f.WellFormed ∧ '\\' :: s = f.body ++ '\'' :: rest := by
  cases k with
  | plain => cases h
  | escaped =>
      simp only [Kind.escape?, escaped?] at h
      grind [WellFormed, body, kind]
  | decimal =>
      simp only [Kind.escape?, decimal?] at h
      grind [WellFormed, body, kind]
  | hexByte =>
      simp only [Kind.escape?, hexByte?] at h
      grind [WellFormed, body, kind]
  | hexUnit =>
      simp only [Kind.escape?, hexUnit?] at h
      split at h
      · obtain ⟨digits, rfl, hdigits, rfl⟩ := of_map_closedRun? h
        exact ⟨rfl, hdigits, rfl⟩
      · cases h
  | codePoint =>
      simp only [Kind.escape?, codePoint?] at h
      split at h
      · obtain ⟨digits, rfl, hdigits, rfl⟩ := of_map_closedRun? h
        exact ⟨rfl, hdigits, rfl⟩
      · cases h
  | category =>
      simp only [Kind.escape?, category?] at h
      grind [WellFormed, body, kind]

theorem of_plain? (h : plain? s = some (f, rest)) (hback : ∀ u, s ≠ '\\' :: u) :
    f.kind = .plain ∧ f.WellFormed ∧ s = f.body ++ '\'' :: rest := by
  unfold plain? at h
  split at h
  · rename_i c r
    split at h
    · cases h
    · rename_i hline
      cases h
      refine ⟨rfl, ⟨?_, by simpa using hline⟩, rfl⟩
      rintro rfl
      exact hback _ rfl
  · cases h

theorem wellFormed_of_ofText? (h : ofText? s = some (f, rest)) : f.WellFormed := by
  unfold ofText? at h
  split at h
  · simp only [Option.orElse_eq_orElse, Option.orElse_eq_or, Option.or_eq_some_iff] at h
    rename_i tail
    have hescape : ∃ k : Kind, k.escape? tail = some (f, rest) := by
      rcases h with (h | ⟨-, h | ⟨-, h | ⟨-, h | ⟨-, h | ⟨-, h⟩⟩⟩⟩⟩)
      · exact ⟨.codePoint, h⟩
      · exact ⟨.hexUnit, h⟩
      · exact ⟨.hexByte, h⟩
      · exact ⟨.decimal, h⟩
      · exact ⟨.category, h⟩
      · exact ⟨.escaped, h⟩
    obtain ⟨k, hk⟩ := hescape
    exact (of_escape? hk).2.1
  · rename_i hback
    exact (of_plain? h hback).2.1
  · cases h

theorem escape?_of_body (h : f.WellFormed) {tail : List Char} (hbody : f.body = '\\' :: tail)
    (rest : List Char) : f.kind.escape? (tail ++ '\'' :: rest) = some (f, rest) := by
  cases f with
  | plain c => exact absurd (List.cons.inj hbody).1 h.1
  | escaped c =>
      have hline : isLineBreak c = false := h
      cases hbody
      simp [kind, Kind.escape?, escaped?, hline]
  | decimal d₁ d₂ d₃ =>
      obtain ⟨h₁, h₂, h₃⟩ := h
      cases hbody
      simp [kind, Kind.escape?, decimal?, h₁, h₂, h₃]
  | hexByte h₁ h₂ =>
      obtain ⟨hh₁, hh₂⟩ := h
      cases hbody
      simp [kind, Kind.escape?, hexByte?, hh₁, hh₂]
  | hexUnit digits =>
      cases hbody
      simp [kind, Kind.escape?, hexUnit?, closedRun?_append h.1 h.2]
  | codePoint digits =>
      cases hbody
      simp [kind, Kind.escape?, codePoint?, closedRun?_append h.1 h.2]
  | category c₁ c₂ =>
      obtain ⟨h₁, h₂⟩ := h
      cases hbody
      simp [kind, Kind.escape?, category?, h₁, h₂]

/-! The escapes are tried from the longest to the shortest, and each refuses what is shorter. -/

theorem codePoint?_short (h : t.length < 9) : codePoint? (t ++ '\'' :: rest) = none := by
  unfold codePoint?
  split
  · rename_i u hu
    cases t with
    | nil => simp at hu
    | cons c t =>
        rw [List.cons_append] at hu
        obtain ⟨rfl, rfl⟩ := List.cons.inj hu
        simp only [List.length_cons] at h
        rw [closedRun?_short (by omega) rfl, Option.map_none]
  · rfl

theorem hexUnit?_short (h : t.length < 5) : hexUnit? (t ++ '\'' :: rest) = none := by
  unfold hexUnit?
  split
  · rename_i u hu
    cases t with
    | nil => simp at hu
    | cons c t =>
        rw [List.cons_append] at hu
        obtain ⟨rfl, rfl⟩ := List.cons.inj hu
        simp only [List.length_cons] at h
        rw [closedRun?_short (by omega) rfl, Option.map_none]
  · rfl

theorem hexByte?_short (h : t.length < 3) : hexByte? (t ++ '\'' :: rest) = none := by
  have hq : Hex.isDigit '\'' = false := rfl
  unfold hexByte?
  match t with
  | [] | [_] | [_, _] => grind

theorem decimal?_short (h : t.length < 3) : decimal? (t ++ '\'' :: rest) = none := by
  have hq : '\''.isDigit = false := rfl
  unfold decimal?
  match t with
  | [] | [_] | [_, _] => grind

theorem category?_short (h : t.length < 2) : category? (t ++ '\'' :: rest) = none := by
  have hq : '\''.isLower = false := rfl
  unfold category?
  match t with
  | [] | [_] => grind

theorem ofText?_escape (t rest : List Char) :
    ofText? ('\'' :: '\\' :: (t ++ '\'' :: rest)) =
      (codePoint? (t ++ '\'' :: rest) <|> hexUnit? (t ++ '\'' :: rest) <|>
        hexByte? (t ++ '\'' :: rest) <|> decimal? (t ++ '\'' :: rest) <|>
        category? (t ++ '\'' :: rest) <|> escaped? (t ++ '\'' :: rest)) := rfl

theorem ofText?_spelling (h : f.WellFormed) (rest : List Char) :
    ofText? (f.spelling ++ rest) = some (f, rest) := by
  cases f with
  | plain c =>
      obtain ⟨hc, hb⟩ := h
      have hplain : plain? (c :: '\'' :: rest) = some (plain c, rest) := by
        simp [plain?, hb]
      simp only [spelling, body, List.cons_append, List.nil_append]
      unfold ofText?
      split
      · simp_all
      · simp_all
      · simp_all
  | escaped c =>
      have hc : escaped? ([c] ++ '\'' :: rest) = some (escaped c, rest) :=
        escape?_of_body h rfl rest
      change ofText? ('\'' :: '\\' :: ([c] ++ '\'' :: rest)) = _
      rw [ofText?_escape, codePoint?_short (by simp), hexUnit?_short (by simp),
        hexByte?_short (by simp), decimal?_short (by simp), category?_short (by simp), hc]
      rfl
  | decimal d₁ d₂ d₃ =>
      have hx : hexByte? ([d₁, d₂, d₃] ++ '\'' :: rest) = none := by
        have hne : d₁ ≠ 'x' := by
          rintro rfl
          exact absurd h.1 (by decide)
        unfold hexByte?
        grind
      have hd : decimal? ([d₁, d₂, d₃] ++ '\'' :: rest) = some (decimal d₁ d₂ d₃, rest) :=
        escape?_of_body h rfl rest
      change ofText? ('\'' :: '\\' :: ([d₁, d₂, d₃] ++ '\'' :: rest)) = _
      rw [ofText?_escape, codePoint?_short (by simp), hexUnit?_short (by simp), hx, hd]
      rfl
  | hexByte h₁ h₂ =>
      have hx : hexByte? (['x', h₁, h₂] ++ '\'' :: rest) = some (hexByte h₁ h₂, rest) :=
        escape?_of_body h rfl rest
      change ofText? ('\'' :: '\\' :: (['x', h₁, h₂] ++ '\'' :: rest)) = _
      rw [ofText?_escape, codePoint?_short (by simp), hexUnit?_short (by simp), hx]
      rfl
  | hexUnit digits =>
      have hu : hexUnit? ('u' :: digits ++ '\'' :: rest) = some (hexUnit digits, rest) :=
        escape?_of_body h rfl rest
      simp only [spelling, body, List.cons_append, List.append_assoc, List.nil_append]
      change ofText? ('\'' :: '\\' :: (('u' :: digits) ++ '\'' :: rest)) = _
      rw [ofText?_escape, codePoint?_short (by simp [h.1]), hu]
      rfl
  | codePoint digits =>
      have hu : codePoint? ('U' :: digits ++ '\'' :: rest) = some (codePoint digits, rest) :=
        escape?_of_body h rfl rest
      simp only [spelling, body, List.cons_append, List.append_assoc, List.nil_append]
      change ofText? ('\'' :: '\\' :: (('U' :: digits) ++ '\'' :: rest)) = _
      rw [ofText?_escape, hu]
      rfl
  | category c₁ c₂ =>
      have hc : category? ([c₁, c₂] ++ '\'' :: rest) = some (category c₁ c₂, rest) :=
        escape?_of_body h rfl rest
      change ofText? ('\'' :: '\\' :: ([c₁, c₂] ++ '\'' :: rest)) = _
      rw [ofText?_escape, codePoint?_short (by simp), hexUnit?_short (by simp),
        hexByte?_short (by simp), decimal?_short (by simp), hc]
      rfl

theorem ofText?_eq_some_iff : ofText? s = some (f, rest) ↔ f.WellFormed ∧ s = f.spelling ++ rest :=
  ⟨fun h => ⟨wellFormed_of_ofText? h, eq_of_ofText? h⟩,
    fun ⟨hf, hs⟩ => hs ▸ ofText?_spelling hf rest⟩

/-- No literal reaches over the end of its line. -/
theorem WellFormed.not_mem_spelling (h : f.WellFormed) : '\n' ∉ f.spelling ∧ '\r' ∉ f.spelling := by
  have hclass : ∀ c : Char, c.isDigit ∨ c.isUpper ∨ c.isLower ∨ Hex.isDigit c ∨
      isLineBreak c = false → '\n' ≠ c ∧ '\r' ≠ c := by
    rintro c h
    constructor <;> (rintro rfl; exact absurd h (by decide))
  have hdigits : ∀ digits : List Char, digits.all Hex.isDigit → '\n' ∉ digits ∧ '\r' ∉ digits := by
    refine fun digits hall => ⟨fun hmem => ?_, fun hmem => ?_⟩
    · exact absurd (List.all_eq_true.1 hall _ hmem) (by decide)
    · exact absurd (List.all_eq_true.1 hall _ hmem) (by decide)
  cases f with
  | plain c =>
      obtain ⟨hn, hr⟩ := hclass c (.inr (.inr (.inr (.inr h.2))))
      simp [spelling, body, hn, hr]
  | escaped c =>
      obtain ⟨hn, hr⟩ := hclass c (.inr (.inr (.inr (.inr h))))
      simp [spelling, body, hn, hr]
  | decimal d₁ d₂ d₃ =>
      obtain ⟨h₁, h₂, h₃⟩ := h
      simp [spelling, body, hclass d₁ (.inl h₁), hclass d₂ (.inl h₂), hclass d₃ (.inl h₃)]
  | hexByte h₁ h₂ =>
      have hh₁ := hclass h₁ (.inr (.inr (.inr (.inl h.1))))
      have hh₂ := hclass h₂ (.inr (.inr (.inr (.inl h.2))))
      simp [spelling, body, hh₁, hh₂]
  | hexUnit digits | codePoint digits =>
      obtain ⟨hn, hr⟩ := hdigits digits h.2
      simp [spelling, body, hn, hr]
  | category c₁ c₂ =>
      have hc₁ := hclass c₁ (.inr (.inl h.1))
      have hc₂ := hclass c₂ (.inr (.inr (.inl h.2)))
      simp [spelling, body, hc₁, hc₂]

/-! A comment looks for literals, so what stands behind its end must not make one out of its last
characters. -/

/-- No prefix of a literal ends like a comment. -/
theorem WellFormed.spelling_ne (h : f.WellFormed) (init v : List Char) :
    f.spelling ≠ init ++ '*' :: ')' :: v := by
  intro heq
  have hmem : ')' ∈ f.spelling := by
    rw [heq]
    simp
  have hclass : ∀ c : Char, c.isDigit ∨ c.isUpper ∨ c.isLower ∨ Hex.isDigit c → ')' ≠ c := by
    rintro c h rfl
    exact absurd h (by decide)
  cases f with
  | plain c =>
      rcases init with _ | ⟨_, _ | ⟨_, _⟩⟩
      all_goals grind [spelling, body]
  | escaped c =>
      rcases init with _ | ⟨_, _ | ⟨_, _ | ⟨_, _⟩⟩⟩
      all_goals grind [spelling, body]
  | decimal d₁ d₂ d₃ =>
      simp only [spelling, body, List.mem_cons, List.mem_append] at hmem
      grind [WellFormed]
  | hexByte h₁ h₂ =>
      simp only [spelling, body, List.mem_cons, List.mem_append] at hmem
      grind [WellFormed]
  | hexUnit digits | codePoint digits =>
      have hdigits : ')' ∉ digits := fun hd =>
        hclass ')' (.inr (.inr (.inr (List.all_eq_true.1 h.2 ')' hd)))) rfl
      simp only [spelling, body, List.mem_cons, List.mem_append] at hmem
      grind
  | category c₁ c₂ =>
      simp only [spelling, body, List.mem_cons, List.mem_append] at hmem
      grind [WellFormed]

theorem ofText?_append_of_closed (init rest rest' : List Char)
    (h : ofText? (init ++ ['*', ')'] ++ rest) = none) :
    ofText? (init ++ ['*', ')'] ++ rest') = none := by
  rw [Option.eq_none_iff_forall_not_mem]
  rintro ⟨f, tail⟩ hf
  obtain ⟨hwf, heq⟩ := ofText?_eq_some_iff.1 hf
  rcases List.append_eq_append_iff.1 heq with ⟨v, hv, -⟩ | ⟨v, hv, -⟩
  · exact hwf.spelling_ne init v (by rw [hv]; simp)
  · rw [hv, List.append_assoc, ofText?_spelling hwf] at h
    cases h

/-- Where a text is changed only behind the end of a line, the same literal is recognised. -/
theorem ofText?_of_same_line {g : List Char → List Char} {s' : List Char} (h : SameLine g s s') :
    ofText? s' = (ofText? s).map (Prod.map id g) := by
  apply Option.ext
  rintro ⟨f, u⟩
  rw [ofText?_eq_some_iff, Option.map_eq_some_iff]
  constructor
  · rintro ⟨hwf, hs'⟩
    obtain ⟨hlf, hcr⟩ := hwf.not_mem_spelling
    obtain ⟨v, hs, rfl⟩ := (h f.spelling u hlf hcr).1 hs'
    exact ⟨(f, v), ofText?_eq_some_iff.2 ⟨hwf, hs⟩, rfl⟩
  · rintro ⟨⟨f', v⟩, hf, heq⟩
    obtain ⟨rfl, rfl⟩ := Prod.mk.inj heq
    obtain ⟨hwf, hs⟩ := ofText?_eq_some_iff.1 hf
    obtain ⟨hlf, hcr⟩ := hwf.not_mem_spelling
    exact ⟨hwf, (h f'.spelling (g v) hlf hcr).2 ⟨v, hs, rfl⟩⟩

theorem ofChar_moved {q : Position} {c : Char} {tok : Token} (h : token.ofChar q c = .ok tok)
    (q' : Position) : token.ofChar q' c = .ok tok := by
  unfold token.ofChar at *
  split at h
  · exact h
  · cases h

/-- A literal means the same wherever it stands, if it means anything. -/
theorem token_moved {q : Position} {tok : Token} (h : f.token q = .ok tok) (q' : Position) :
    f.token q' = .ok tok := by
  cases f with
  | plain c | escaped c => exact ofChar_moved h q'
  | decimal d₁ d₂ d₃ => exact h
  | hexByte h₁ h₂ => exact h
  | hexUnit digits => exact h
  | codePoint digits =>
      simp only [token] at h ⊢
      cases hcode : Escape.codePoint digits with
      | error e =>
          rw [hcode] at h
          cases h
      | ok units =>
          rw [hcode] at h
          cases units with
          | single unit => exact h
          | pair lead trail => cases h
  | category c₁ c₂ => exact h

theorem token_cases {q : Position} {tok : Token} (h : f.token q = .ok tok) :
    (∃ unit, tok = .char unit) ∨
    ∃ c₁ c₂, f = category c₁ c₂ ∧ tok = .category (String.ofList [c₁, c₂]) := by
  have hmap : ∀ {result : Except Fault UInt16}, Token.char <$> result = .ok tok →
      ∃ unit, tok = .char unit := by
    rintro (_ | unit) hr
    · cases hr
    · cases hr
      exact ⟨unit, rfl⟩
  cases f with
  | plain c | escaped c =>
      simp only [token] at h
      unfold token.ofChar at h
      split at h
      · cases h
        exact .inl ⟨_, rfl⟩
      · cases h
  | decimal d₁ d₂ d₃ => exact .inl (hmap h)
  | hexByte h₁ h₂ => exact .inl (hmap h)
  | hexUnit digits => exact .inl (hmap h)
  | codePoint digits =>
      simp only [token] at h
      cases hcode : Escape.codePoint digits with
      | error e =>
          rw [hcode] at h
          cases h
      | ok units =>
          rw [hcode] at h
          cases units with
          | single unit =>
              cases h
              exact .inl ⟨unit, rfl⟩
          | pair lead trail => cases h
  | category c₁ c₂ =>
      cases h
      exact .inr ⟨c₁, c₂, rfl, rfl⟩

theorem token_ne_end {q : Position} {tok : Token} (h : f.token q = .ok tok) : tok ≠ .endOfText := by
  rcases token_cases h with ⟨unit, rfl⟩ | ⟨c₁, c₂, -, rfl⟩ <;> exact Token.noConfusion

theorem ofChar_error {q : Position} {c : Char} {fault : Fault}
    (h : token.ofChar q c = .error fault) :
    fault = .surrogatePair q := by
  unfold token.ofChar at h
  split at h
  · cases h
  · exact (Except.error.inj h).symm

/-- A literal that is recognised denotes a token, unless its number is too large for one. -/
theorem token_error {q : Position} {fault : Fault} (hwf : f.WellFormed)
    (h : f.token q = .error fault) :
    (∃ code, (255 < code ∧ ∃ d₁ d₂ d₃, f = decimal d₁ d₂ d₃ ∧ Escape.Writes d₁ d₂ d₃ code) ∧
      fault = .codeTooLarge code) ∨
    (∃ code, 0x10FFFF < code ∧ fault = .beyondUnicode code) ∨ fault = .surrogatePair q := by
  cases f with
  | plain c | escaped c => exact .inr (.inr (ofChar_error h))
  | decimal d₁ d₂ d₃ =>
      obtain ⟨h₁, h₂, h₃⟩ := hwf
      simp only [token] at h
      cases hcode : Escape.decimal d₁ d₂ d₃ with
      | error e =>
          rw [hcode] at h
          cases h
          obtain ⟨code, ⟨hlarge, hwrites⟩, rfl⟩ := Escape.decimal_error h₁ h₂ h₃ hcode
          exact .inl ⟨code, ⟨hlarge, d₁, d₂, d₃, rfl, hwrites⟩, rfl⟩
      | ok code =>
          rw [hcode] at h
          cases h
  | hexByte h₁ h₂ =>
      obtain ⟨d₁, hd₁⟩ := Escape.hexValue_of_isDigit hwf.1
      obtain ⟨d₂, hd₂⟩ := Escape.hexValue_of_isDigit hwf.2
      simp only [token, Escape.hexByte, hd₁, hd₂] at h
      cases h
  | hexUnit digits =>
      obtain ⟨n, hn⟩ := Escape.hexNumber_of_isDigit hwf.1 hwf.2
      simp only [token, Escape.hexUnit, hn] at h
      cases h
  | codePoint digits =>
      simp only [token] at h
      cases hcode : Escape.codePoint digits with
      | error e =>
          rw [hcode] at h
          cases h
          exact .inr (.inl (Escape.codePoint_error hwf.1 hwf.2 hcode))
      | ok units =>
          rw [hcode] at h
          cases units with
          | single unit => cases h
          | pair lead trail =>
              cases h
              exact .inr (.inr rfl)
  | category c₁ c₂ => cases h

end CharForm

end LexDef

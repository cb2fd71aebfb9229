import LexDef.Json.Basic
import Mathlib.Data.List.Nodup
import Mathlib.Data.List.Forall2
/-!
# How data are spelled in JSON

A form describes the JSON of a type of data: which integers, fields and variants it has. Data have one
written form and may be spelled in other ways, which `Form.Spells` lists; `Form.Breaks` lists what no
spelling does. The shapes that data are read from are related to the spellings here, one lemma for
each kind of form.
-/

namespace LexDef.Json

inductive Form where
  /-- An integer from zero on, below the bound. -/
  | natural (bound : Nat)
  | string
  | record (fields : List (String × Form))
  | variant (cases : List (String × Option Form))

/-- Whether `name` has the value `value` in an object and does not occur again. -/
def Holds (entries : List (String × Json)) (name : String) (value : Json) : Prop :=
  ∃ before after, entries = before ++ (name, value) :: after ∧
    name ∉ (before ++ after).map Prod.fst

namespace Form

/-- Whether what is written as `written` may be spelled as `j`. A record is also spelled by an object
with its fields in any order and with others between them, or by the array of its values. A variant
without payload is also spelled as an entry with null. -/
inductive Spells : Form → (written : Json) → (j : Json) → Prop where
  | natural {bound n : Nat} (h : n < bound) : Spells (natural bound) (.int n) (.int n)
  | string (text : String) : Spells string (.str text) (.str text)
  | object {fields : List (String × Form)} {written value : String → Json}
      {entries : List (String × Json)} (holds : ∀ f ∈ fields, Holds entries f.1 (value f.1))
      (spells : ∀ f ∈ fields, Spells f.2 (written f.1) (value f.1)) :
      Spells (record fields) (.obj (fields.map fun f => (f.1, written f.1))) (.obj entries)
  | array {fields : List (String × Form)} {written value : String → Json}
      (spells : ∀ f ∈ fields, Spells f.2 (written f.1) (value f.1)) :
      Spells (record fields) (.obj (fields.map fun f => (f.1, written f.1)))
        (.arr (fields.map fun f => value f.1))
  | name {cases : List (String × Option Form)} {name : String}
      (h : cases.lookup name = some none) : Spells (variant cases) (.str name) (.str name)
  | null {cases : List (String × Option Form)} {name : String}
      (h : cases.lookup name = some none) :
      Spells (variant cases) (.str name) (.obj [(name, .null)])
  | payload {cases : List (String × Option Form)} {name : String} {form : Form} {written j : Json}
      (h : cases.lookup name = some (some form)) (spells : Spells form written j) :
      Spells (variant cases) (.obj [(name, written)]) (.obj [(name, j)])

/-- Whether `j` cannot be of a form, for a reason at its top or inside one of its parts. -/
inductive Breaks : Form → Json → Prop where
  | range {bound : Nat} {n : Int} (h : n < 0 ∨ bound ≤ n) : Breaks (natural bound) (.int n)
  | missing {fields : List (String × Form)} {f : String × Form} {entries : List (String × Json)}
      (mem : f ∈ fields) (h : f.1 ∉ entries.map Prod.fst) : Breaks (record fields) (.obj entries)
  | length {fields : List (String × Form)} {items : List Json}
      (h : items.length ≠ fields.length) : Breaks (record fields) (.arr items)
  | unknownName {cases : List (String × Option Form)} {name : String}
      (h : cases.lookup name = none) : Breaks (variant cases) (.str name)
  | unknownEntry {cases : List (String × Option Form)} {name : String} {j : Json}
      (h : cases.lookup name = none) : Breaks (variant cases) (.obj [(name, j)])
  | entryCount {cases : List (String × Option Form)} {entries : List (String × Json)}
      (h : entries.length ≠ 1) : Breaks (variant cases) (.obj entries)
  | field {fields : List (String × Form)} {f : String × Form} {entries : List (String × Json)}
      {j : Json} (mem : f ∈ fields) (entry : (f.1, j) ∈ entries) (h : Breaks f.2 j) :
      Breaks (record fields) (.obj entries)
  | item {fields : List (String × Form)} {f : String × Form} {items : List Json} {j : Json} {i : Nat}
      (declared : fields[i]? = some f) (item : items[i]? = some j) (h : Breaks f.2 j) :
      Breaks (record fields) (.arr items)
  | payload {cases : List (String × Option Form)} {name : String} {form : Form} {j : Json}
      (case : cases.lookup name = some (some form)) (h : Breaks form j) :
      Breaks (variant cases) (.obj [(name, j)])

end Form

/-! ## Fields -/

theorem Holds.mem {entries : List (String × Json)} {name : String} {value : Json}
    (h : Holds entries name value) : (name, value) ∈ entries := by
  obtain ⟨before, after, rfl, -⟩ := h
  simp

theorem Holds.eq_of_mem {entries : List (String × Json)} {name : String} {value j : Json}
    (h : Holds entries name value) (hj : (name, j) ∈ entries) : j = value := by
  obtain ⟨before, after, rfl, hname⟩ := h
  by_contra hne
  apply hname
  rw [List.mem_map]
  refine ⟨(name, j), ?_, rfl⟩
  rcases List.mem_append.1 hj with hj | hj
  · exact List.mem_append_left _ hj
  · rcases List.mem_cons.1 hj with heq | hj
    · exact absurd (Prod.mk.inj heq).2 hne
    · exact List.mem_append_right _ hj

theorem field?_eq_some_iff {entries : List (String × Json)} {name : String} {value : Json} :
    field? entries name = some value ↔ Holds entries name value := by
  have hfilter : entries.filter (·.1 = name) = [(name, value)] ↔ Holds entries name value := by
    simp only [List.filter_eq_cons_iff, List.filter_eq_nil_iff, decide_eq_true_eq, true_and, Holds,
      List.map_append, List.mem_append, List.mem_map, not_or, not_exists, not_and]
  rw [← hfilter, field?]
  split
  · rename_i first j heq
    have hfirst : first = name := by
      have hmem : (first, j) ∈ entries.filter (·.1 = name) := by simp [heq]
      simpa using (List.mem_filter.1 hmem).2
    simp [heq, hfirst]
  · rename_i hne
    constructor
    · intro h
      cases h
    · intro h
      exact absurd h (hne name value)

theorem mapM_field?_eq_some_iff {entries : List (String × Json)} {names : List String}
    {values : List Json} :
    names.mapM (field? entries) = some values ↔ List.Forall₂ (Holds entries) names values := by
  induction names generalizing values with
  | nil =>
      rw [List.mapM_nil, List.forall₂_nil_left_iff]
      exact ⟨fun h => (Option.some.inj h).symm, fun h => h ▸ rfl⟩
  | cons name names ih =>
      rw [List.mapM_cons, List.forall₂_cons_left_iff]
      constructor
      · intro h
        obtain ⟨value, hvalue, h⟩ := Option.bind_eq_some_iff.1 h
        obtain ⟨rest, hrest, h⟩ := Option.bind_eq_some_iff.1 h
        cases h
        exact ⟨value, rest, field?_eq_some_iff.1 hvalue, ih.1 hrest, rfl⟩
      · rintro ⟨value, rest, hvalue, hrest, rfl⟩
        rw [field?_eq_some_iff.2 hvalue, ih.2 hrest]
        rfl

theorem record?_eq_some_iff {names : List String} {j : Json} {values : List Json} :
    j.record? names = some values ↔
      (∃ entries, j = .obj entries ∧ List.Forall₂ (Holds entries) names values) ∨
        (j = .arr values ∧ values.length = names.length) := by
  cases j with
  | obj entries => simp [record?, mapM_field?_eq_some_iff]
  | arr items =>
      simp only [record?, Option.ite_none_right_eq_some, Option.some.injEq, reduceCtorEq, false_and,
        exists_false, false_or, Json.arr.injEq]
      constructor
      · rintro ⟨hlen, rfl⟩
        exact ⟨rfl, hlen⟩
      · rintro ⟨rfl, hlen⟩
        exact ⟨hlen, rfl⟩
  | null | bool _ | int _ | decimal _ _ | str _ => simp [record?]

theorem unit?_eq_some_iff {α : Type} {x y : α} {payload : Option Json} :
    unit? x payload = some y ↔ x = y ∧ (payload = none ∨ payload = some .null) := by
  unfold unit?
  split <;> simp_all

theorem variant?_eq_some_iff {j : Json} {name : String} {payload : Option Json} :
    j.variant? = some (name, payload) ↔ j = variant name payload := by
  constructor
  · intro h
    unfold variant? at h
    split at h
    · cases h
      rfl
    · cases h
      rfl
    · cases h
  · rintro rfl
    cases payload <;> rfl

theorem exists_map_eq {names : List String} (distinct : names.Nodup) (values : List Json)
    (hlen : values.length = names.length) : ∃ value : String → Json, names.map value = values := by
  refine ⟨fun name => values[names.idxOf name]?.getD .null, List.ext_getElem (by simp [hlen]) ?_⟩
  intro i hi hi'
  rw [List.getElem_map, distinct.idxOf_getElem i, List.getElem?_eq_getElem hi', Option.getD_some]

/-! ## Spellings of each kind of form -/

namespace Form

variable {j : Json}

theorem spells_natural_iff {bound n : Nat} :
    (natural bound).Spells (.int n) j ↔ j.natural? bound = some n := by
  constructor
  · intro h
    cases h with
    | natural h => exact if_pos h
  · intro h
    unfold natural? at h
    split at h
    · rename_i m
      split at h
      · rename_i hm
        cases h
        exact .natural hm
      · cases h
    · cases h

theorem lt_of_natural? {bound n : Nat} (h : j.natural? bound = some n) : n < bound := by
  cases spells_natural_iff.2 h with
  | natural hn => exact hn

theorem spells_string_iff {text : String} :
    string.Spells (.str text) j ↔ j.string? = some text := by
  constructor
  · intro h
    cases h with
    | string => rfl
  · intro h
    unfold string? at h
    split at h
    · cases h
      exact .string text
    · cases h

theorem zip_map_names (fields : List (String × Form)) (value : String → Json) :
    (fields.map Prod.fst).zip ((fields.map Prod.fst).map value) =
      fields.map fun f => (f.1, value f.1) := by
  rw [List.map_map, List.zip_map']
  rfl

theorem spells_record_iff {fields : List (String × Form)} (written : List Json)
    (distinct : (fields.map Prod.fst).Nodup) (hlen : written.length = fields.length) :
    (record fields).Spells (.obj ((fields.map Prod.fst).zip written)) j ↔
      ∃ values, j.record? (fields.map Prod.fst) = some values ∧
        List.Forall₂ (fun x value => x.1.2.Spells x.2 value) (fields.zip written) values := by
  have hspells (written value : String → Json) :
      List.Forall₂ (fun x value => x.1.2.Spells x.2 value)
        (fields.zip ((fields.map Prod.fst).map written)) ((fields.map Prod.fst).map value) ↔
      ∀ f ∈ fields, f.2.Spells (written f.1) (value f.1) := by
    have hzip : fields.zip ((fields.map Prod.fst).map written) =
        fields.map fun f => (f, written f.1) := by
      nth_rewrite 1 [← List.map_id fields]
      rw [List.map_map, List.zip_map']
      rfl
    rw [hzip, List.map_map, List.forall₂_map_left_iff, List.forall₂_map_right_iff,
      List.forall₂_same]
    rfl
  have hwritten (g : String → Json)
      (h : (fields.map Prod.fst).zip written = fields.map fun f => (f.1, g f.1)) :
      (fields.map Prod.fst).map g = written := by
    have hsnd := congrArg (List.map Prod.snd) h
    rw [List.map_snd_zip (by simp [hlen]), List.map_map] at hsnd
    rw [List.map_map, hsnd]
    rfl
  constructor
  · intro h
    generalize hc : Json.obj ((fields.map Prod.fst).zip written) = c at h
    cases h with
    | @object _ written' value entries holds spells =>
        rw [← hwritten written' (Json.obj.inj hc)]
        refine ⟨(fields.map Prod.fst).map value, record?_eq_some_iff.2 (.inl ⟨entries, rfl, ?_⟩),
          (hspells written' value).2 spells⟩
        rw [List.forall₂_map_right_iff, List.forall₂_same]
        exact List.forall_mem_map.2 holds
    | @array _ written' value spells =>
        rw [← hwritten written' (Json.obj.inj hc)]
        refine ⟨(fields.map Prod.fst).map value, record?_eq_some_iff.2 (.inr ⟨?_, by simp⟩),
          (hspells written' value).2 spells⟩
        rw [List.map_map]
        rfl
  · rintro ⟨values, hvalues, spells⟩
    obtain ⟨written', rfl⟩ := exists_map_eq distinct written (by simp [hlen])
    rcases record?_eq_some_iff.1 hvalues with ⟨entries, rfl, holds⟩ | ⟨rfl, hlength⟩
    · obtain ⟨value, rfl⟩ := exists_map_eq distinct values holds.length_eq.symm
      rw [List.forall₂_map_right_iff, List.forall₂_same, List.forall_mem_map] at holds
      rw [zip_map_names]
      exact .object holds ((hspells written' value).1 spells)
    · obtain ⟨value, rfl⟩ := exists_map_eq distinct values hlength
      rw [zip_map_names, List.map_map]
      exact .array ((hspells written' value).1 spells)

variable {cases : List (String × Option Form)} {name : String}

theorem Spells.exists_variant {written : Json} (h : (variant cases).Spells written j) :
    ∃ name payload, j = .variant name payload := by
  cases h with
  | @name _ name => exact ⟨name, none, rfl⟩
  | @null _ name => exact ⟨name, some .null, rfl⟩
  | @payload _ name _ _ value => exact ⟨name, some value, rfl⟩

theorem spells_unit_iff {payload : Option Json} {name' : String}
    (hname : cases.lookup name = some none) :
    (variant cases).Spells (.str name) (.variant name' payload) ↔
      name' = name ∧ (payload = none ∨ payload = some .null) := by
  constructor
  · intro h
    generalize hj : Json.variant name' payload = j at h
    cases h with
    | name =>
        cases payload with
        | none => exact ⟨Json.str.inj hj, .inl rfl⟩
        | some value => cases hj
    | null =>
        cases payload with
        | none => cases hj
        | some value =>
            cases hj
            exact ⟨rfl, .inr rfl⟩
  · rintro ⟨rfl, rfl | rfl⟩
    · exact .name hname
    · exact .null hname

theorem spells_payload_iff {payload : Option Json} {name' : String} {form : Form} {written : Json}
    (hname : cases.lookup name = some (some form)) :
    (variant cases).Spells (.obj [(name, written)]) (.variant name' payload) ↔
      name' = name ∧ ∃ j, payload = some j ∧ form.Spells written j := by
  constructor
  · intro h
    generalize hj : Json.variant name' payload = j at h
    cases h with
    | payload hform spells =>
        cases hname.symm.trans hform
        cases payload with
        | none => cases hj
        | some value =>
            cases hj
            exact ⟨rfl, _, rfl, spells⟩
  · rintro ⟨rfl, j, rfl, spells⟩
    exact .payload hname spells

/-- What breaks a form is no spelling of anything. -/
theorem Breaks.not_spells {form : Form} (h : form.Breaks j) (written : Json) :
    ¬form.Spells written j := by
  intro hs
  induction h generalizing written with
  | range h =>
      cases hs with
      | natural hn => omega
  | missing mem h =>
      cases hs with
      | object holds => exact h (List.mem_map.2 ⟨_, (holds _ mem).mem, rfl⟩)
  | length h =>
      cases hs with
      | array => simp at h
  | unknownName h =>
      cases hs with
      | name hname => simp [h] at hname
  | unknownEntry h =>
      cases hs with
      | null hname | payload hname => simp [h] at hname
  | entryCount h =>
      cases hs with
      | null | payload => simp at h
  | field mem entry _ ih =>
      cases hs with
      | object holds spells =>
          have hvalue := (holds _ mem).eq_of_mem entry
          exact ih _ (hvalue ▸ spells _ mem)
  | item declared item _ ih =>
      cases hs with
      | array spells =>
          rw [List.getElem?_map, declared] at item
          cases item
          exact ih _ (spells _ (List.mem_of_getElem? declared))
  | payload case _ ih =>
      cases hs with
      | null hname => simp [case] at hname
      | payload hname spells =>
          cases case.symm.trans hname
          exact ih _ spells

end Form

end LexDef.Json

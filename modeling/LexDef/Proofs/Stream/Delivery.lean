import LexDef.Proofs.Stream.Session
/-!
# What is delivered

However a text is read, all at once or in answer to requests, it gives the items of its run and what
the run came to, and nothing else. So every lexeme that is delivered before the end of the text is a
lexeme of the run: `Scanner.Delivers.mem_lexemes`.
-/

namespace LexDef

def Answer.items : Answer → List (Except Error Lexeme)
  | lexeme x => [.ok x]
  | error e => [.error e]
  | peeked (.lexemes xs) | peeked (.reachedEnd xs) => xs.map .ok
  | token _ | skipped _ | nothing => []

/-- Whether a lexeme of a text is delivered: by the run, with all lexemes of the text, or in answer
to one of some requests. -/
inductive Scanner.Delivers (scanner : Scanner) (text : String) (x : Lexeme) : Prop
  | run (mem : x ∈ (scanner.run text).lexemes) : Delivers scanner text x
  | lexemes {xs : List Lexeme} (ok : scanner.lexemes text = .ok xs) (mem : x ∈ xs) :
    Delivers scanner text x
  | answer {view : View} {requests : List Request} {a : Answer × Session}
    (answered : a ∈ Session.answers { stream := scanner.stream text, view } requests)
    (shown : .ok x ∈ a.1.items) : Delivers scanner text x

variable {items : List (Except Error Lexeme)} {item : Except Error Lexeme} {xs : List Lexeme}
  {e : Error}

theorem mapM_id_cases (items : List (Except Error Lexeme)) :
    (∃ xs, items.mapM id = .ok xs ∧ items = xs.map .ok) ∨
    ∃ e, items.mapM id = .error e ∧ .error e ∈ items := by
  induction items with
  | nil => exact .inl ⟨[], rfl, rfl⟩
  | cons item items ih =>
      rw [List.mapM_cons]
      cases item with
      | error e => exact .inr ⟨e, rfl, List.mem_cons_self⟩
      | ok x =>
          rcases ih with ⟨xs, hxs, rfl⟩ | ⟨e, he, hmem⟩
          · exact .inl ⟨x :: xs, by rw [hxs]; rfl, rfl⟩
          · exact .inr ⟨e, by rw [he]; rfl, List.mem_cons_of_mem _ hmem⟩

theorem mapM_id_ok (h : items.mapM id = .ok xs) : items = xs.map .ok := by
  rcases mapM_id_cases items with ⟨ys, hys, hitems⟩ | ⟨e, he, -⟩
  · rw [hitems, Except.ok.inj (h.symm.trans hys)]
  · cases h.symm.trans he

theorem mapM_id_error (h : items.mapM id = .error e) : .error e ∈ items := by
  rcases mapM_id_cases items with ⟨ys, hys, -⟩ | ⟨e', he, hmem⟩
  · cases h.symm.trans hys
  · rwa [Except.error.inj (h.symm.trans he)]

theorem mem_of_mem_ahead {n : Nat} (h : item ∈ (Answer.ofPeek (ahead items n)).items) :
    item ∈ items := by
  refine List.mem_of_mem_take (i := n) ?_
  unfold ahead at h
  cases hxs : (items.take n).mapM id with
  | error e =>
      rw [hxs] at h
      obtain rfl := List.mem_singleton.1 h
      exact mapM_id_error hxs
  | ok xs =>
      rw [hxs] at h
      rw [mapM_id_ok hxs]
      by_cases hn : items.length ≤ n
      · simpa [hn, bind, Except.bind, pure, Except.pure, Answer.ofPeek, Answer.items] using h
      · simpa [hn, bind, Except.bind, pure, Except.pure, Answer.ofPeek, Answer.items] using h

theorem eq_of_mem_view (view : View) {shown : Except Error Lexeme}
    (h : item ∈ (view.answer shown).items) : item = shown := by
  cases shown with
  | error e => exact List.mem_singleton.1 h
  | ok x =>
      cases view with
      | lexemes => exact List.mem_singleton.1 h
      | tokens => cases h

theorem Run.item_mem (run : Run) (n : Nat) : run.item n ∈ run.items ∨ run.item n = run.again := by
  rw [Run.item]
  cases h : run.items[n]? with
  | none => exact .inr rfl
  | some item => exact .inl (List.mem_of_getElem? h)

/-- An answer shows only items of the run, or what the run came to. -/
theorem Run.mem_items_of_answer (run : Run) (n : Nat) (view : View) (request : Request)
    (h : item ∈ (run.answer n view request).items) : item ∈ run.items ∨ item = run.again := by
  cases request with
  | token =>
      rw [eq_of_mem_view .tokens h]
      exact run.item_mem n
  | lexeme =>
      rw [eq_of_mem_view .lexemes h]
      exact run.item_mem n
  | next =>
      rw [Run.answer] at h
      split at h
      · rw [eq_of_mem_view view h]
        exact run.item_mem n
      · cases h
  | skip count | view view => cases h
  | peek count =>
      rw [Run.answer] at h
      split at h
      · exact .inl (List.mem_of_mem_drop (mem_of_mem_ahead h))
      · exact .inr (List.mem_singleton.1 (mem_of_mem_ahead h))

theorem Session.exists_of_mem_answers {scanner : Scanner} {text : String} {n : Nat} {view : View}
    {requests : List Request} {a : Answer × Session}
    (h : a ∈ (Session.behind scanner text n view).answers requests) :
    ∃ m view request, a.1 = (scanner.run text).answer m view request ∧
      a.2 = behind scanner text (m + request.asks) (view.after request) := by
  induction requests generalizing n view with
  | nil => cases h
  | cons request requests ih =>
      rw [answers, answer_behind] at h
      rcases List.mem_cons.1 h with rfl | h
      · exact ⟨n, view, request, rfl, rfl⟩
      · exact ih h

variable {scanner : Scanner} {text : String} {x : Lexeme}

theorem mem_items_of_lexemes (h : scanner.lexemes text = .ok xs) (hx : x ∈ xs) :
    .ok x ∈ (scanner.run text).items := by
  rw [lexemes_eq_items] at h
  rw [mapM_id_ok h]
  exact List.mem_map_of_mem hx

/-- Of the items of a run, only the last one and what is read again are no lexemes before the end. -/
theorem mem_lexemes_of_item
    (h : .ok x ∈ (scanner.run text).items ∨ .ok x = (scanner.run text).again)
    (hx : x.token ≠ .endOfText) : x ∈ (scanner.run text).lexemes := by
  rcases Run.last_cases scanner text with ⟨y, hlast, hy, -, hagain⟩ | ⟨e, hlast, hagain⟩
  all_goals
    rw [Run.items, List.mem_append, List.mem_singleton, hlast, hagain] at h
    rcases h with (h | h) | h
  · simpa using h
  · cases h
    exact absurd hy hx
  · cases h
    exact absurd rfl hx
  · simpa using h
  · cases h
  · cases h

theorem Scanner.Delivers.mem_lexemes (h : scanner.Delivers text x) (hx : x.token ≠ .endOfText) :
    x ∈ (scanner.run text).lexemes := by
  cases h with
  | run mem => exact mem
  | lexemes ok mem => exact mem_lexemes_of_item (.inl (mem_items_of_lexemes ok mem)) hx
  | answer answered shown =>
      obtain ⟨n, view, request, hanswer, -⟩ := Session.exists_of_mem_answers (n := 0) answered
      rw [hanswer] at shown
      exact mem_lexemes_of_item (Run.mem_items_of_answer _ n view request shown) hx

end LexDef

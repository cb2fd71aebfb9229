import LexDef.Proofs.Stream.Session
/-!
# Looking ahead in a stream

A stream that is not done shows ahead what pulling would give: as many lexemes as asked for, or those
up to the end of the text, or the first error. Looking changes nothing, and a stream that is done
shows what it came to: `Session.peek_foresees`.
-/

namespace LexDef

/-! ## What some items show -/

namespace Peek

def behind (xs : List Lexeme) : Peek → Peek
  | lexemes ys => lexemes (xs ++ ys)
  | reachedEnd ys => reachedEnd (xs ++ ys)

/-- What is seen of items that come one by one: nothing behind the end of the text or an error. -/
def ofItems : List (Except Error Lexeme) → Except Error Peek
  | [] => .ok (.lexemes [])
  | .error e :: _ => .error e
  | .ok x :: items =>
    if x.token = .endOfText then .ok (.reachedEnd [x]) else (ofItems items).map (.cons x)

inductive Shows : List (Except Error Lexeme) → Except Error Peek → Prop
  | lexemes (xs : List Lexeme) (ne_end : ∀ x ∈ xs, x.token ≠ .endOfText) :
    Shows (xs.map .ok) (.ok (.lexemes xs))
  | reachedEnd (xs : List Lexeme) (ne_end : ∀ x ∈ xs, x.token ≠ .endOfText) (last : Lexeme)
    (is_end : last.token = .endOfText) (later : List (Except Error Lexeme)) :
    Shows (xs.map .ok ++ .ok last :: later) (.ok (.reachedEnd (xs ++ [last])))
  | error (xs : List Lexeme) (ne_end : ∀ x ∈ xs, x.token ≠ .endOfText) (e : Error)
    (later : List (Except Error Lexeme)) : Shows (xs.map .ok ++ .error e :: later) (.error e)

variable {items : List (Except Error Lexeme)} {result : Except Error Peek} {x : Lexeme}
  {xs : List Lexeme}

theorem Shows.cons (h : Shows items result) (hx : x.token ≠ .endOfText) :
    Shows (.ok x :: items) (result.map (.cons x)) := by
  cases h with
  | lexemes xs ne_end => exact .lexemes (x :: xs) (List.forall_mem_cons.2 ⟨hx, ne_end⟩)
  | reachedEnd xs ne_end last is_end later =>
      exact .reachedEnd (x :: xs) (List.forall_mem_cons.2 ⟨hx, ne_end⟩) last is_end later
  | error xs ne_end e later => exact .error (x :: xs) (List.forall_mem_cons.2 ⟨hx, ne_end⟩) e later

theorem shows_ofItems (items : List (Except Error Lexeme)) : Shows items (ofItems items) := by
  induction items with
  | nil => exact .lexemes [] (by simp)
  | cons item items ih =>
      cases item with
      | error e => exact .error [] (by simp) e items
      | ok x =>
          by_cases hx : x.token = .endOfText
          · rw [ofItems, if_pos hx]
            exact .reachedEnd [] (by simp) x hx items
          · rw [ofItems, if_neg hx]
            exact ih.cons hx

theorem ofItems_append (h : ∀ x ∈ xs, x.token ≠ .endOfText) (items : List (Except Error Lexeme)) :
    ofItems (xs.map .ok ++ items) = (ofItems items).map (.behind xs) := by
  induction xs with
  | nil =>
      rw [List.map_nil, List.nil_append]
      rcases ofItems items with e | ys | ys <;> rfl
  | cons x xs ih =>
      obtain ⟨hx, hxs⟩ := List.forall_mem_cons.1 h
      rw [List.map_cons, List.cons_append, ofItems, if_neg hx, ih hxs]
      rcases ofItems items with e | ys | ys <;> rfl

theorem Shows.ofItems_eq (h : Shows items result) : ofItems items = result := by
  cases h with
  | lexemes xs ne_end =>
      have happend := ofItems_append ne_end []
      rw [List.append_nil] at happend
      simp [happend, ofItems, Except.map, behind]
  | reachedEnd xs ne_end last is_end later =>
      simp [ofItems_append ne_end, ofItems, is_end, Except.map, behind]
  | error xs ne_end e later => simp [ofItems_append ne_end, ofItems, Except.map]

end Peek

/-! ## Pulling and looking ahead -/

namespace Stream

def pulls (stream : Stream) : Nat → List (Except Error Lexeme)
  | 0 => []
  | n + 1 => stream.pull.1 :: stream.pull.2.pulls n

structure Foresees (stream : Stream) (n : Nat) : Prop where
  lexemes_iff : ∀ xs, stream.peek n = .ok (.lexemes xs) ↔
    stream.pulls n = xs.map .ok ∧ ∀ x ∈ xs, x.token ≠ .endOfText
  reachedEnd_iff : ∀ xs, stream.peek n = .ok (.reachedEnd xs) ↔
    ∃ k, 1 ≤ k ∧ k ≤ n ∧ stream.pulls k = xs.map .ok ∧
      ∃ before last, xs = before ++ [last] ∧ (∀ x ∈ before, x.token ≠ .endOfText) ∧
        last.token = .endOfText
  error_iff : ∀ e, stream.peek n = .error e ↔
    ∃ k, 1 ≤ k ∧ k ≤ n ∧ ∃ before : List Lexeme,
      stream.pulls k = before.map .ok ++ [.error e] ∧ ∀ x ∈ before, x.token ≠ .endOfText

variable {stream : Stream} {items later : List (Except Error Lexeme)} {k n : Nat}
  {scanner : Scanner} {text : String}

theorem length_pulls (stream : Stream) (n : Nat) : (stream.pulls n).length = n := by
  induction n generalizing stream with
  | zero => rfl
  | succ n ih => rw [pulls, List.length_cons, ih]

theorem pulls_add (stream : Stream) (k n : Nat) :
    stream.pulls (k + n) = stream.pulls k ++ (stream.drop k).pulls n := by
  induction k generalizing stream with
  | zero => rw [Nat.zero_add, drop, pulls, List.nil_append]
  | succ k ih => rw [Nat.succ_add, pulls, ih, pulls, drop, List.cons_append]

/-- The first items of some pulls are given by fewer pulls. -/
theorem pulls_of_append (h : stream.pulls n = items ++ later) :
    items.length ≤ n ∧ stream.pulls items.length = items := by
  have hlength : n = items.length + later.length := by
    rw [← List.length_append, ← h, length_pulls]
  rw [hlength, pulls_add] at h
  exact ⟨by omega, (List.append_inj h (length_pulls stream _)).1⟩

theorem exists_pulls_eq_append (h : stream.pulls k = items) (hk : k ≤ n) :
    ∃ later, stream.pulls n = items ++ later := by
  obtain ⟨m, rfl⟩ := Nat.exists_eq_add_of_le hk
  exact ⟨(stream.drop k).pulls m, by rw [pulls_add, h]⟩

theorem peek_eq_ofItems (h : stream.isDone = false) (n : Nat) :
    stream.peek n = Peek.ofItems (stream.pulls n) := by
  obtain ⟨scanner, place | stop | f⟩ := stream
  · show scanner.peek place n = _
    clear h
    induction n generalizing place with
    | zero => rfl
    | succ n ih =>
        rw [Scanner.peek, pulls]
        cases hnext : scanner.next place with
        | error f => simp [pull, hnext, Peek.ofItems]
        | ok result =>
            obtain ⟨x, after⟩ := result
            by_cases hx : x.token = .endOfText
            · simp [pull, hnext, hx, Peek.ofItems]
            · simp [pull_of_ok hnext hx, hx, Peek.ofItems, ih]
  · cases h
  · cases h

theorem peek_eq_iff (h : stream.isDone = false) {result : Except Error Peek} :
    stream.peek n = result ↔ Peek.Shows (stream.pulls n) result := by
  rw [peek_eq_ofItems h]
  constructor
  · rintro rfl
    exact Peek.shows_ofItems _
  · exact Peek.Shows.ofItems_eq

theorem foresees (h : stream.isDone = false) (n : Nat) : stream.Foresees n where
  lexemes_iff xs := by
    rw [peek_eq_iff h]
    constructor
    · generalize stream.pulls n = items
      intro hshows
      cases hshows with
      | lexemes xs ne_end => exact ⟨rfl, ne_end⟩
    · rintro ⟨hpulls, ne_end⟩
      rw [hpulls]
      exact .lexemes xs ne_end
  reachedEnd_iff xs := by
    rw [peek_eq_iff h]
    constructor
    · generalize hitems : stream.pulls n = items
      intro hshows
      cases hshows with
      | reachedEnd before ne_end last is_end later =>
        have hsplit : stream.pulls n = (before ++ [last]).map .ok ++ later := by simp [hitems]
        obtain ⟨hle, hpulls⟩ := pulls_of_append hsplit
        exact ⟨_, by simp, hle, hpulls, before, last, rfl, ne_end, is_end⟩
    · rintro ⟨k, -, hk, hpulls, before, last, rfl, ne_end, is_end⟩
      obtain ⟨later, hlater⟩ := exists_pulls_eq_append hpulls hk
      have hsplit : stream.pulls n = before.map .ok ++ .ok last :: later := by simp [hlater]
      rw [hsplit]
      exact .reachedEnd before ne_end last is_end later
  error_iff e := by
    rw [peek_eq_iff h]
    constructor
    · generalize hitems : stream.pulls n = items
      intro hshows
      cases hshows with
      | error before ne_end e later =>
        have hsplit : stream.pulls n = (before.map .ok ++ [.error e]) ++ later := by simp [hitems]
        obtain ⟨hle, hpulls⟩ := pulls_of_append hsplit
        exact ⟨_, by simp, hle, before, hpulls, ne_end⟩
    · rintro ⟨k, -, hk, before, hpulls, ne_end⟩
      obtain ⟨later, hlater⟩ := exists_pulls_eq_append hpulls hk
      have hsplit : stream.pulls n = before.map .ok ++ .error e :: later := by simp [hlater]
      rw [hsplit]
      exact .error before ne_end e later

/-! A stream that is done shows what it came to. -/

theorem drop_of_done (h : ((scanner.stream text).drop n).isDone = true) :
    (scanner.stream text).drop n = finished scanner (scanner.run text) := by
  rcases drop_stream scanner text n with ⟨mid, after, -, hdrop⟩ | ⟨-, hdrop⟩
  · rw [hdrop] at h
    cases h
  · exact hdrop

theorem peek_of_ended {x : Lexeme} (h : ((scanner.stream text).drop n).isDone = true)
    (hlast : (scanner.run text).last = .ok x) (k : Nat) :
    ((scanner.stream text).drop n).position = x.stop ∧
      ((scanner.stream text).drop n).peek k = .ok (.reachedEnd [.endAt x.stop]) := by
  rw [drop_of_done h]
  unfold Run.last at hlast
  unfold finished
  cases hfinal : (scanner.run text).final with
  | error f =>
      rw [hfinal] at hlast
      cases hlast
  | ok result =>
      rw [hfinal] at hlast
      cases hlast
      exact ⟨rfl, rfl⟩

theorem peek_of_failed {e : Error} (h : ((scanner.stream text).drop n).isDone = true)
    (hlast : (scanner.run text).last = .error e) (k : Nat) :
    ((scanner.stream text).drop n).pull.1 = .error e ∧
      ((scanner.stream text).drop n).peek k = .error e := by
  rw [drop_of_done h]
  unfold Run.last at hlast
  unfold finished
  cases hfinal : (scanner.run text).final with
  | error f =>
      rw [hfinal] at hlast
      cases hlast
      exact ⟨rfl, rfl⟩
  | ok result =>
      rw [hfinal] at hlast
      cases hlast

end Stream

/-! ## Peeks in a session -/

namespace Session

def after (session : Session) (requests : List Request) : Session :=
  requests.foldl (fun session request => (session.answer request).2) session

theorem after_stream (session : Session) (requests : List Request) :
    (session.after requests).stream = session.stream.drop (asked requests) := by
  induction requests generalizing session with
  | nil => rfl
  | cons request requests ih =>
      show ((session.answer request).2.after requests).stream = _
      rw [ih, answer_stream, ← Stream.drop_add, asked]

theorem answer_peek (session : Session) (n : Nat) :
    session.answer (.peek n) = (.ofPeek (session.stream.peek n), session) := by
  rw [Session.answer]
  cases session.stream.peek n <;> rfl

theorem answers_append (session : Session) (before later : List Request) :
    session.answers (before ++ later) =
      session.answers before ++ (session.after before).answers later := by
  induction before generalizing session with
  | nil => rfl
  | cons request before ih =>
      simp only [List.cons_append, answers, ih]
      rfl

theorem length_answers (session : Session) (requests : List Request) :
    (session.answers requests).length = requests.length := by
  induction requests generalizing session with
  | nil => rfl
  | cons request requests ih => rw [answers, List.length_cons, ih, List.length_cons]

/-- Without a peek the other requests are answered as with it. -/
theorem answers_eraseIdx_peek (session : Session) (before later : List Request) (n : Nat) :
    (session.answers (before ++ .peek n :: later)).eraseIdx before.length =
      session.answers (before ++ later) := by
  have hlength := length_answers session before
  rw [answers_append, answers, answer_peek, answers_append, ← hlength,
    List.eraseIdx_append_of_length_le (Nat.le_refl _), Nat.sub_self, List.eraseIdx_cons_zero]

/-- Whatever was asked of a stream before, looking ahead shows what pulling would give, and changes
no answer. When the stream is done, it shows the end of the text, or the error that was given. -/
theorem peek_foresees (scanner : Scanner) (text : String) (view : View) (before : List Request)
    (n : Nat) :
    let start : Session := { stream := scanner.stream text, view }
    let session := start.after before
    let stream := session.stream
    (stream.isDone = false ∧ stream.Foresees n ∨
      stream.isDone = true ∧
        ((∃ x, (scanner.run text).last = .ok x ∧ x.token = .endOfText ∧
            x.stop = ({} : Position).after text.toList ∧ stream.position = x.stop ∧
            stream.peek n = .ok (.reachedEnd [.endAt x.stop])) ∨
          ∃ e, (scanner.run text).last = .error e ∧ stream.pull.1 = .error e ∧
            stream.peek n = .error e)) ∧
    (session.answer (.peek n)).1 = .ofPeek (stream.peek n) ∧
    ∀ later, (start.answers (before ++ .peek n :: later)).eraseIdx before.length =
      start.answers (before ++ later) := by
  intro start session stream
  have hstream : stream = (scanner.stream text).drop (asked before) := after_stream start before
  refine ⟨?_, ?_, ?_⟩
  · cases hdone : stream.isDone with
    | false => exact .inl ⟨rfl, Stream.foresees hdone n⟩
    | true =>
      rw [hstream] at hdone ⊢
      refine .inr ⟨rfl, ?_⟩
      rcases Run.last_cases scanner text with ⟨x, hlast, hx, hstop, -⟩ | ⟨e, hlast, -⟩
      · exact .inl ⟨x, hlast, hx, hstop, Stream.peek_of_ended hdone hlast n⟩
      · exact .inr ⟨e, hlast, Stream.peek_of_failed hdone hlast n⟩
  · rw [answer_peek]
  · intro later
    exact answers_eraseIdx_peek start before later n

end Session

end LexDef

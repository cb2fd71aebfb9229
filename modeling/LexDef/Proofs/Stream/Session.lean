import LexDef.Proofs.Scanner.Advance
import LexDef.Proofs.Stream.Items
import LexDef.Stream.Session
/-!
# What a session answers

The answers of a session are told by the run of its text and by how many items were asked for
before, however the requests are mixed.
-/

namespace LexDef

def Request.asks : Request → Nat
  | token | lexeme | next => 1
  | skip count => count
  | peek _ | view _ => 0

def asked : List Request → Nat
  | [] => 0
  | request :: requests => request.asks + asked requests

def View.after (view : View) : Request → View
  | .view view => view
  | .token | .lexeme | .next | .skip _ | .peek _ => view

def Answer.ofPeek : Except Error Peek → Answer
  | .ok peek => .peeked peek
  | .error e => .error e

/-- What is to be answered if `n` items of a run were asked for before. -/
def Run.answer (run : Run) (n : Nat) (view : View) : Request → Answer
  | .token => View.tokens.answer (run.item n)
  | .lexeme => View.lexemes.answer (run.item n)
  | .next => if n < run.items.length then view.answer (run.item n) else .nothing
  | .skip count => .skipped (min count (run.items.length - n))
  | .peek count =>
    .ofPeek (if n < run.items.length then ahead (run.items.drop n) count else ahead [run.again] 1)
  | .view _ => .nothing

namespace Session

variable {scanner : Scanner} {text : String} {view : View} {request : Request} {n : Nat}

theorem answer_stream (session : Session) (request : Request) :
    (session.answer request).2.stream = session.stream.drop request.asks := by
  cases request with
  | token | lexeme => rfl
  | next =>
      rw [Session.answer, Stream.next?_eq]
      rfl
  | skip count => exact Stream.skip_snd session.stream count
  | peek count =>
      rw [Session.answer]
      cases session.stream.peek count <;> rfl
  | view view => rfl

def behind (scanner : Scanner) (text : String) (n : Nat) (view : View) : Session :=
  { stream := (scanner.stream text).drop n, view }

theorem answer_behind (scanner : Scanner) (text : String) (n : Nat) (view : View)
    (request : Request) :
    (behind scanner text n view).answer request =
      ((scanner.run text).answer n view request,
        behind scanner text (n + request.asks) (view.after request)) := by
  have hpull := Stream.pull_drop scanner text n
  have hsnd := Stream.drop_succ (scanner.stream text) n
  cases request with
  | token => simp [Session.answer, behind, Run.answer, hpull, hsnd, Request.asks, View.after]
  | lexeme => simp [Session.answer, behind, Run.answer, hpull, hsnd, Request.asks, View.after]
  | next =>
      simp only [Session.answer, behind, Run.answer, Request.asks, View.after, Stream.next?_eq,
        Stream.isDone_drop, hpull, ← Stream.drop_add]
      by_cases hn : n < (scanner.run text).items.length
      · have hn' : ¬(scanner.run text).items.length ≤ n := Nat.not_le.2 hn
        simp only [decide_eq_true_eq, if_neg hn', if_pos hn]
        rfl
      · have hn' : (scanner.run text).items.length ≤ n := Nat.not_lt.1 hn
        simp only [decide_eq_true_eq, if_pos hn', if_neg hn]
        rfl
  | skip count =>
      simp [Session.answer, behind, Run.answer, Request.asks, View.after, Stream.skip_drop,
        Stream.skip_snd, Stream.drop_add]
  | peek count =>
      simp only [Session.answer, behind, Run.answer, Request.asks, View.after, Stream.peek_drop,
        Nat.add_zero]
      split <;> simp_all [Answer.ofPeek]
  | view view => rfl

theorem asked_concat (requests : List Request) (request : Request) :
    asked (requests ++ [request]) = asked requests + request.asks := by
  induction requests with
  | nil => exact Nat.add_comm _ _
  | cons first requests ih => rw [List.cons_append, asked, ih, asked, Nat.add_assoc]

theorem answers_behind (scanner : Scanner) (text : String) (n : Nat) (view : View)
    (before : List Request) (request : Request) (later : List Request) :
    (answers (behind scanner text n view) (before ++ request :: later))[before.length]? =
      some ((scanner.run text).answer (n + asked before) (before.foldl View.after view) request,
        behind scanner text (n + asked (before ++ [request]))
          ((before ++ [request]).foldl View.after view)) := by
  induction before generalizing n view with
  | nil =>
      simp only [List.nil_append, answers, answer_behind]
      rfl
  | cons first before ih =>
      simp only [List.cons_append, answers, answer_behind, List.length_cons,
        List.getElem?_cons_succ, ih, asked, List.foldl_cons, Nat.add_assoc]

end Session

theorem Run.last_cases (scanner : Scanner) (text : String) :
    (∃ x, (scanner.run text).last = .ok x ∧ x.token = .endOfText ∧
      x.stop = ({} : Position).after text.toList ∧ (scanner.run text).again = .ok (.endAt x.stop)) ∨
    (∃ e, (scanner.run text).last = .error e ∧ (scanner.run text).again = .error e) := by
  obtain ⟨place, hchain, hfinal, hend⟩ := Scanner.exists_chain_run scanner text
  unfold Run.last Run.again Run.stop
  cases hnext : scanner.next place with
  | error f =>
      rw [hfinal, hnext]
      exact .inr ⟨f.error, rfl, rfl⟩
  | ok result =>
      obtain ⟨x, after⟩ := result
      obtain ⟨-, -, -, -, -, hstop⟩ := Scanner.advances_of_next hnext
      obtain ⟨piece, htext, hpos⟩ := hchain.reaches.trans (Scanner.reaches_of_next hnext)
      rw [Scanner.rest_of_next_end hnext (hend x after hnext), List.append_nil] at htext
      rw [hfinal, hnext]
      refine .inl ⟨x, rfl, hend x after hnext, ?_, rfl⟩
      rw [hstop, hpos, ← htext]
      rfl

theorem Run.lexemes_ne_end (scanner : Scanner) (text : String) :
    ∀ x ∈ (scanner.run text).lexemes, x.token ≠ .endOfText := by
  intro x hx
  obtain ⟨_, _, _, _, -, cut⟩ := Scanner.exists_cut_of_mem_run hx
  exact cut.ne_end

theorem mapM_items (xs : List Lexeme) (last : Except Error Lexeme) :
    (xs.map (Except.ok (ε := Error)) ++ [last]).mapM id = last.map fun x => xs ++ [x] := by
  induction xs with
  | nil => cases last <;> simp [Except.map]
  | cons x xs ih =>
      rw [List.map_cons, List.cons_append, List.mapM_cons, ih]
      cases last <;> rfl

theorem lexemes_eq_items (scanner : Scanner) (text : String) :
    scanner.lexemes text = (scanner.run text).items.mapM id := by
  rw [Run.items, mapM_items, Scanner.lexemes, Run.last]
  cases (scanner.run text).final <;> rfl

/-- A session gives the items of the run of its text in order, whatever is asked in between. Each
request is answered as its number tells, the session is done when the last item was taken, and it
stands where the item that was taken last ends. -/
theorem Session.answers_items (scanner : Scanner) (text : String) (view : View)
    (before : List Request) (request : Request) (later : List Request) :
    let run := scanner.run text
    let n := asked before
    (∀ x ∈ run.lexemes, x.token ≠ .endOfText) ∧
    ((∃ x, run.last = .ok x ∧ x.token = .endOfText ∧
        x.stop = ({} : Position).after text.toList ∧ run.again = .ok (.endAt x.stop)) ∨
      ∃ e, run.last = .error e ∧ run.again = .error e) ∧
    scanner.lexemes text = run.items.mapM id ∧
    ∃ session : Session,
      (Session.answers { stream := scanner.stream text, view }
        (before ++ request :: later))[before.length]? =
          some (run.answer n (before.foldl View.after view) request, session) ∧
      (session.stream.isDone = true ↔ run.items.length ≤ n + request.asks) ∧
      session.stream.position = run.position (n + request.asks) := by
  have hanswer := Session.answers_behind scanner text 0 view before request later
  rw [Nat.zero_add, Nat.zero_add, Session.asked_concat] at hanswer
  refine ⟨Run.lexemes_ne_end scanner text, Run.last_cases scanner text,
    lexemes_eq_items scanner text, _, hanswer, ?_, Stream.position_drop scanner text _⟩
  rw [Session.behind, Stream.isDone_drop, decide_eq_true_iff]

end LexDef

import LexDef.Proofs.Scanner.Chain
import LexDef.Stream.Basic
/-!
# The items of a stream

A stream gives the items of a run one by one: its lexemes, then the end of the text or the error,
and from then on what it came to. Whatever is asked of a stream, its state depends only on how many
items were pulled: `Stream.drop`.
-/

namespace LexDef

namespace Run

def last (run : Run) : Except Error Lexeme :=
  match run.final with
  | .ok (x, _) => .ok x
  | .error f => .error f.error

def items (run : Run) : List (Except Error Lexeme) := run.lexemes.map .ok ++ [run.last]

def stop (run : Run) : Position :=
  match run.final with
  | .ok (x, _) => x.stop
  | .error f => f.stop

/-- What is read again and again after a run. -/
def again (run : Run) : Except Error Lexeme :=
  match run.final with
  | .ok _ => .ok (.endAt run.stop)
  | .error f => .error f.error

def item (run : Run) (n : Nat) : Except Error Lexeme := run.items[n]?.getD run.again

def position (run : Run) : Nat → Position
  | 0 => {}
  | n + 1 =>
    match run.item n with
    | .ok x => x.stop
    | .error _ => run.stop

theorem length_items (run : Run) : run.items.length = run.lexemes.length + 1 := by
  simp [items]

end Run

/-- What lies ahead if these items are still to come: as many lexemes as asked for, unless one of
them is an error or they reach the end. -/
def ahead (items : List (Except Error Lexeme)) (n : Nat) : Except Error Peek := do
  let xs ← (items.take n).mapM id
  return if items.length ≤ n then .reachedEnd xs else .lexemes xs

namespace Stream

def drop (stream : Stream) : Nat → Stream
  | 0 => stream
  | n + 1 => stream.pull.2.drop n

variable {stream : Stream} {scanner : Scanner} {text : String} {place mid after : Place}
  {xs : List Lexeme} {x : Lexeme} {f : Failure}

theorem drop_add (stream : Stream) (m n : Nat) :
    stream.drop (m + n) = (stream.drop m).drop n := by
  induction m generalizing stream with
  | zero => rw [Nat.zero_add, drop]
  | succ m ih => rw [Nat.succ_add, drop, drop, ih]

theorem drop_succ (stream : Stream) (n : Nat) : stream.drop (n + 1) = (stream.drop n).pull.2 :=
  drop_add stream n 1

theorem pull_of_isDone (h : stream.isDone = true) : stream.pull.2 = stream := by
  unfold isDone at h
  unfold pull
  split at h <;> simp_all

theorem drop_of_isDone (h : stream.isDone = true) (n : Nat) : stream.drop n = stream := by
  induction n with
  | zero => rfl
  | succ n ih => rw [drop, pull_of_isDone h, ih]

theorem next?_eq (stream : Stream) :
    stream.next? = (if stream.isDone then none else some stream.pull.1, stream.drop 1) := by
  unfold next?
  split
  · rename_i h
    rw [drop_of_isDone h]
  · rfl

theorem skip_of_isDone (h : stream.isDone = true) (n : Nat) : stream.skip n = (0, stream) := by
  cases n with
  | zero => rfl
  | succ n => simp [skip, next?, h]

theorem skip_succ (h : stream.isDone = false) (n : Nat) :
    stream.skip (n + 1) = (((stream.drop 1).skip n).1 + 1, ((stream.drop 1).skip n).2) := by
  rw [skip, next?_eq, h]
  rfl

theorem skip_snd (stream : Stream) (n : Nat) : (stream.skip n).2 = stream.drop n := by
  induction n generalizing stream with
  | zero => rfl
  | succ n ih =>
      cases h : stream.isDone with
      | true => rw [skip_of_isDone h, drop_of_isDone h]
      | false =>
          rw [skip_succ h, ih]
          rfl

/-! ## Where a stream is after some pulls -/

def finished (scanner : Scanner) (run : Run) : Stream :=
  match run.final with
  | .ok (x, _) => { scanner, state := .ended x.stop }
  | .error f => { scanner, state := .failed f }

theorem isDone_finished (scanner : Scanner) (run : Run) : (finished scanner run).isDone = true := by
  unfold finished
  split <;> rfl

theorem pull_of_ok (h : scanner.next place = .ok (x, after)) (hx : x.token ≠ .endOfText) :
    (⟨scanner, .running place⟩ : Stream).pull = (.ok x, ⟨scanner, .running after⟩) := by
  unfold pull
  simp only [h, if_neg hx]

theorem drop_of_chain (h : scanner.Chain place xs after) :
    (⟨scanner, .running place⟩ : Stream).drop xs.length = ⟨scanner, .running after⟩ := by
  induction h with
  | nil place => rfl
  | cons head ne_end tail ih =>
      rw [List.length_cons, drop, pull_of_ok head ne_end]
      exact ih

/-- Behind its last lexeme a run gives its last item and is over. -/
theorem pull_of_final {run : Run} (hfinal : run.final = scanner.next place)
    (hend : ∀ x b, scanner.next place = .ok (x, b) → x.token = .endOfText) :
    (⟨scanner, .running place⟩ : Stream).pull = (run.last, finished scanner run) := by
  unfold pull finished Run.last
  cases h : scanner.next place with
  | error f =>
      rw [h] at hfinal
      simp [h, hfinal]
  | ok result =>
      obtain ⟨x, b⟩ := result
      obtain ⟨gap, -, -, hx⟩ := Scanner.exists_of_next h
      have hstop : x.stop = b.pos := congrArg Lexeme.stop hx
      rw [h] at hfinal
      simp [h, hfinal, hend x b h, hstop]

structure Stands (scanner : Scanner) (text : String) (n : Nat) (mid after : Place) : Prop where
  done : scanner.Chain (.ofString text) ((scanner.run text).lexemes.take n) mid
  todo : scanner.Chain mid ((scanner.run text).lexemes.drop n) after
  final : (scanner.run text).final = scanner.next after
  ends : ∀ x b, scanner.next after = .ok (x, b) → x.token = .endOfText
  le : n ≤ (scanner.run text).lexemes.length

/-- After some pulls a stream stands behind as many lexemes of the run, or it is finished. -/
theorem drop_stream (scanner : Scanner) (text : String) (n : Nat) :
    (∃ mid after, Stands scanner text n mid after ∧
      (scanner.stream text).drop n = ⟨scanner, .running mid⟩) ∨
    ((scanner.run text).lexemes.length < n ∧
      (scanner.stream text).drop n = finished scanner (scanner.run text)) := by
  obtain ⟨after, hchain, hfinal, hend⟩ := Scanner.exists_chain_run scanner text
  by_cases hn : n ≤ (scanner.run text).lexemes.length
  · have hsplit := hchain
    rw [← List.take_append_drop n (scanner.run text).lexemes] at hsplit
    obtain ⟨mid, hdone, htodo⟩ := hsplit.exists_split
    refine .inl ⟨mid, after, ⟨hdone, htodo, hfinal, hend, hn⟩, ?_⟩
    have hdrop := drop_of_chain hdone
    rw [List.length_take, Nat.min_eq_left hn] at hdrop
    exact hdrop
  · refine .inr ⟨Nat.not_le.1 hn, ?_⟩
    obtain ⟨k, hk⟩ := Nat.exists_eq_add_of_lt (Nat.not_le.1 hn)
    have hlast : (scanner.stream text).drop ((scanner.run text).lexemes.length + 1) =
        finished scanner (scanner.run text) := by
      rw [drop_succ, Scanner.stream, drop_of_chain hchain, pull_of_final hfinal hend]
    rw [hk, Nat.add_right_comm, drop_add, hlast, drop_of_isDone (isDone_finished scanner _)]

theorem item_of_lt {run : Run} {n : Nat} (hn : n < run.lexemes.length) :
    run.item n = .ok run.lexemes[n] := by
  rw [Run.item, Run.items, List.getElem?_append_left (by simpa using hn), List.getElem?_map,
    List.getElem?_eq_getElem hn]
  rfl

theorem item_of_eq {run : Run} {n : Nat} (hn : n = run.lexemes.length) :
    run.item n = run.last := by
  simp [Run.item, Run.items, hn]

theorem item_of_gt {run : Run} {n : Nat} (hn : run.lexemes.length < n) :
    run.item n = run.again := by
  rw [Run.item, List.getElem?_eq_none (by rw [Run.length_items]; omega), Option.getD_none]

theorem pull_finished (scanner : Scanner) (run : Run) :
    (finished scanner run).pull.1 = run.again ∧ (finished scanner run).position = run.stop := by
  unfold finished Run.again Run.stop
  cases run.final with
  | ok result => exact ⟨rfl, rfl⟩
  | error f => exact ⟨rfl, rfl⟩

theorem pull_drop (scanner : Scanner) (text : String) (n : Nat) :
    ((scanner.stream text).drop n).pull.1 = (scanner.run text).item n := by
  rcases drop_stream scanner text n with ⟨mid, after, hstands, hdrop⟩ | ⟨hn, hdrop⟩
  · rw [hdrop]
    have htodo := hstands.todo
    rcases Nat.lt_or_eq_of_le hstands.le with hn | hn
    · rw [List.drop_eq_getElem_cons hn] at htodo
      cases htodo with
      | cons head ne_end tail => rw [pull_of_ok head ne_end, item_of_lt hn]
    · rw [hn, List.drop_length] at htodo
      cases htodo
      rw [pull_of_final hstands.final hstands.ends, item_of_eq hn]
  · rw [hdrop, (pull_finished scanner _).1, item_of_gt hn]

theorem isDone_drop (scanner : Scanner) (text : String) (n : Nat) :
    ((scanner.stream text).drop n).isDone = decide ((scanner.run text).items.length ≤ n) := by
  rw [Run.length_items]
  rcases drop_stream scanner text n with ⟨mid, after, hstands, hdrop⟩ | ⟨hn, hdrop⟩
  · have hle := hstands.le
    rw [hdrop, decide_eq_false (by omega)]
    rfl
  · rw [hdrop, isDone_finished, decide_eq_true (by omega)]

theorem position_drop (scanner : Scanner) (text : String) (n : Nat) :
    ((scanner.stream text).drop n).position = (scanner.run text).position n := by
  rcases drop_stream scanner text n with ⟨mid, after, hstands, hdrop⟩ | ⟨hn, hdrop⟩
  · rw [hdrop]
    have hdone := hstands.done
    cases n with
    | zero =>
        cases hdone
        rfl
    | succ n =>
        have hn : n < (scanner.run text).lexemes.length := hstands.le
        rw [List.take_succ_eq_append_getElem hn] at hdone
        rw [Run.position, item_of_lt hn]
        exact hdone.pos_eq
  · rw [hdrop, (pull_finished scanner _).2]
    obtain ⟨k, rfl⟩ : ∃ k, n = k + 1 := ⟨n - 1, by omega⟩
    rw [Run.position]
    rcases Nat.lt_or_eq_of_le (Nat.le_of_lt_succ hn) with hk | hk
    · rw [item_of_gt hk]
      unfold Run.again Run.stop
      cases (scanner.run text).final with
      | ok result => rfl
      | error f => rfl
    · rw [item_of_eq hk.symm]
      unfold Run.last Run.stop
      cases (scanner.run text).final with
      | ok result => rfl
      | error f => rfl

theorem skip_drop (scanner : Scanner) (text : String) (n m : Nat) :
    (((scanner.stream text).drop n).skip m).1 = min m ((scanner.run text).items.length - n) := by
  induction m generalizing n with
  | zero => rw [skip, Nat.zero_min]
  | succ m ih =>
      have hdone := isDone_drop scanner text n
      by_cases hn : (scanner.run text).items.length ≤ n
      · rw [decide_eq_true hn] at hdone
        rw [skip_of_isDone hdone]
        simp only
        omega
      · rw [decide_eq_false hn] at hdone
        rw [skip_succ hdone, ← drop_add, ih]
        simp only
        omega

theorem ahead_cons (x : Lexeme) (items : List (Except Error Lexeme)) (n : Nat) :
    ahead (.ok x :: items) (n + 1) = (ahead items n).map (.cons x) := by
  unfold ahead
  rw [List.take_succ_cons, List.mapM_cons, List.length_cons]
  cases (items.take n).mapM id with
  | error e => rfl
  | ok xs =>
      by_cases hn : items.length ≤ n
      · have hn' : items.length + 1 ≤ n + 1 := by omega
        simp only [hn, hn']
        rfl
      · have hn' : ¬items.length + 1 ≤ n + 1 := by omega
        simp only [hn, hn']
        rfl

theorem peek_of_chain {run : Run} (h : scanner.Chain mid xs after)
    (hfinal : run.final = scanner.next after)
    (hend : ∀ x b, scanner.next after = .ok (x, b) → x.token = .endOfText) (n : Nat) :
    scanner.peek mid n = ahead (xs.map .ok ++ [run.last]) n := by
  induction n generalizing mid xs with
  | zero =>
      have hpos : ¬(xs.map Except.ok ++ [run.last]).length ≤ 0 := by simp
      simp only [Scanner.peek, ahead, List.take_zero, List.mapM_nil, hpos]
      rfl
  | succ n ih =>
      rw [Scanner.peek]
      cases h with
      | nil =>
          cases hnext : scanner.next after with
          | error f =>
              rw [hnext] at hfinal
              simp [ahead, Run.last, hfinal]
          | ok result =>
              obtain ⟨x, b⟩ := result
              rw [hnext] at hfinal
              simp [ahead, Run.last, hfinal, hend x b hnext]
      | cons head ne_end tail =>
          simp only [head, if_neg ne_end]
          rw [List.map_cons, List.cons_append, ahead_cons, ih tail]

theorem peek_drop (scanner : Scanner) (text : String) (n m : Nat) :
    ((scanner.stream text).drop n).peek m =
      if n < (scanner.run text).items.length then ahead ((scanner.run text).items.drop n) m
      else ahead [(scanner.run text).again] 1 := by
  rw [Run.length_items]
  rcases drop_stream scanner text n with ⟨mid, after, hstands, hdrop⟩ | ⟨hn, hdrop⟩
  · have hle := hstands.le
    have hlen : n ≤ ((scanner.run text).lexemes.map (Except.ok (ε := Error))).length := by simpa
    rw [hdrop, if_pos (by omega), Run.items, List.drop_append_of_le_length hlen, ← List.map_drop]
    exact peek_of_chain hstands.todo hstands.final hstands.ends m
  · rw [hdrop, if_neg (by omega)]
    unfold finished peek Run.again Run.stop
    cases hfinal : (scanner.run text).final with
    | error f => simp [ahead]
    | ok result => simp [ahead]

end Stream

end LexDef

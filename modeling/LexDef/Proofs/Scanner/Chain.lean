import LexDef.Proofs.Scanner.Advance
import LexDef.Proofs.Scanner.Locality
import LexDef.Scanner.Run
/-!
# Chains of lexemes

A run reads lexemes one behind the other up to the place where it ends. The lexemes of a chain are
read again from any text that starts with the same characters: `Chain.append`.
-/

namespace LexDef.Scanner

/-- Lexemes that are read one behind the other on the way from one place to another. -/
inductive Chain (scanner : Scanner) : Place → List Lexeme → Place → Prop where
  | nil (place : Place) : Chain scanner place [] place
  | cons {place mid after : Place} {x : Lexeme} {xs : List Lexeme}
      (head : scanner.next place = .ok (x, mid)) (ne_end : x.token ≠ .endOfText)
      (tail : Chain scanner mid xs after) : Chain scanner place (x :: xs) after

variable {scanner : Scanner} {place mid after : Place} {p q : Position} {x last : Lexeme}
  {xs ys : List Lexeme} {s rest' : List Char} {f : Failure}

namespace Chain

theorem reaches (h : Chain scanner place xs after) : place.Reaches after := by
  induction h with
  | nil place => exact .refl place
  | cons head ne_end tail ih => exact (reaches_of_next head).trans ih

theorem advances (h : Chain scanner place xs after) : Advances scanner ⟨[], place⟩ ⟨[], after⟩ := by
  induction h with
  | nil place => exact .refl
  | cons head ne_end tail ih => exact (advances_of_next_ne_end head ne_end).trans ih

theorem trans (h : Chain scanner place xs mid) (h' : Chain scanner mid ys after) :
    Chain scanner place (xs ++ ys) after := by
  induction h with
  | nil place => exact h'
  | cons head ne_end tail ih => exact .cons head ne_end (ih h')

theorem exists_cut (h : Chain scanner place xs after) (hx : x ∈ xs) :
    ∃ a b gap piece, place.Reaches a ∧ Cut scanner a x b gap piece ∧ b.Reaches after := by
  induction h with
  | nil place => cases hx
  | @cons place mid after y ys head ne_end tail ih =>
      rcases List.mem_cons.1 hx with rfl | hx
      · obtain ⟨gap, piece, cut⟩ := Scanner.exists_cut head ne_end
        exact ⟨place, mid, gap, piece, .refl place, cut, tail.reaches⟩
      · obtain ⟨a, b, gap, piece, ha, cut, hb⟩ := ih hx
        exact ⟨a, b, gap, piece, (reaches_of_next head).trans ha, cut, hb⟩

theorem exists_split (h : Chain scanner place (xs ++ ys) after) :
    ∃ mid, Chain scanner place xs mid ∧ Chain scanner mid ys after := by
  induction xs generalizing place with
  | nil => exact ⟨place, .nil place, h⟩
  | cons x xs ih =>
      cases h with
      | cons head ne_end tail =>
          obtain ⟨mid, hfirst, hsecond⟩ := ih tail
          exact ⟨mid, .cons head ne_end hfirst, hsecond⟩

theorem pos_eq (h : Chain scanner place (xs ++ [x]) after) : after.pos = x.stop := by
  obtain ⟨mid, -, hlast⟩ := h.exists_split
  cases hlast with
  | cons head ne_end tail =>
      cases tail
      obtain ⟨gap, piece, cut⟩ := Scanner.exists_cut head ne_end
      exact cut.pos

theorem exists_take (h : Chain scanner place xs after) {j : Nat} (hj : j < xs.length) :
    ∃ mid, Chain scanner place (xs.take (j + 1)) mid ∧ mid.pos = xs[j].stop := by
  rw [← List.take_append_drop (j + 1) xs] at h
  obtain ⟨mid, hfirst, -⟩ := h.exists_split
  refine ⟨mid, hfirst, ?_⟩
  rw [List.take_succ_eq_append_getElem hj] at hfirst
  exact hfirst.pos_eq

theorem append (h : Chain scanner place xs after) (hs : place.rest = s ++ after.rest)
    (hrest : Follows after.rest rest') :
    Chain scanner ⟨place.pos, s ++ rest'⟩ xs ⟨after.pos, rest'⟩ := by
  induction h generalizing s with
  | nil place =>
      obtain rfl : s = [] := by simpa using hs
      exact .nil _
  | @cons place mid after y ys head ne_end tail ih =>
      obtain ⟨gap, piece, cut⟩ := Scanner.exists_cut head ne_end
      obtain ⟨u, hu, -⟩ := tail.reaches
      obtain rfl : s = gap ++ (piece ++ u) := by
        refine List.append_cancel_right (hs.symm.trans ?_)
        rw [cut.rest, hu, List.append_assoc, List.append_assoc]
      have hfollows : Follows mid.rest (u ++ rest') := hu ▸ hrest.append u
      have hnext := cut.next_append hfollows place.pos
      rw [← cut.start, ← cut.stop, ← cut.pos] at hnext
      have htail := ih hu hrest
      rw [List.append_assoc, List.append_assoc]
      refine .cons ?_ ne_end htail
      rw [hnext, cut.pos]

theorem pairwise (h : Chain scanner place xs after) :
    xs.Pairwise fun x y => x.stop.offset ≤ y.start.offset := by
  induction h with
  | nil place => exact List.Pairwise.nil
  | @cons place mid after x xs head ne_end tail ih =>
      refine List.pairwise_cons.2 ⟨fun y hy => ?_, ih⟩
      obtain ⟨_, _, cut⟩ := Scanner.exists_cut head ne_end
      obtain ⟨a, _, gap, _, ha, cut', -⟩ := tail.exists_cut hy
      have hreach := ha.le.1
      have hgap := (Position.le_after a.pos gap).1
      rw [cut.pos] at hreach
      rw [← cut'.start] at hgap
      omega

end Chain

/-- A run is a chain up to the place where it ends, and what is read there. -/
theorem exists_chain (scanner : Scanner) (place : Place) :
    ∃ after, Chain scanner place (scanner.runFrom place).lexemes after ∧
      (scanner.runFrom place).final = scanner.next after ∧
      ∀ x b, scanner.next after = .ok (x, b) → x.token = .endOfText := by
  fun_induction runFrom scanner place with
  | case1 place f h => exact ⟨place, .nil place, h.symm, fun x b hx => by simp [h] at hx⟩
  | case2 place x after h hx =>
      refine ⟨place, .nil place, h.symm, fun y b hy => ?_⟩
      rw [h] at hy
      cases hy
      exact hx
  | case3 place x mid h hx _ run ih =>
      obtain ⟨after, hchain, hfinal⟩ := ih
      exact ⟨after, .cons h hx hchain, hfinal⟩

theorem exists_chain_run (scanner : Scanner) (text : String) :
    ∃ after, Chain scanner (.ofString text) (scanner.run text).lexemes after ∧
      (scanner.run text).final = scanner.next after ∧
      ∀ x b, scanner.next after = .ok (x, b) → x.token = .endOfText :=
  exists_chain scanner (.ofString text)

theorem exists_cut_of_mem_run {text : String} (hx : x ∈ (scanner.run text).lexemes) :
    ∃ a b gap piece, (Place.ofString text).Reaches a ∧ Cut scanner a x b gap piece := by
  obtain ⟨after, hchain, -⟩ := exists_chain_run scanner text
  obtain ⟨a, b, gap, piece, ha, cut, -⟩ := hchain.exists_cut hx
  exact ⟨a, b, gap, piece, ha, cut⟩

theorem next_end (scanner : Scanner) (p : Position) :
    scanner.next ⟨p, []⟩ = .ok (.endAt p, ⟨p, []⟩) := by
  have hgap : scanner.skipGap p [] = .ok ⟨p, []⟩ := skipGap_of_not_startsGap scanner p rfl
  rw [next, hgap]
  rfl

/-- What a run reads depends on its place only through the first lexeme. -/
theorem runFrom_congr (h : scanner.next place = scanner.next after) :
    scanner.runFrom place = scanner.runFrom after := by
  cases hnext : scanner.next after with
  | error f =>
      rw [hnext] at h
      rw [runFrom_of_error h, runFrom_of_error hnext]
  | ok result =>
      obtain ⟨x, b⟩ := result
      rw [hnext] at h
      by_cases hx : x.token = .endOfText
      · rw [runFrom_of_end h hx, runFrom_of_end hnext hx]
      · rw [runFrom_of_ok h hx, runFrom_of_ok hnext hx]

theorem Chain.runFrom_eq (h : Chain scanner place xs after) :
    scanner.runFrom place =
      { scanner.runFrom after with lexemes := xs ++ (scanner.runFrom after).lexemes } := by
  induction h with
  | nil place => rfl
  | cons head ne_end tail ih =>
      rw [runFrom_of_ok head ne_end, ih]
      rfl

theorem lexemes_of_final {text : String} (h : (scanner.run text).final = .ok (last, after)) :
    scanner.lexemes text = .ok ((scanner.run text).lexemes ++ [last]) := by
  simp only [lexemes, h]

theorem lexemes_of_final_error {text : String} (h : (scanner.run text).final = .error f) :
    scanner.lexemes text = .error f.error := by
  simp only [lexemes, h]

/-- A chain with a gap behind it up to the end of a text gives all its lexemes. -/
theorem Chain.lexemes_eq (h : Chain scanner ⟨{}, s⟩ xs after)
    (hgap : scanner.skipGap after.pos after.rest = .ok ⟨p, []⟩) :
    scanner.lexemes (String.ofList s) = .ok (xs ++ [.endAt p]) := by
  have hend : scanner.next after = .ok (.endAt p, ⟨p, []⟩) := next_of_token hgap rfl
  have hrun := h.runFrom_eq
  rw [runFrom_of_end hend rfl] at hrun
  rw [lexemes, run, Place.ofString, String.toList_ofList, hrun]
  simp

theorem Chain.lexemes_error (h : Chain scanner ⟨{}, s⟩ xs after)
    (hnext : scanner.next after = .error f) :
    scanner.lexemes (String.ofList s) = .error f.error := by
  have hrun := h.runFrom_eq
  rw [runFrom_of_error hnext] at hrun
  rw [lexemes, run, Place.ofString, String.toList_ofList, hrun]

theorem exists_of_lexemes_ok {text : String} (h : scanner.lexemes text = .ok (xs ++ [last])) :
    ∃ mid after, Chain scanner (.ofString text) xs mid ∧ scanner.next mid = .ok (last, after) ∧
      last.token = .endOfText := by
  obtain ⟨mid, hchain, hfinal, hend⟩ := exists_chain_run scanner text
  cases hnext : scanner.next mid with
  | error f =>
      rw [lexemes_of_final_error (hfinal.trans hnext)] at h
      cases h
  | ok result =>
      obtain ⟨x, after⟩ := result
      rw [lexemes_of_final (hfinal.trans hnext), Except.ok.injEq, List.append_singleton_inj] at h
      obtain ⟨rfl, rfl⟩ := h
      exact ⟨mid, after, hchain, hnext, hend x after hnext⟩

theorem exists_of_lexemes_error {text : String} {e : Error}
    (h : scanner.lexemes text = .error e) :
    ∃ f, (scanner.run text).final = .error f ∧ f.error = e := by
  cases hfinal : (scanner.run text).final with
  | error f =>
      rw [lexemes_of_final_error hfinal] at h
      exact ⟨f, rfl, Except.error.inj h⟩
  | ok result =>
      rw [lexemes_of_final hfinal] at h
      cases h

theorem exists_reader_of_lexemes_error {text : String} {e : Error}
    (h : scanner.lexemes text = .error e) :
    ∃ a f, Advances scanner ⟨[], .ofString text⟩ a ∧ Halts scanner a f ∧ f.error = e := by
  obtain ⟨place, hchain, hfinal, -⟩ := exists_chain_run scanner text
  obtain ⟨f, hf, he⟩ := exists_of_lexemes_error h
  rw [hf] at hfinal
  obtain ⟨a, hmoves, hhalts⟩ := failsFrom_of_next hfinal.symm
  exact ⟨a, f, hchain.advances.trans hmoves, hhalts, he⟩

end LexDef.Scanner

import LexDef.Proofs.Region.Continuation
import LexDef.Proofs.Region.Locality
import LexDef.Proofs.Scanner.Gap
import LexDef.Proofs.Scanner.Token
/-!
# Counting comments

Comments can be passed without a stack: one pass that counts the open comments, takes string and
character literals as wholes and every other character alone finds where the outermost comment
closes. Reading the open comments does what this pass says: `read_comments`.
-/

namespace LexDef.Comment

open Region (read modes Leads leads_of_step leads_of_closer leads_of_opener commentStep_of_some
  commentStep_of_none read_of_opener_too_deep read_eq_ok_iff read_eq_error_iff)
open Scanner (exists_of_stringToken read_of_stringToken_error)

variable {scanner : Scanner} {limit : Nat} {p : Position} {s rest : List Char} {c : Char}
  {t : Token} {place : Place} {f : Failure} {form : CharForm}

/-- The number of open comments, with the places where it last rose to each number. The places take
no part in the count. -/
structure Count where
  depth : Nat := 1
  start : Nat → Position

inductive Ending where
  /-- The count came down to zero at a delimiter before `place`. -/
  | closed (place : Place)
  /-- The string literal at `quote` cannot be read. -/
  | refused (count : Count) (quote : Position) (failure : Failure)
  /-- The delimiter at `position` would have opened one region too many. -/
  | tooDeep (count : Count) (kind : Region.Kind) (position : Position)
  | ended (count : Count) (position : Position)

namespace Count

def first (p : Position) : Count := { start := fun _ => p }

def up (n : Count) (p : Position) : Count where
  depth := n.depth + 1
  start k := if k = n.depth + 1 then p else n.start k

def down (n : Count) : Count := { n with depth := n.depth - 1 }

def pass (scanner : Scanner) (n : Count) (p : Position) (s : List Char) : Ending :=
  match s with
  | [] => .ended n p
  | '*' :: ')' :: s =>
    if n.depth = 1 then .closed ⟨p.after ['*', ')'], s⟩
    else pass scanner n.down (p.after ['*', ')']) s
  | '(' :: '*' :: s =>
    if n.depth < scanner.maxNesting then pass scanner (n.up p) (p.after ['(', '*']) s
    else .tooDeep n .comment p
  | '"' :: s =>
    if n.depth < scanner.maxNesting then
      match _ : scanner.stringToken p s with
      | .error f => .refused n p f
      | .ok (_, place) => pass scanner n place.pos place.rest
    else .tooDeep n .string p
  | '\'' :: s =>
    match _ : CharForm.ofText? ('\'' :: s) with
    | some (form, rest) => pass scanner n (p.after form.spelling) rest
    | none => pass scanner n (p.next '\'') s
  | c :: s => pass scanner n (p.next c) s
termination_by s.length
decreasing_by
  · simp only [List.length_cons]
    omega
  · simp only [List.length_cons]
    omega
  · rename_i h
    obtain ⟨text, hread⟩ := exists_of_stringToken h
    exact Nat.lt_succ_of_le (Region.reaches_of_read hread).length_le
  · rename_i h
    have hlen := congrArg List.length (CharForm.eq_of_ofText? h)
    simp only [CharForm.spelling, List.length_cons, List.length_append] at hlen
    simp only [List.length_cons]
    omega
  · simp
  · simp

/-- The first `k` comments of a count, innermost first. -/
def comments (n : Count) : Nat → List Region
  | 0 => []
  | k + 1 => ⟨.comment, n.start (k + 1)⟩ :: n.comments k

@[simp] theorem length_comments (n : Count) (k : Nat) : (n.comments k).length = k := by
  induction k with
  | zero => rfl
  | succ k ih => rw [comments, List.length_cons, ih]

theorem comments_up (n : Count) (p : Position) {k : Nat} (hk : k ≤ n.depth) :
    (n.up p).comments k = n.comments k := by
  induction k with
  | zero => rfl
  | succ k ih =>
      have hstart : (n.up p).start (k + 1) = n.start (k + 1) := if_neg (by omega)
      rw [comments, comments, hstart, ih (by omega)]

def regions (n : Count) : List Region := n.comments n.depth

@[simp] theorem length_regions (n : Count) : n.regions.length = n.depth := n.length_comments n.depth

theorem regions_first (p : Position) : (first p).regions = [⟨.comment, p⟩] := rfl

theorem regions_up (n : Count) (p : Position) : (n.up p).regions = ⟨.comment, p⟩ :: n.regions := by
  have hstart : (n.up p).start (n.depth + 1) = p := if_pos rfl
  change ⟨.comment, (n.up p).start (n.depth + 1)⟩ :: (n.up p).comments n.depth = _
  rw [hstart, comments_up n p (Nat.le_refl _), regions]

theorem comments_down (n : Count) (k : Nat) : n.down.comments k = n.comments k := by
  induction k with
  | zero => rfl
  | succ k ih => rw [comments, comments, ih, down]

theorem regions_of_pos {n : Count} (h : 0 < n.depth) :
    n.regions = ⟨.comment, n.start n.depth⟩ :: n.down.regions := by
  obtain ⟨k, hk⟩ : ∃ k, n.depth = k + 1 := ⟨n.depth - 1, by omega⟩
  have hdown : n.down.regions = n.comments k := by
    rw [regions, comments_down, down, hk, Nat.add_sub_cancel]
  rw [hdown, regions, hk, comments]

end Count

/-- What an ending says about the place behind the comments, if at most `limit` regions may be
open. -/
def Ending.outcome (limit : Nat) : Ending → Except Failure Place
  | closed place => .ok place
  | refused n _ f => .error (f.inside (modes n.regions))
  | tooDeep n k q =>
    .error { error := { fault := .tooDeep limit q, enclosing := modes n.regions },
             stop := q.after k.opener }
  | ended n q =>
    .error { error := { fault := .unterminated ⟨.comment, n.start n.depth⟩,
                        enclosing := modes n.down.regions },
             stop := q }

/-! A count agrees with the regions that are open, step by step. -/

section

variable {n : Count} (hpos : 0 < n.depth)
include hpos

theorem leads_down (limit : Nat) (p : Position) (s : List Char) :
    Leads limit n.regions ⟨p, '*' :: ')' :: s⟩ [] n.down.regions ⟨p.after ['*', ')'], s⟩ := by
  rw [Count.regions_of_pos hpos]
  exact leads_of_closer limit ⟨.comment, n.start n.depth⟩ n.down.regions p s

theorem exists_leads_up (hlt : n.depth < limit) (p : Position) (s : List Char) :
    ∃ text, Leads limit n.regions ⟨p, '(' :: '*' :: s⟩ text (n.up p).regions
      ⟨p.after ['(', '*'], s⟩ := by
  rw [← n.length_regions] at hlt
  rw [Count.regions_up]
  rw [Count.regions_of_pos hpos] at hlt ⊢
  exact leads_of_opener (k := .comment) rfl hlt p s

theorem read_of_too_deep (hle : limit ≤ n.depth) {k : Region.Kind} (hk : k.host = .comment)
    (p : Position) (s : List Char) :
    read limit n.regions p (k.opener ++ s) =
      .error { error := { fault := .tooDeep limit p, enclosing := modes n.regions },
               stop := p.after k.opener } := by
  rw [← n.length_regions] at hle
  rw [Count.regions_of_pos hpos] at hle ⊢
  exact read_of_opener_too_deep hk hle p s

theorem exists_leads_of_string (hlt : n.depth < limit)
    (hstring : scanner.stringToken p s = .ok (t, place)) :
    ∃ text, Leads limit n.regions ⟨p, '"' :: s⟩ text n.regions place := by
  obtain ⟨text, hread⟩ := exists_of_stringToken hstring
  rw [← n.length_regions] at hlt
  rw [Count.regions_of_pos hpos] at hlt ⊢
  obtain ⟨first, hopen⟩ := leads_of_opener (k := .string) rfl hlt p s
  exact ⟨first ++ text, hopen.trans ((read_eq_ok_iff.1 hread).leads_of_string rfl limit _)⟩

theorem read_of_refused_string (hlt : n.depth < limit)
    (hstring : scanner.stringToken p s = .error f) :
    read limit n.regions p ('"' :: s) = .error (f.inside (modes n.regions)) := by
  have hfails := read_eq_error_iff.1 (read_of_stringToken_error hstring)
  rw [← n.length_regions] at hlt
  rw [Count.regions_of_pos hpos] at hlt ⊢
  obtain ⟨first, hopen⟩ := leads_of_opener (k := .string) rfl hlt p s
  exact hopen.read_error ((hfails.of_string rfl).2 limit _).read_eq

theorem leads_of_form (hform : CharForm.ofText? ('\'' :: s) = some (form, rest)) (limit : Nat)
    (p : Position) :
    Leads limit n.regions ⟨p, '\'' :: s⟩ [] n.regions ⟨p.after form.spelling, rest⟩ := by
  have hs : s = form.body ++ ['\''] ++ rest := (List.cons.inj (CharForm.eq_of_ofText? hform)).2
  have hlen : form.body.length + 1 = (form.body ++ ['\'']).length := by simp
  have hafter : ({ more := form.body.length + 1 } : Region.Step).after p '\'' s =
      ⟨p.after form.spelling, rest⟩ := by
    rw [Region.Step.after, hs, hlen, List.take_left, List.drop_left]
    rfl
  rw [Count.regions_of_pos hpos, ← hafter]
  exact leads_of_step (congrArg Except.ok (commentStep_of_some p hform)) rfl

theorem leads_of_alone (hstep : Region.commentStep p c s = {}) (limit : Nat) :
    Leads limit n.regions ⟨p, c :: s⟩ [] n.regions ⟨p.next c, s⟩ := by
  have hstep' : Region.step ⟨.comment, n.start n.depth⟩ p c s = .ok {} := congrArg Except.ok hstep
  rw [Count.regions_of_pos hpos]
  exact leads_of_step hstep' rfl

end

theorem commentStep_of_other (hclose : ∀ u, c = '*' → s = ')' :: u → False)
    (hopen : ∀ u, c = '(' → s = '*' :: u → False) (hstring : c = '"' → False)
    (hquote : c = '\'' → False) (p : Position) : Region.commentStep p c s = {} := by
  unfold Region.commentStep
  split <;> simp_all

/-- Reading the open comments does what the pass says. -/
theorem read_comments (n : Count) (p : Position) (s : List Char) (hpos : 0 < n.depth)
    (hle : n.depth ≤ scanner.maxNesting) :
    (read scanner.maxNesting n.regions p s).map Prod.snd =
      (n.pass scanner p s).outcome scanner.maxNesting := by
  -- while the pass goes on, the count is not zero, so some comment is open and takes the step
  fun_induction Count.pass scanner n p s with
  | case1 n p =>
      rw [Count.regions_of_pos hpos, Region.read_end]
      rfl
  | case2 n p s hone =>
      have hnil : n.down.regions = [] := by
        rw [← List.length_eq_zero_iff, Count.length_regions, Count.down, hone]
      have hleads := leads_down hpos scanner.maxNesting p s
      rw [hnil] at hleads
      refine hleads.map_snd.trans ?_
      rw [Region.read_nil]
      rfl
  | case3 n p s hone ih =>
      have hdepth : n.down.depth = n.depth - 1 := rfl
      exact (leads_down hpos _ p s).map_snd.trans (ih (by omega) (by omega))
  | case4 n p s hlt ih =>
      obtain ⟨text, hleads⟩ := exists_leads_up hpos hlt p s
      exact hleads.map_snd.trans (ih (Nat.succ_pos _) hlt)
  | case5 n p s hlt =>
      have hrefused := read_of_too_deep hpos (Nat.not_lt.1 hlt) (k := .comment) rfl p s
      exact congrArg (Except.map Prod.snd) hrefused
  | case6 n p s hlt f hstring =>
      exact congrArg (Except.map Prod.snd) (read_of_refused_string hpos hlt hstring)
  | case7 n p s hlt t place hstring ih =>
      obtain ⟨text, hleads⟩ := exists_leads_of_string hpos hlt hstring
      exact hleads.map_snd.trans (ih hpos hle)
  | case8 n p s hlt =>
      have hrefused := read_of_too_deep hpos (Nat.not_lt.1 hlt) (k := .string) rfl p s
      exact congrArg (Except.map Prod.snd) hrefused
  | case9 n p s form rest hform ih =>
      exact (leads_of_form hpos hform _ p).map_snd.trans (ih hpos hle)
  | case10 n p s hform ih =>
      have hleads := leads_of_alone hpos (commentStep_of_none p hform) scanner.maxNesting
      exact hleads.map_snd.trans (ih hpos hle)
  | case11 n p c s hclose hopen hstring hquote ih =>
      have hstep := commentStep_of_other hclose hopen hstring hquote p
      exact (leads_of_alone hpos hstep _).map_snd.trans (ih hpos hle)

def Ending.Fits (scanner : Scanner) (p : Position) (s : List Char) : Ending → Prop
  | closed place => ∃ comment, s = comment ++ '*' :: ')' :: place.rest ∧
      place.pos = p.after (comment ++ ['*', ')'])
  | refused _ q f => ∃ before u, s = before ++ '"' :: u ∧ q = p.after before ∧
      scanner.stringToken q u = .error f
  | tooDeep n k q => n.depth = scanner.maxNesting ∧ k.host = .comment ∧
      ∃ before u, s = before ++ k.opener ++ u ∧ q = p.after before
  | ended _ q => q = p.after s

theorem Ending.Fits.append {e : Ending} (piece : List Char)
    (h : e.Fits scanner (p.after piece) s) : e.Fits scanner p (piece ++ s) := by
  cases e with
  | closed place =>
      obtain ⟨comment, rfl, hpos⟩ := h
      refine ⟨piece ++ comment, by simp, ?_⟩
      rw [hpos, ← Position.after_append, List.append_assoc]
  | refused n q f =>
      obtain ⟨before, u, rfl, rfl, hstring⟩ := h
      rw [← Position.after_append] at hstring ⊢
      exact ⟨piece ++ before, u, by simp, rfl, hstring⟩
  | tooDeep n k q =>
      obtain ⟨hdepth, hk, before, u, rfl, rfl⟩ := h
      refine ⟨hdepth, hk, piece ++ before, u, by simp, ?_⟩
      rw [← Position.after_append]
  | ended n q =>
      rw [Fits, Position.after_append]
      exact h

theorem pass_fits (n : Count) (p : Position) (s : List Char) (hpos : 0 < n.depth)
    (hle : n.depth ≤ scanner.maxNesting) : (n.pass scanner p s).Fits scanner p s := by
  fun_induction Count.pass scanner n p s with
  | case1 n p => rfl
  | case2 n p s hone => exact ⟨[], rfl, rfl⟩
  | case3 n p s hone ih =>
      have hdepth : n.down.depth = n.depth - 1 := rfl
      exact (ih (by omega) (by omega)).append _
  | case4 n p s hlt ih => exact (ih (Nat.succ_pos _) hlt).append _
  | case5 n p s hlt => exact ⟨by omega, rfl, [], s, rfl, rfl⟩
  | case6 n p s hlt f hstring => exact ⟨[], s, rfl, rfl, hstring⟩
  | case7 n p s hlt t place hstring ih =>
      obtain ⟨text, hread⟩ := exists_of_stringToken hstring
      obtain ⟨piece, hs, hplace⟩ := Region.reaches_of_read hread
      simp only at hs hplace
      have h := ih hpos hle
      rw [hplace, ← Position.after_cons] at h ⊢
      rw [hs, ← List.cons_append]
      exact h.append _
  | case8 n p s hlt => exact ⟨by omega, rfl, [], s, rfl, rfl⟩
  | case9 n p s form rest hform ih =>
      rw [CharForm.eq_of_ofText? hform]
      exact (ih hpos hle).append _
  | case10 n p s hform ih => exact Ending.Fits.append ['\''] (ih hpos hle)
  | case11 n p c s hclose hopen hstring hquote ih => exact Ending.Fits.append [c] (ih hpos hle)

theorem skipGap_of_comment (scanner : Scanner) (p : Position) (s : List Char) :
    scanner.skipGap p ('(' :: '*' :: s) =
      (((Count.first p).pass scanner (p.after ['(', '*']) s).outcome scanner.maxNesting).bind
        fun place => scanner.skipGap place.pos place.rest := by
  have hread := read_comments (Count.first p) (p.after ['(', '*']) s Nat.one_pos
    scanner.maxNesting_pos
  rw [Count.regions_first] at hread
  rw [Scanner.skipGap_comment_bind, ← hread]
  cases read scanner.maxNesting [⟨.comment, p⟩] (p.after ['(', '*']) s <;> rfl

/-- What a comment does, told by the pass that counts. It takes the text up to the delimiter at which
the count comes down to zero, and reading goes on there without a token. Otherwise the error names
the comments that are open. -/
theorem next_comment (scanner : Scanner) (p : Position) (s : List Char) :
    match (Count.first p).pass scanner (p.after ['(', '*']) s with
    | .closed place =>
        (∃ comment, s = comment ++ '*' :: ')' :: place.rest ∧
          place.pos = p.after ('(' :: '*' :: comment ++ ['*', ')'])) ∧
        scanner.next ⟨p, '(' :: '*' :: s⟩ = scanner.next place
    | .refused n quote f =>
        (∃ before u, s = before ++ '"' :: u ∧ quote = p.after ('(' :: '*' :: before) ∧
          scanner.stringToken quote u = .error f) ∧
        (f.error = { fault := .unterminated ⟨.string, quote⟩ } ∨
          ∃ code q, 255 < code ∧ f.error = { fault := .codeTooLarge code, location := some q }) ∧
        scanner.next ⟨p, '(' :: '*' :: s⟩ = .error (f.inside (modes n.regions))
    | .tooDeep n k q =>
        n.depth = scanner.maxNesting ∧ k.host = .comment ∧
        (∃ before u, s = before ++ k.opener ++ u ∧ q = p.after ('(' :: '*' :: before)) ∧
        scanner.next ⟨p, '(' :: '*' :: s⟩ = .error
          { error := { fault := .tooDeep scanner.maxNesting q, enclosing := modes n.regions },
            stop := q.after k.opener }
    | .ended n q =>
        q = p.after ('(' :: '*' :: s) ∧
        scanner.next ⟨p, '(' :: '*' :: s⟩ = .error
          { error := { fault := .unterminated ⟨.comment, n.start n.depth⟩,
                       enclosing := modes n.down.regions },
            stop := q } := by
  have hfits := pass_fits (Count.first p) (p.after ['(', '*']) s Nat.one_pos scanner.maxNesting_pos
  have hgap := skipGap_of_comment scanner p s
  cases hpass : (Count.first p).pass scanner (p.after ['(', '*']) s with
  | closed place =>
      rw [hpass] at hfits hgap
      exact ⟨hfits, Scanner.next_of_skipGap hgap⟩
  | refused n quote f =>
      rw [hpass] at hfits hgap
      obtain ⟨before, u, hs, hquote, hstring⟩ := hfits
      have hfails := read_eq_error_iff.1 (read_of_stringToken_error hstring)
      exact ⟨⟨before, u, hs, hquote, hstring⟩, (hfails.of_string rfl).1,
        Scanner.next_of_gap_error hgap⟩
  | tooDeep n k q =>
      rw [hpass] at hfits hgap
      obtain ⟨hdepth, hk, hplace⟩ := hfits
      exact ⟨hdepth, hk, hplace, Scanner.next_of_gap_error hgap⟩
  | ended n q =>
      rw [hpass] at hfits hgap
      exact ⟨hfits, Scanner.next_of_gap_error hgap⟩

end LexDef.Comment

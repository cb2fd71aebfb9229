import LexDef.Proofs.Nesting.Depth
import LexDef.Proofs.Scanner.Chain
/-!
# Reading under two limits

Under a smaller limit on open regions a text is read in the same way, or reading fails because a
region is opened that only the larger limit allows. It fails there before anything that it would
have come to under the larger limit.
-/

namespace LexDef

def Scanner.withLimit (scanner : Scanner) (limit : Nat) (h : 0 < limit) : Scanner :=
  { scanner with maxNesting := limit, maxNesting_pos := h }

def Behind {α : Type} (q : Position) (place : α → Place) : Except Failure α → Prop
  | .ok a => q.offset < (place a).pos.offset
  | .error f => q.offset < f.stop.offset ∧
      ∀ n q', f.error.fault = .tooDeep n q' → q.offset < q'.offset

/-- How an outcome under the limit `limit` compares with the one under a larger limit: it is the
same, or the failure of a region that is opened before. -/
def Limited {α : Type} (limit : Nat) (place : α → Place) (o o' : Except Failure α) : Prop :=
  o = o' ∨ ∃ f q, o = .error f ∧ f.error.fault = .tooDeep limit q ∧ Behind q place o'

variable {scanner scanner' : Scanner} {opened : List Region} {p q : Position} {s : List Char}
  {a place : Place} {f : Failure}

theorem behind_of_failsFrom {α : Type} {stop : α → Place}
    (h : Scanner.FailsFrom scanner ⟨opened, a⟩ f) (hq : q.offset < a.pos.offset) :
    Behind q stop (.error f) :=
  ⟨Nat.lt_of_lt_of_le hq h.le_stop, fun _ _ hf => Nat.lt_of_lt_of_le hq (h.le_of_tooDeep hf)⟩

theorem behind_of_reaches {α : Type} {stop : α → Place} {x : α} (h : a.Reaches (stop x))
    (hq : q.offset < a.pos.offset) : Behind q stop (.ok x) :=
  Nat.lt_of_lt_of_le hq h.le.1

section Map

variable {α β : Type} {stop : α → Place} {stop' : β → Place} {g : α → β} {o o' : Except Failure α}

theorem Behind.map (h : Behind q stop o) (hg : ∀ x, stop' (g x) = stop x) :
    Behind q stop' (o.map g) := by
  cases o with
  | error f => exact h
  | ok x =>
      change q.offset < (stop' (g x)).pos.offset
      rw [hg]
      exact h

theorem Limited.map {limit : Nat} (h : Limited limit stop o o') (hg : ∀ x, stop' (g x) = stop x) :
    Limited limit stop' (o.map g) (o'.map g) := by
  rcases h with rfl | ⟨f, q, rfl, hf, hbehind⟩
  · exact .inl rfl
  · exact .inr ⟨f, q, rfl, hf, hbehind.map hg⟩

theorem Limited.of_ok {limit : Nat} {x : α} (h : Limited limit stop (.ok x) o) : o = .ok x := by
  rcases h with rfl | ⟨f, q, hf, -⟩
  · rfl
  · cases hf

theorem Behind.bind {k : α → Except Failure β} (h : Behind q stop o)
    (hk : ∀ x, o = .ok x → q.offset < (stop x).pos.offset → Behind q stop' (k x)) :
    Behind q stop' (o.bind k) := by
  cases o with
  | error f => exact h
  | ok x => exact hk x rfl h

/-- What is read after outcomes that compare, and that only goes forward, compares. -/
theorem Limited.bind {limit : Nat} {k k' : α → Except Failure β} (h : Limited limit stop o o')
    (hk : ∀ x, o = .ok x → Limited limit stop' (k x) (k' x))
    (hbehind : ∀ q x, o' = .ok x → q.offset < (stop x).pos.offset → Behind q stop' (k' x)) :
    Limited limit stop' (o.bind k) (o'.bind k') := by
  rcases h with rfl | ⟨f, q, rfl, hf, hq⟩
  · cases o with
    | error f => exact .inl rfl
    | ok x => exact hk x rfl
  · exact .inr ⟨f, q, rfl, hf, hq.bind (hbehind q)⟩

end Map

namespace Region

theorem behind_read (scanner : Scanner) (opened : List Region) (a : Place)
    (hq : q.offset < a.pos.offset) :
    Behind q Prod.snd (read scanner.maxNesting opened a.pos a.rest) := by
  cases h : read scanner.maxNesting opened a.pos a.rest with
  | ok result => exact behind_of_reaches (reaches_of_read h) hq
  | error f => exact behind_of_failsFrom (Scanner.failsFrom_of_fails (read_eq_error_iff.1 h)) hq

theorem Step.offset_lt_after (st : Step) (p : Position) (c : Char) (s : List Char) :
    p.offset < (st.after p c s).pos.offset := by
  change p.offset < (p.after (c :: s.take st.more)).offset
  exact Position.offset_lt_after p (List.cons_ne_nil _ _)

theorem apply_mono {limit limit' : Nat} (h : limit ≤ limit') {m : Move} {r : Region}
    {outer : List Region} (hmove : m.apply limit r outer = .ok opened) :
    m.apply limit' r outer = .ok opened := by
  rcases apply_ok_cases hmove with ⟨rfl, rfl⟩ | ⟨rfl, rfl⟩ | ⟨inner, rfl, rfl, hlen⟩
  · rfl
  · rfl
  · exact if_pos (Nat.lt_of_lt_of_le hlen h)

theorem length_le_of_apply {limit : Nat} {m : Move} {r : Region} {outer : List Region}
    (hlen : (r :: outer).length ≤ limit) (hmove : m.apply limit r outer = .ok opened) :
    opened.length ≤ limit := by
  rcases apply_ok_cases hmove with ⟨-, rfl⟩ | ⟨-, rfl⟩ | ⟨inner, -, rfl, hlt⟩
  · exact hlen
  · exact Nat.le_of_succ_le hlen
  · exact hlt

theorem read_limited (h : scanner.maxNesting < scanner'.maxNesting) (opened : List Region)
    (hlen : opened.length ≤ scanner.maxNesting) (p : Position) (s : List Char) :
    Limited scanner.maxNesting Prod.snd (read scanner.maxNesting opened p s)
      (read scanner'.maxNesting opened p s) := by
  fun_induction read scanner.maxNesting opened p s with
  | case1 p s => exact .inl (read_nil _ p s).symm
  | case2 p r outer => exact .inl (read_end _ r outer p).symm
  | case3 p r outer c s e hstep => exact .inl (read_of_step_error hstep).symm
  | case4 p r outer c s st hstep after e hmove =>
      obtain ⟨inner, hm, hge, rfl⟩ := apply_error hmove
      have hmove' : st.move.apply scanner'.maxNesting r outer = .ok (inner :: r :: outer) := by
        rw [hm]
        exact if_pos (Nat.lt_of_le_of_lt hlen h)
      refine .inr ⟨_, inner.start, rfl, rfl, ?_⟩
      rw [read_of_step hstep hmove', (step_opens hstep hm).1]
      exact (behind_read scanner' _ _ (st.offset_lt_after p c s)).map fun _ => rfl
  | case5 p r outer c s st hstep after opened hmove f hread ih
  | case6 p r outer c s st hstep after opened hmove text place hread ih =>
      rw [hread] at ih
      rw [read_of_step hstep (apply_mono (Nat.le_of_lt h) hmove)]
      exact (ih (length_le_of_apply hlen hmove)).map (g := Prod.map (st.text ++ ·) id) fun _ => rfl

end Region

namespace Scanner

theorem behind_skipGap (scanner : Scanner) (a : Place) (hq : q.offset < a.pos.offset) :
    Behind q id (scanner.skipGap a.pos a.rest) := by
  cases h : scanner.skipGap a.pos a.rest with
  | ok gap => exact behind_of_reaches (reaches_of_skipGap h) hq
  | error f => exact behind_of_failsFrom (failsFrom_of_skipGap h) hq

theorem skipGap_limited (h : scanner.maxNesting < scanner'.maxNesting) (p : Position)
    (s : List Char) :
    Limited scanner.maxNesting id (scanner.skipGap p s) (scanner'.skipGap p s) := by
  fun_induction skipGap scanner p s with
  | case1 p s ih | case2 p s ih | case3 p s ih =>
      rw [skipGap_cons _ _ _ (by simp)]
      exact ih
  | case4 p s ih =>
      rw [skipGap_crlf]
      exact ih
  | case5 p s f hread =>
      have hlimited := Region.read_limited h [⟨.comment, p⟩] scanner.maxNesting_pos
        (p.after ['(', '*']) s
      rw [hread] at hlimited
      rw [skipGap_comment_bind]
      exact hlimited.bind (k := fun result => scanner.skipGap result.2.pos result.2.rest)
        (fun _ hok => by cases hok) fun _ result _ => behind_skipGap scanner' result.2
  | case6 p s text mid hread ih =>
      have hlimited := Region.read_limited h [⟨.comment, p⟩] scanner.maxNesting_pos
        (p.after ['(', '*']) s
      rw [hread] at hlimited
      rw [skipGap_comment_bind, hlimited.of_ok]
      exact ih
  | case7 p s ih =>
      rw [skipGap_line]
      exact ih
  | case8 p s =>
      refine .inl (Eq.symm ?_)
      rw [skipGap] <;> assumption

theorem stringToken_limited (h : scanner.maxNesting < scanner'.maxNesting) (p : Position)
    (s : List Char) :
    Limited scanner.maxNesting Prod.snd (scanner.stringToken p s) (scanner'.stringToken p s) := by
  rw [stringToken_eq_map, stringToken_eq_map]
  exact (Region.read_limited h [⟨.string, p⟩] scanner.maxNesting_pos _ s).map fun _ => rfl

theorem behind_codeToken
    (h : Behind q Prod.snd (Region.read scanner.maxNesting [⟨.code, p⟩] (p.next '{') s)) :
    Behind q Prod.snd (scanner.codeToken p s) := by
  unfold codeToken
  cases hread : Region.read scanner.maxNesting [⟨.code, p⟩] (p.next '{') s with
  | ok result =>
      rw [hread] at h
      exact h
  | error f =>
      rw [hread] at h
      simp only
      split
      · exact h.1
      · exact h

theorem codeToken_limited (h : scanner.maxNesting < scanner'.maxNesting)
    (hset : scanner.unclosedCode = scanner'.unclosedCode) (p : Position) (s : List Char) :
    Limited scanner.maxNesting Prod.snd (scanner.codeToken p s) (scanner'.codeToken p s) := by
  rcases Region.read_limited h [⟨.code, p⟩] scanner.maxNesting_pos (p.next '{') s with
    heq | ⟨f, q, hread, hf, hbehind⟩
  · refine .inl ?_
    unfold codeToken
    rw [heq, hset]
  · have hfirst := codeToken_of_other hread fun r hr => by simp [hf] at hr
    exact .inr ⟨f, q, hfirst, hf, behind_codeToken hbehind⟩

theorem token_limited (h : scanner.maxNesting < scanner'.maxNesting)
    (hset : scanner.unclosedCode = scanner'.unclosedCode) (p : Position) (s : List Char) :
    Limited scanner.maxNesting Prod.snd (scanner.token p s) (scanner'.token p s) := by
  by_cases hstring : ∃ u, s = '"' :: u
  · obtain ⟨u, rfl⟩ := hstring
    exact stringToken_limited h p u
  · by_cases hcode : ∃ u, s = '{' :: u
    · obtain ⟨u, rfl⟩ := hcode
      exact codeToken_limited h hset p u
    · exact .inl (token_congr scanner scanner' p (fun u hu => hstring ⟨u, hu⟩)
        fun u hu => hcode ⟨u, hu⟩)

theorem behind_token (scanner : Scanner) (hstuck : startsGap s = false)
    (hq : q.offset < p.offset) : Behind q Prod.snd (scanner.token p s) := by
  cases h : scanner.token p s with
  | ok result =>
      obtain ⟨opened, -, hmoves⟩ := advances_of_takes hstuck (takes_of_token h)
      exact behind_of_reaches (Advances.reaches hmoves) hq
  | error f => exact behind_of_failsFrom (failsFrom_of_rejects hstuck (rejects_of_token h)) hq

theorem next_limited (h : scanner.maxNesting < scanner'.maxNesting)
    (hset : scanner.unclosedCode = scanner'.unclosedCode) (a : Place) :
    Limited scanner.maxNesting Prod.snd (scanner.next a) (scanner'.next a) := by
  rw [next_eq_bind, next_eq_bind]
  refine (skipGap_limited h a.pos a.rest).bind (fun gap _ => ?_) fun q gap hgap hq => ?_
  · exact (token_limited h hset gap.pos gap.rest).map fun _ => rfl
  · exact (behind_token scanner' (not_startsGap_of_skipGap hgap) hq).map fun _ => rfl

theorem le_of_run_tooDeep {n : Nat} (h : (scanner.runFrom a).final = .error f)
    (hf : f.error.fault = .tooDeep n q) : a.pos.offset ≤ q.offset := by
  obtain ⟨after, hchain, hfinal, -⟩ := exists_chain scanner a
  rw [h] at hfinal
  exact Nat.le_trans hchain.reaches.le.1 ((failsFrom_of_next hfinal.symm).le_of_tooDeep hf)

/-- Under a larger limit a run is the same, unless it has failed for the depth; under the larger
limit it fails for the depth only later. -/
theorem runFrom_limited (h : scanner.maxNesting < scanner'.maxNesting)
    (hset : scanner.unclosedCode = scanner'.unclosedCode) (a : Place) :
    scanner.runFrom a = scanner'.runFrom a ∨
      ∃ f q, (scanner.runFrom a).final = .error f ∧
        f.error.fault = .tooDeep scanner.maxNesting q ∧
        ∀ f' n q', (scanner'.runFrom a).final = .error f' → f'.error.fault = .tooDeep n q' →
          q.offset < q'.offset := by
  fun_induction runFrom scanner a with
  | case1 a f hnext =>
      have hlimited := next_limited h hset a
      rw [hnext] at hlimited
      rcases hlimited with heq | ⟨f', q, hf, hfault, hbehind⟩
      · exact .inl (runFrom_of_error heq.symm).symm
      · refine .inr ⟨f', q, congrArg _ (Except.error.inj hf), hfault, fun g n q' hg hdeep => ?_⟩
        cases hnext' : scanner'.next a with
        | error g' =>
            rw [hnext'] at hbehind
            rw [runFrom_of_error hnext'] at hg
            cases hg
            exact hbehind.2 n q' hdeep
        | ok result =>
            obtain ⟨x, after⟩ := result
            rw [hnext'] at hbehind
            by_cases hx : x.token = .endOfText
            · rw [runFrom_of_end hnext' hx] at hg
              cases hg
            · rw [runFrom_of_ok hnext' hx] at hg
              exact Nat.lt_of_lt_of_le hbehind (le_of_run_tooDeep hg hdeep)
  | case2 a x after hnext hx =>
      have hlimited := next_limited h hset a
      rw [hnext] at hlimited
      exact .inl (runFrom_of_end hlimited.of_ok hx).symm
  | case3 a x after hnext hx hlt run ih =>
      have hlimited := next_limited h hset a
      rw [hnext] at hlimited
      rw [runFrom_of_ok hlimited.of_ok hx]
      rcases ih with heq | hlater
      · exact .inl (by rw [← heq])
      · exact .inr hlater

end Scanner

end LexDef

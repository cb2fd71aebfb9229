import LexDef.Proofs.Scanner.Chain
/-!
# Lexemes and gaps tile a text

The lexemes of a run lie in order in the text, and each of them, each gap between two of them and
each beginning of the text up to the end of one of them is read alone as it is read in the run.
-/

namespace LexDef

/-- The ranges between lexemes, in bytes, the first one from `i` on. -/
def gapsFrom (i : Nat) : List Lexeme → List (Nat × Nat)
  | [] => []
  | x :: xs => (i, x.start.offset) :: gapsFrom x.stop.offset xs

def Run.gaps (run : Run) : List (Nat × Nat) :=
  match run.final with
  | .ok (last, _) => gapsFrom 0 (run.lexemes ++ [last])
  | .error _ => gapsFrom 0 run.lexemes

/-- Whether a range of the text is a gap: on its own it gives no lexeme. -/
def IsGap (scanner : Scanner) (text : String) (range : Nat × Nat) : Prop :=
  range.1 ≤ range.2 ∧ IsBoundary text range.1 ∧ IsBoundary text range.2 ∧
    ∃ stop, scanner.lexemes (slice text range.1 range.2) = .ok [.endAt stop]

structure Run.Tiles (scanner : Scanner) (text : String) (run : Run) : Prop where
  covered : ∀ x ∈ run.lexemes, x.token ≠ .endOfText ∧ IsBoundary text x.start.offset ∧
    IsBoundary text x.stop.offset ∧ x.start.offset < x.stop.offset
  ordered : run.lexemes.Pairwise fun x y => x.stop.offset ≤ y.start.offset
  lexeme : ∀ x ∈ run.lexemes, ∃ stop,
    scanner.lexemes (slice text x.start.offset x.stop.offset) =
      .ok [{ token := x.token, start := {}, stop }, .endAt stop]
  gap : ∀ range ∈ run.gaps, IsGap scanner text range
  beginning : ∀ (j : Nat) (hj : j < run.lexemes.length),
    scanner.lexemes (slice text 0 run.lexemes[j].stop.offset) =
      .ok (run.lexemes.take (j + 1) ++ [.endAt run.lexemes[j].stop])

namespace Scanner

variable {scanner : Scanner} {text : String} {a b place after : Place} {x : Lexeme}
  {xs ys : List Lexeme} {gap piece : List Char}

theorem isBoundary_of_reaches (h : (Place.ofString text).Reaches a) :
    IsBoundary text a.pos.offset := by
  obtain ⟨pre, htext, hpos⟩ := h
  rw [hpos]
  exact isBoundary_after htext

theorem slice_of_reaches (ha : (Place.ofString text).Reaches a) (h : a.rest = piece ++ b.rest)
    (hpos : b.pos = a.pos.after piece) :
    slice text a.pos.offset b.pos.offset = String.ofList piece := by
  obtain ⟨pre, htext, hp⟩ := ha
  have hsplit : text.toList = pre ++ piece ++ b.rest := by
    rw [List.append_assoc, ← h]
    exact htext
  rw [hpos, hp, ← Position.after_append]
  exact slice_after hsplit

namespace Cut

theorem offset_lt (h : Cut scanner a x b gap piece) : x.start.offset < x.stop.offset := by
  rw [h.stop]
  exact Position.offset_lt_after x.start h.ne_nil

theorem lexemes_slice (h : Cut scanner a x b gap piece) (ha : (Place.ofString text).Reaches a) :
    ∃ stop, scanner.lexemes (slice text x.start.offset x.stop.offset) =
      .ok [{ token := x.token, start := {}, stop }, .endAt stop] := by
  have hslice : slice text x.start.offset b.pos.offset = String.ofList piece :=
    slice_of_reaches (ha.trans h.reaches_start) rfl (h.pos.trans h.stop)
  have hnext := h.next_piece (follows_nil _) {}
  rw [List.append_nil] at hnext
  have hchain := Chain.cons hnext h.ne_end (.nil _)
  rw [← h.pos, hslice]
  exact ⟨_, hchain.lexemes_eq (skipGap_of_not_startsGap scanner _ rfl)⟩

end Cut

theorem isGap_of_skipGap {mid : Place} (ha : (Place.ofString text).Reaches a)
    (h : scanner.skipGap a.pos a.rest = .ok mid) :
    IsGap scanner text (a.pos.offset, mid.pos.offset) := by
  have hreach := reaches_of_skipGap h
  have ⟨gap, hrest, hpos⟩ := hreach
  refine ⟨hreach.le.1, isBoundary_of_reaches ha, isBoundary_of_reaches (ha.trans hreach), ?_⟩
  simp only
  rw [slice_of_reaches ha hrest hpos]
  exact ⟨_, (Chain.nil ⟨{}, gap⟩).lexemes_eq (skipGap_alone h hrest {})⟩

theorem Chain.isGap (h : Chain scanner place xs after)
    (hplace : (Place.ofString text).Reaches place)
    (hys : ∀ range ∈ gapsFrom after.pos.offset ys, IsGap scanner text range) :
    ∀ range ∈ gapsFrom place.pos.offset (xs ++ ys), IsGap scanner text range := by
  induction h with
  | nil place => exact hys
  | @cons place mid after x xs head ne_end tail ih =>
      obtain ⟨gap, piece, cut⟩ := Scanner.exists_cut head ne_end
      rw [List.cons_append, gapsFrom, List.forall_mem_cons, ← cut.pos]
      exact ⟨isGap_of_skipGap hplace cut.skipped,
        ih (hplace.trans (reaches_of_next head)) hys⟩

theorem Chain.lexemes_beginning (h : Chain scanner (.ofString text) xs after) :
    scanner.lexemes (slice text 0 after.pos.offset) = .ok (xs ++ [.endAt after.pos]) := by
  obtain ⟨s, hs, hpos⟩ := h.reaches
  have hslice : slice text 0 after.pos.offset = String.ofList s :=
    slice_of_reaches (.refl _) hs hpos
  have hchain := h.append hs (follows_nil _)
  rw [List.append_nil] at hchain
  rw [hslice]
  exact hchain.lexemes_eq (skipGap_of_not_startsGap scanner _ rfl)

theorem run_gaps (scanner : Scanner) (text : String) :
    ∀ range ∈ (scanner.run text).gaps, IsGap scanner text range := by
  obtain ⟨after, hchain, hfinal, -⟩ := exists_chain_run scanner text
  unfold Run.gaps
  split
  · rename_i last b hlast
    rw [hfinal] at hlast
    obtain ⟨mid, hgap, -, hx⟩ := exists_of_next hlast
    have hstart : last.start = mid.pos := congrArg Lexeme.start hx
    refine hchain.isGap (.refl _) fun range hrange => ?_
    obtain rfl := List.mem_singleton.1 hrange
    rw [hstart]
    exact isGap_of_skipGap hchain.reaches hgap
  · have hnone : ∀ range ∈ gapsFrom after.pos.offset [], IsGap scanner text range := by
      intro range hrange
      cases hrange
    have hgaps := hchain.isGap (.refl _) hnone
    rw [List.append_nil] at hgaps
    exact hgaps

/-- The lexemes and the gaps of every run tile its text. -/
theorem run_tiles (scanner : Scanner) (text : String) : (scanner.run text).Tiles scanner text := by
  obtain ⟨after, hchain, -⟩ := exists_chain_run scanner text
  constructor
  · intro x hx
    obtain ⟨a, b, gap, piece, ha, cut, hb⟩ := hchain.exists_cut hx
    have hstart := ha.trans cut.reaches_start
    refine ⟨cut.ne_end, isBoundary_of_reaches hstart, ?_, cut.offset_lt⟩
    rw [← cut.pos]
    exact isBoundary_of_reaches (hstart.trans cut.start_reaches)
  · exact hchain.pairwise
  · intro x hx
    obtain ⟨a, b, gap, piece, ha, cut, -⟩ := hchain.exists_cut hx
    exact cut.lexemes_slice ha
  · exact run_gaps scanner text
  · intro j hj
    obtain ⟨mid, hmid, hpos⟩ := hchain.exists_take hj
    rw [← hpos]
    exact hmid.lexemes_beginning

end Scanner

end LexDef

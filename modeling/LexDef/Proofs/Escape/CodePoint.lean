import LexDef.Proofs.Escape.Number
/-!
# What hexadecimal escapes decode to

A short escape is the number that its digits write, and a long escape the UTF-16 form of it:
`Escape.hexadecimal_decodes`. The numbers fit into machine words at every stage of the way.
-/

namespace LexDef.Escape

variable {s : List Char} {count n : Nat}

/-! ## The same in machine words -/

/-- Shifts a hexadecimal digit into a word, if no bit is lost. -/
def shiftIn? (w : UInt32) (d : Nat) : Option UInt32 :=
  if w.toNat * 16 < UInt32.size ∧ d < 16 then some ((w <<< 4) ||| d.toUInt32) else none

def add? (a b : UInt32) : Option UInt32 :=
  if a.toNat + b.toNat < UInt32.size then some (a + b) else none

def sub? (a b : UInt32) : Option UInt32 :=
  if b.toNat ≤ a.toNat then some (a - b) else none

/-- The lower half of a word, if the upper one is zero. -/
def narrow? (w : UInt32) : Option UInt16 :=
  if w.toNat < UInt16.size then some w.toUInt16 else none

def hexWord (count : Nat) (s : List Char) : ExceptT Fault Option UInt32 :=
  if s.length = count then s.foldlM (fun w c => do shiftIn? w (← hexValue c)) 0
  else throw (.digitCount count s.length)

def hexUnitWord (s : List Char) : ExceptT Fault Option UInt16 := do
  narrow? (← hexWord 4 s)

def unitsOfWord (code : UInt32) : ExceptT Fault Option Units := do
  if code >>> 16 = 0 then return .single (← narrow? (code &&& 0xFFFF))
  if 0x10FFFF < code then throw (.beyondUnicode code.toNat)
  let excess ← sub? code 0x10000
  let lead ← add? 0xD800 (excess >>> 10)
  let trail ← add? 0xDC00 (excess &&& 0x3FF)
  return .pair (← narrow? lead) (← narrow? trail)

def codePointWord (s : List Char) : ExceptT Fault Option Units := do
  unitsOfWord (← hexWord 8 s)

theorem lift_bind {α β : Type} {x : Option α} {a : α} (h : x = some a)
    (f : α → ExceptT Fault Option β) : (liftM x >>= f) = f a := by
  rw [h]
  rfl

theorem hexValue_lt {d : Nat} (h : hexValue c = .ok d) : d < 16 := by
  by_cases hc : c.toLower ∈ Hex.digits
  · rw [hexValue_of_mem hc, Except.ok.injEq] at h
    rw [← h]
    exact List.idxOf_lt_length_of_mem hc
  · rw [hexValue_of_not_mem hc] at h
    cases h

theorem exists_shiftIn? {w : UInt32} {d : Nat} (hw : w.toNat * 16 < UInt32.size) (hd : d < 16) :
    ∃ w', shiftIn? w d = some w' ∧ w'.toNat = w.toNat * 16 + d := by
  refine ⟨_, if_pos ⟨hw, hd⟩, ?_⟩
  have hsize : UInt32.size = 4294967296 := rfl
  rw [hsize] at hw
  have hdigit : d.toUInt32.toNat = d := UInt32.toNat_ofNat_of_lt' (Nat.lt_trans hd (by decide))
  have hshift : (w <<< 4).toNat = w.toNat <<< 4 := by
    rw [UInt32.toNat_shiftLeft]
    exact Nat.mod_eq_of_lt (by rw [Nat.shiftLeft_eq]; exact hw)
  rw [UInt32.toNat_or, hshift, hdigit, ← Nat.shiftLeft_add_eq_or_of_lt hd, Nat.shiftLeft_eq]

/-- Digits are collected in a word as long as there is room for all of them. -/
theorem exists_hexWords (w : UInt32) (s : List Char)
    (hroom : (w.toNat + 1) * 16 ^ s.length ≤ UInt32.size) :
    ∃ r, (s.foldlM (m := ExceptT Fault Option) (fun w c => do shiftIn? w (← hexValue c)) w).run =
        some r ∧
      r.map UInt32.toNat =
        s.foldlM (m := Except Fault) (fun n c => return n * 16 + (← hexValue c)) w.toNat := by
  induction s generalizing w with
  | nil => exact ⟨.ok w, rfl, rfl⟩
  | cons c s ih =>
      rw [List.foldlM_cons, List.foldlM_cons]
      cases hvalue : hexValue c with
      | error fault => exact ⟨.error fault, rfl, rfl⟩
      | ok d =>
          have hd := hexValue_lt hvalue
          rw [List.length_cons, Nat.pow_succ] at hroom
          have hpos : 0 < 16 ^ s.length := Nat.pow_pos (by decide)
          have hw : w.toNat * 16 < UInt32.size := by nlinarith
          obtain ⟨w', hshift, hw'⟩ := exists_shiftIn? hw hd
          obtain ⟨r, hrun, hr⟩ := ih w' (by rw [hw']; nlinarith)
          refine ⟨r, ?_, ?_⟩
          · rw [← hrun]
            show (liftM (shiftIn? w d) >>= fun w => s.foldlM _ w :
              ExceptT Fault Option UInt32).run = _
            rw [lift_bind hshift]
          · rw [hr, hw']
            rfl

theorem exists_hexWord (hcount : count ≤ 8) (s : List Char) :
    ∃ r, (hexWord count s).run = some r ∧ r.map UInt32.toNat = hexNumber count s := by
  unfold hexWord hexNumber
  by_cases hlen : s.length = count
  · have hroom : 16 ^ s.length ≤ UInt32.size := by
      rw [hlen]
      exact Nat.pow_le_pow_right (by decide) hcount
    obtain ⟨r, hrun, hr⟩ := exists_hexWords 0 s (by simpa using hroom)
    rw [if_pos hlen, if_pos hlen]
    exact ⟨r, hrun, hr⟩
  · rw [if_neg hlen, if_neg hlen]
    exact ⟨.error _, rfl, rfl⟩

/-- Collecting digits fails as they do, or gives a word with their number. -/
theorem hexWord_cases (hcount : count ≤ 8) (s : List Char) :
    (∃ fault, (hexWord count s).run = some (.error fault) ∧ hexNumber count s = .error fault) ∨
    ∃ w, (hexWord count s).run = some (.ok w) ∧ hexNumber count s = .ok w.toNat ∧
      w.toNat < 16 ^ count := by
  obtain ⟨r, hrun, hr⟩ := exists_hexWord hcount s
  cases r with
  | error fault => exact .inl ⟨fault, hrun, hr.symm⟩
  | ok w => exact .inr ⟨w, hrun, hr.symm, lt_of_reading (hexNumber_eq_reading count s ▸ hr.symm)⟩

theorem narrow?_of_lt {w : UInt32} {n : Nat} (hw : w.toNat = n) (hn : n < 65536) :
    narrow? w = some n.toUInt16 := by
  have hlow : w.toUInt16 = n.toUInt16 := by
    apply UInt16.toNat.inj
    rw [UInt32.toNat_toUInt16, hw]
    rfl
  have hsize : UInt16.size = 65536 := rfl
  rw [narrow?, if_pos (by rw [hw, hsize]; exact hn), hlow]

theorem hexUnitWord_run (s : List Char) : (hexUnitWord s).run = some (hexUnit s) := by
  unfold hexUnitWord hexUnit
  rcases hexWord_cases (by decide : 4 ≤ 8) s with ⟨fault, hrun, hnumber⟩ | ⟨w, hrun, hnumber, hlt⟩
  · rw [ExceptT.run_bind, hrun, hnumber]
    rfl
  · rw [ExceptT.run_bind, hrun, hnumber]
    show (ExceptT.lift (narrow? w)).run = some (.ok w.toNat.toUInt16)
    rw [narrow?_of_lt rfl hlt]
    rfl

def unitsOf (code : Nat) : Except Fault Units :=
  if code < 0x10000 then .ok (.single code.toUInt16)
  else if 0x10FFFF < code then .error (.beyondUnicode code)
  else .ok (.pair (0xD800 + (code - 0x10000) / 0x400).toUInt16
    (0xDC00 + (code - 0x10000) % 0x400).toUInt16)

theorem codePoint_eq_bind (s : List Char) : codePoint s = (hexNumber 8 s).bind unitsOf := by
  unfold codePoint
  cases hexNumber 8 s with
  | error fault => rfl
  | ok code =>
      simp only [bind, Except.bind, unitsOf]
      split
      · rfl
      · split
        · rfl
        · rfl

theorem toNat_mask (w : UInt32) :
    (w &&& 0xFFFF).toNat = w.toNat % 65536 ∧ (w &&& 0x3FF).toNat = w.toNat % 1024 := by
  rw [UInt32.toNat_and, UInt32.toNat_and]
  exact ⟨Nat.and_two_pow_sub_one_eq_mod w.toNat 16, Nat.and_two_pow_sub_one_eq_mod w.toNat 10⟩

theorem toNat_shift (w : UInt32) :
    (w >>> 16).toNat = w.toNat / 65536 ∧ (w >>> 10).toNat = w.toNat / 1024 := by
  rw [UInt32.toNat_shiftRight, UInt32.toNat_shiftRight]
  exact ⟨Nat.shiftRight_eq_div_pow w.toNat 16, Nat.shiftRight_eq_div_pow w.toNat 10⟩

theorem add?_of_lt {a b : UInt32} {n : Nat} (hn : a.toNat + b.toNat = n) (hlt : n < 65536) :
    ∃ w, add? a b = some w ∧ w.toNat = n := by
  have hsize : UInt32.size = 4294967296 := rfl
  refine ⟨a + b, if_pos (by omega), ?_⟩
  rw [UInt32.toNat_add, hn]
  exact Nat.mod_eq_of_lt (by omega)

theorem unitsOfWord_run (w : UInt32) : (unitsOfWord w).run = some (unitsOf w.toNat) := by
  obtain ⟨hlow, -⟩ := toNat_mask w
  have hhigh : w >>> 16 = 0 ↔ w.toNat < 65536 := by
    rw [← UInt32.toNat_inj, (toNat_shift w).1, UInt32.toNat_zero]
    omega
  unfold unitsOfWord unitsOf
  by_cases hsmall : w.toNat < 65536
  · have hnarrow : narrow? (w &&& 0xFFFF) = some w.toNat.toUInt16 :=
      narrow?_of_lt (by rw [hlow]; exact Nat.mod_eq_of_lt hsmall) hsmall
    rw [if_pos (hhigh.2 hsmall), if_pos hsmall, lift_bind hnarrow]
    rfl
  · rw [if_neg (mt hhigh.1 hsmall), if_neg hsmall]
    by_cases hlarge : 0x10FFFF < w.toNat
    · have hlarge' : 0x10FFFF < w := UInt32.lt_iff_toNat_lt.2 hlarge
      rw [if_pos hlarge', if_pos hlarge]
      rfl
    · have hlarge' : ¬0x10FFFF < w := mt UInt32.lt_iff_toNat_lt.1 hlarge
      have hle : (0x10000 : UInt32) ≤ w := UInt32.le_iff_toNat_le.2 (Nat.not_lt.1 hsmall)
      have hexcess : (w - 0x10000).toNat = w.toNat - 65536 := UInt32.toNat_sub_of_le _ _ hle
      have hsub : sub? w 0x10000 = some (w - 0x10000) := if_pos (Nat.not_lt.1 hsmall)
      have hlead : (0xD800 : UInt32).toNat + ((w - 0x10000) >>> 10).toNat =
          0xD800 + (w.toNat - 65536) / 1024 := by
        rw [(toNat_shift _).2, hexcess]
        rfl
      have htrail : (0xDC00 : UInt32).toNat + ((w - 0x10000) &&& 0x3FF).toNat =
          0xDC00 + (w.toNat - 65536) % 1024 := by
        rw [(toNat_mask _).2, hexcess]
        rfl
      obtain ⟨lead, hadd, hleadn⟩ := add?_of_lt hlead (by omega)
      obtain ⟨trail, hadd', htrailn⟩ := add?_of_lt htrail (by omega)
      have hleadUnit := narrow?_of_lt hleadn (by omega)
      have htrailUnit := narrow?_of_lt htrailn (by omega)
      rw [if_neg hlarge', if_neg hlarge, lift_bind hsub, lift_bind hadd, lift_bind hadd',
        lift_bind hleadUnit, lift_bind htrailUnit]
      rfl

theorem codePointWord_run (s : List Char) : (codePointWord s).run = some (codePoint s) := by
  rw [codePoint_eq_bind]
  unfold codePointWord
  rcases hexWord_cases (by decide : 8 ≤ 8) s with ⟨fault, hrun, hnumber⟩ | ⟨w, hrun, hnumber, -⟩
  · rw [ExceptT.run_bind, hrun, hnumber]
    rfl
  · rw [ExceptT.run_bind, hrun, hnumber]
    exact unitsOfWord_run w

/-! ## UTF-16 -/

/-- The UTF-16 form of a code point by its bits. Sixteen bits stand for themselves. More than these,
`uuuuuxxxxxxyyyyyyyyyy`, become `110110wwwwxxxxxx` and `110111yyyyyyyyyy`, where `wwww` is one less
than `uuuuu`. -/
def utf16 (code : BitVec 21) : Units :=
  if code.toNat < 0x10000 then .single (.ofBitVec (code.extractLsb' 0 16))
  else
    let w := (code.extractLsb' 16 5 - 1#5).extractLsb' 0 4
    .pair (.ofBitVec (0b110110#6 ++ w ++ code.extractLsb' 10 6))
      (.ofBitVec (0b110111#6 ++ code.extractLsb' 0 10))

theorem toNat_append {m n : Nat} (x : BitVec m) (y : BitVec n) :
    (x ++ y).toNat = x.toNat * 2 ^ n + y.toNat := by
  rw [BitVec.toNat_append, ← Nat.shiftLeft_add_eq_or_of_lt y.isLt, Nat.shiftLeft_eq]

/-- The arithmetic of surrogates moves the bits as the standard says. -/
theorem unitsOf_eq_utf16 (code : BitVec 21) (h : code.toNat ≤ 0x10FFFF) :
    unitsOf code.toNat = .ok (utf16 code) := by
  unfold unitsOf utf16
  by_cases hsmall : code.toNat < 0x10000
  · have hunit : code.toNat.toUInt16 = .ofBitVec (code.extractLsb' 0 16) := by
      apply UInt16.toNat.inj
      rw [UInt16.toNat_ofNat', UInt16.toNat_ofBitVec, BitVec.extractLsb'_toNat, Nat.shiftRight_zero]
    rw [if_pos hsmall, if_pos hsmall, hunit]
  · have hlead : (0xD800 + (code.toNat - 0x10000) / 0x400).toUInt16 = .ofBitVec
        (0b110110#6 ++ (code.extractLsb' 16 5 - 1#5).extractLsb' 0 4 ++ code.extractLsb' 10 6) := by
      apply UInt16.toNat.inj
      rw [UInt16.toNat_ofNat', UInt16.toNat_ofBitVec]
      simp only [toNat_append, BitVec.extractLsb'_toNat, BitVec.toNat_sub, BitVec.toNat_ofNat,
        Nat.shiftRight_eq_div_pow]
      omega
    have htrail : (0xDC00 + (code.toNat - 0x10000) % 0x400).toUInt16 =
        .ofBitVec (0b110111#6 ++ code.extractLsb' 0 10) := by
      apply UInt16.toNat.inj
      rw [UInt16.toNat_ofNat', UInt16.toNat_ofBitVec]
      simp only [toNat_append, BitVec.extractLsb'_toNat, BitVec.toNat_ofNat,
        Nat.shiftRight_eq_div_pow]
      omega
    rw [if_neg hsmall, if_neg hsmall, if_neg (Nat.not_lt.2 h), hlead, htrail]

/-! ## What is decoded -/

def surrogates (lead trail : UInt16) : Nat :=
  0x10000 + (lead.toNat - 0xD800) * 0x400 + (trail.toNat - 0xDC00)

/-- A number gives one unit, two units or none, as its size tells. -/
theorem unitsOf_cases (code : Nat) :
    (code < 0x10000 ∧ ∃ unit, unitsOf code = .ok (.single unit) ∧ unit.toNat = code) ∨
    ((0x10000 ≤ code ∧ code ≤ 0x10FFFF) ∧ ∃ lead trail, unitsOf code = .ok (.pair lead trail) ∧
      (0xD800 ≤ lead.toNat ∧ lead.toNat ≤ 0xDBFF) ∧
      (0xDC00 ≤ trail.toNat ∧ trail.toNat ≤ 0xDFFF) ∧ surrogates lead trail = code) ∨
    (0x10FFFF < code ∧ unitsOf code = .error (.beyondUnicode code)) := by
  by_cases hsmall : code < 0x10000
  · have hunits : unitsOf code = .ok (.single code.toUInt16) := if_pos hsmall
    exact .inl ⟨hsmall, _, hunits, UInt16.toNat_ofNat_of_lt' hsmall⟩
  · by_cases hlarge : 0x10FFFF < code
    · exact .inr (.inr ⟨hlarge, by rw [unitsOf, if_neg hsmall, if_pos hlarge]⟩)
    · have hunits : unitsOf code = .ok (.pair (0xD800 + (code - 0x10000) / 0x400).toUInt16
          (0xDC00 + (code - 0x10000) % 0x400).toUInt16) := by
        rw [unitsOf, if_neg hsmall, if_neg hlarge]
      have hlead : (0xD800 + (code - 0x10000) / 0x400).toUInt16.toNat =
          0xD800 + (code - 0x10000) / 0x400 :=
        UInt16.toNat_ofNat_of_lt' (show _ < 0x10000 by omega)
      have htrail : (0xDC00 + (code - 0x10000) % 0x400).toUInt16.toNat =
          0xDC00 + (code - 0x10000) % 0x400 :=
        UInt16.toNat_ofNat_of_lt' (show _ < 0x10000 by omega)
      generalize (0xD800 + (code - 0x10000) / 0x400).toUInt16 = lead at hunits hlead
      generalize (0xDC00 + (code - 0x10000) % 0x400).toUInt16 = trail at hunits htrail
      refine .inr (.inl ⟨⟨Nat.not_lt.1 hsmall, Nat.not_lt.1 hlarge⟩, lead, trail, hunits, ?_⟩)
      unfold surrogates
      omega

theorem unitsOf_injective {n m : Nat} {units : Units} (hn : unitsOf n = .ok units)
    (hm : unitsOf m = .ok units) : n = m := by
  rcases unitsOf_cases n with ⟨-, unit, h, hvalue⟩ | ⟨-, lead, trail, h, -, -, hvalue⟩ | ⟨-, h⟩
  · obtain rfl := Except.ok.inj (h.symm.trans hn)
    rcases unitsOf_cases m with ⟨-, unit', h', hvalue'⟩ | ⟨-, lead', trail', h', -⟩ | ⟨-, h'⟩
    · cases h'.symm.trans hm
      rw [← hvalue, ← hvalue']
    · cases h'.symm.trans hm
    · cases h'.symm.trans hm
  · obtain rfl := Except.ok.inj (h.symm.trans hn)
    rcases unitsOf_cases m with ⟨-, unit', h', -⟩ | ⟨-, lead', trail', h', -, -, hvalue'⟩ | ⟨-, h'⟩
    · cases h'.symm.trans hm
    · cases h'.symm.trans hm
      rw [← hvalue, ← hvalue']
    · cases h'.symm.trans hm
  · cases h.symm.trans hn

theorem codePoint_of_reading (h : reading 8 s = .ok n) : codePoint s = unitsOf n := by
  rw [codePoint_eq_bind, hexNumber_eq_reading, h]
  rfl

structure Decodes (s : List Char) : Prop where
  short : (hexUnit s).map UInt16.toNat = reading 4 s
  refused : ∀ fault, reading 8 s = .error fault → codePoint s = .error fault
  single_iff : ∀ n, reading 8 s = .ok n →
    ((∃ unit, codePoint s = .ok (.single unit) ∧ unit.toNat = n) ↔ n < 0x10000)
  pair_iff : ∀ n, reading 8 s = .ok n →
    ((∃ lead trail, codePoint s = .ok (.pair lead trail) ∧
      (0xD800 ≤ lead.toNat ∧ lead.toNat ≤ 0xDBFF) ∧
      (0xDC00 ≤ trail.toNat ∧ trail.toNat ≤ 0xDFFF) ∧ surrogates lead trail = n) ↔
        0x10000 ≤ n ∧ n ≤ 0x10FFFF)
  beyond_iff : ∀ n, reading 8 s = .ok n →
    (codePoint s = .error (.beyondUnicode n) ↔ 0x10FFFF < n)
  /-- The units have the bits that the standard gives them. -/
  utf16 : ∀ code : BitVec 21, code.toNat ≤ 0x10FFFF → reading 8 s = .ok code.toNat →
    codePoint s = .ok (utf16 code)
  /-- In machine words the same is computed, and no operation loses a bit. -/
  words : (hexUnitWord s).run = some (hexUnit s) ∧ (codePointWord s).run = some (codePoint s)
  /-- Other digits are decoded to the same only if they write the same number. -/
  injective : ∀ s', (∀ unit, hexUnit s = .ok unit → hexUnit s' = .ok unit →
      Hex.number s = Hex.number s') ∧
    ∀ units, codePoint s = .ok units → codePoint s' = .ok units → Hex.number s = Hex.number s'

theorem hexUnit_map_toNat (s : List Char) : (hexUnit s).map UInt16.toNat = reading 4 s := by
  rw [← hexNumber_eq_reading, hexUnit]
  cases hnumber : hexNumber 4 s with
  | error fault => rfl
  | ok n =>
      have hlt : n < 65536 := lt_of_reading (hexNumber_eq_reading 4 s ▸ hnumber)
      exact congrArg Except.ok (UInt16.toNat_ofNat_of_lt' hlt)

theorem reading_of_hexUnit {unit : UInt16} (h : hexUnit s = .ok unit) :
    reading 4 s = .ok unit.toNat := by
  rw [← hexUnit_map_toNat, h]
  rfl

theorem reading_of_codePoint {units : Units} (h : codePoint s = .ok units) :
    ∃ n, reading 8 s = .ok n ∧ unitsOf n = .ok units := by
  rw [codePoint_eq_bind, hexNumber_eq_reading] at h
  cases hreading : reading 8 s with
  | error fault =>
      rw [hreading] at h
      cases h
  | ok n =>
      rw [hreading] at h
      exact ⟨n, rfl, h⟩

/-- Escapes are decoded to the number that their digits write, and to its UTF-16 form. -/
theorem hexadecimal_decodes (s : List Char) : Decodes s where
  short := hexUnit_map_toNat s
  refused fault h := by
    rw [codePoint_eq_bind, hexNumber_eq_reading, h]
    rfl
  single_iff n h := by
    rw [codePoint_of_reading h]
    rcases unitsOf_cases n with
      ⟨hn, unit, hunits, hvalue⟩ | ⟨hn, lead, trail, hunits, -⟩ | ⟨hn, hunits⟩
    · exact ⟨fun _ => hn, fun _ => ⟨unit, hunits, hvalue⟩⟩
    · simp only [hunits, Except.ok.injEq, reduceCtorEq, false_and, exists_false, false_iff]
      omega
    · simp only [hunits, reduceCtorEq, false_and, exists_false, false_iff]
      omega
  pair_iff n h := by
    rw [codePoint_of_reading h]
    rcases unitsOf_cases n with
      ⟨hn, unit, hunits, -⟩ | ⟨hn, lead, trail, hunits, hpair⟩ | ⟨hn, hunits⟩
    · simp only [hunits, Except.ok.injEq, reduceCtorEq, false_and, exists_false, false_iff]
      omega
    · exact ⟨fun _ => hn, fun _ => ⟨lead, trail, hunits, hpair⟩⟩
    · simp only [hunits, reduceCtorEq, false_and, exists_false, false_iff]
      omega
  beyond_iff n h := by
    rw [codePoint_of_reading h]
    rcases unitsOf_cases n with ⟨hn, unit, hunits, -⟩ | ⟨hn, lead, trail, hunits, -⟩ | ⟨hn, hunits⟩
    · simp only [hunits, reduceCtorEq, false_iff]
      omega
    · simp only [hunits, reduceCtorEq, false_iff]
      omega
    · exact ⟨fun _ => hn, fun _ => hunits⟩
  utf16 code hcode h := by rw [codePoint_of_reading h, unitsOf_eq_utf16 code hcode]
  words := ⟨hexUnitWord_run s, codePointWord_run s⟩
  injective s' := by
    have hnumber : ∀ {count n}, reading count s = .ok n → reading count s' = .ok n →
        Hex.number s = Hex.number s' := by
      intro count n h h'
      rw [← (reading_eq_ok_iff.1 h).2.2, ← (reading_eq_ok_iff.1 h').2.2]
    refine ⟨fun unit h h' => hnumber (reading_of_hexUnit h) (reading_of_hexUnit h'),
      fun units h h' => ?_⟩
    obtain ⟨n, hn, hunits⟩ := reading_of_codePoint h
    obtain ⟨m, hm, hunits'⟩ := reading_of_codePoint h'
    obtain rfl := unitsOf_injective hunits hunits'
    exact hnumber hn hm

example : codePoint ['0', '0', '0', '1', 'f', '6', '0', '0'] = .ok (.pair 0xD83D 0xDE00) := by
  decide

end LexDef.Escape

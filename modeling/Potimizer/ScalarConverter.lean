import Potimizer.UnicodeCodec
import Potimizer.LoopMachine
import Potimizer.CheckedMemory

/-! The plain converter: one loop over the code units that recombines surrogate pairs and throws
on any unit out of place. -/
namespace Potimizer
namespace ScalarConverter

open LoopMachine CheckedMemory UnicodeCodec

/-- Exchange the two bytes of a unit: `(value >> 8) | (value << 8)`. -/
def swapBytes (value : UInt16) : UInt16 := (value >>> 8) ||| (value <<< 8)

theorem swapBytes_eq_byteSwap (value : UInt16) : swapBytes value = byteSwap value := by
  have hlt := value.toNat_lt
  have hshift : value.toNat <<< 8 % 2^16 = 2^8 * (value.toNat % 256) := by
    rw [Nat.shiftLeft_eq]; omega
  have hor : value.toNat / 2^8 ||| 2^8 * (value.toNat % 256) =
      2^8 * (value.toNat % 256) + value.toNat / 2^8 := by
    rw [Nat.or_comm,Nat.two_pow_add_eq_or_of_lt (by omega)]
  rw [← UInt16.toNat_inj,byteSwap_toNat,swapBytes,UInt16.toNat_or,UInt16.toNat_shiftRight,
    UInt16.toNat_shiftLeft]
  simp only [UInt16.reduceToNat,Nat.reduceMod,hshift,Nat.shiftRight_eq_div_pow,hor]
  omega

structure State where
  i : ℕ
  utf8 : List UInt8

def invalidSequence : Fault := .runtimeError "Invalid UTF-16 sequence"

def hostUnit (isLittleEndian : Bool) (w : UInt16) : UInt16 :=
  if !isLittleEndian then swapBytes w else w

/-- One pass of the loop, which consumes one unit or a pair. Appending a number to the string
keeps its low eight bits. -/
def convertAt (utf16 : List UInt16) (isLittleEndian : Bool) (s : State) :
    Except Fault (Outcome State Empty) := do
  let w1 := hostUnit isLittleEndian (← read utf16 s.i)
  if w1 ≥ 0xD800 ∧ w1 ≤ 0xDBFF then
    if s.i+1 ≥ utf16.length then
      throw invalidSequence
    else
      let w2 := hostUnit isLittleEndian (← read utf16 (s.i+1))
      if w2 < 0xDC00 ∨ w2 > 0xDFFF then
        throw invalidSequence
      else
        let codePoint : UInt32 :=
          ((w1.toUInt32 - 0xD800) <<< 10) + (w2.toUInt32 - 0xDC00) + 0x10000
        return .next ⟨s.i+2,s.utf8 ++
          [UInt32.toUInt8 ((0xF0 : UInt32) ||| (codePoint >>> 18)),
            UInt32.toUInt8 ((0x80 : UInt32) ||| ((codePoint >>> 12) &&& 0x3F)),
            UInt32.toUInt8 ((0x80 : UInt32) ||| ((codePoint >>> 6) &&& 0x3F)),
            UInt32.toUInt8 ((0x80 : UInt32) ||| (codePoint &&& 0x3F))]⟩
  else if w1 ≥ 0xDC00 ∧ w1 ≤ 0xDFFF then
    throw invalidSequence
  else if w1 < 0x80 then
    return .next ⟨s.i+1,s.utf8 ++ [w1.toUInt8]⟩
  else if w1 < 0x800 then
    return .next ⟨s.i+1,s.utf8 ++
      [UInt16.toUInt8 ((0xC0 : UInt16) ||| (w1 >>> 6)),UInt16.toUInt8 ((0x80 : UInt16) ||| (w1 &&& 0x3F))]⟩
  else
    return .next ⟨s.i+1,s.utf8 ++
      [UInt16.toUInt8 ((0xE0 : UInt16) ||| (w1 >>> 12)),UInt16.toUInt8 ((0x80 : UInt16) ||| ((w1 >>> 6) &&& 0x3F)),
        UInt16.toUInt8 ((0x80 : UInt16) ||| (w1 &&& 0x3F))]⟩

theorem unit_bytes (w : UInt16) :
    (if w < 0x80 then [w.toUInt8]
    else if w < 0x800 then
      [UInt16.toUInt8 ((0xC0 : UInt16) ||| (w >>> 6)),UInt16.toUInt8 ((0x80 : UInt16) ||| (w &&& 0x3F))]
    else
      [UInt16.toUInt8 ((0xE0 : UInt16) ||| (w >>> 12)),UInt16.toUInt8 ((0x80 : UInt16) ||| ((w >>> 6) &&& 0x3F)),
        UInt16.toUInt8 ((0x80 : UInt16) ||| (w &&& 0x3F))]) = utf8Unit w := by
  have hlt := w.toNat_lt
  have h6 : (w >>> 6).toNat = w.toNat / 64 := by simp [Nat.shiftRight_eq_div_pow]
  have h12 : (w >>> 12).toNat = w.toNat / 4096 := by simp [Nat.shiftRight_eq_div_pow]
  have htail : UInt16.toUInt8 ((0x80 : UInt16) ||| (w &&& 0x3F)) = UInt8.ofNat (0x80 + w.toNat % 64) := by
    rw [or_toUInt8_of_lt16 _ _ 6 2 rfl (by rw [and_low6_16]; omega),and_low6_16]; rfl
  have hmid : UInt16.toUInt8 ((0x80 : UInt16) ||| ((w >>> 6) &&& 0x3F)) =
      UInt8.ofNat (0x80 + w.toNat / 64 % 64) := by
    rw [or_toUInt8_of_lt16 _ _ 6 2 rfl (by rw [and_low6_16]; omega),and_low6_16,h6]; rfl
  simp only [UInt16.lt_iff_toNat_lt,utf8Unit,UInt16.reduceToNat]
  by_cases h₁ : w.toNat < 0x80
  · rw [if_pos h₁,if_pos h₁]
    congr 1
  by_cases h₂ : w.toNat < 0x800
  · have hlead : UInt16.toUInt8 ((0xC0 : UInt16) ||| (w >>> 6)) = UInt8.ofNat (0xC0 + w.toNat / 64) := by
      rw [or_toUInt8_of_lt16 _ _ 6 3 rfl (by rw [h6]; omega),h6]; rfl
    rw [if_neg h₁,if_neg h₁,if_pos h₂,if_pos h₂,hlead,htail]
  · have hlead : UInt16.toUInt8 ((0xE0 : UInt16) ||| (w >>> 12)) = UInt8.ofNat (0xE0 + w.toNat / 4096) := by
      rw [or_toUInt8_of_lt16 _ _ 5 7 rfl (by rw [h12]; omega),h12]; rfl
    rw [if_neg h₁,if_neg h₁,if_neg h₂,if_neg h₂,hlead,hmid,htail]

theorem pair_bytes {w1 w2 : UInt16} (h1 : IsHigh w1) (h2 : IsLow w2) :
    let codePoint : UInt32 :=
      ((w1.toUInt32 - 0xD800) <<< 10) + (w2.toUInt32 - 0xDC00) + 0x10000
    [UInt32.toUInt8 ((0xF0 : UInt32) ||| (codePoint >>> 18)),
      UInt32.toUInt8 ((0x80 : UInt32) ||| ((codePoint >>> 12) &&& 0x3F)),
      UInt32.toUInt8 ((0x80 : UInt32) ||| ((codePoint >>> 6) &&& 0x3F)),
      UInt32.toUInt8 ((0x80 : UInt32) ||| (codePoint &&& 0x3F))] =
    String.utf8EncodeChar (pairChar w1 w2) := by
  intro codePoint
  have hchar := pairChar_toNat h1 h2
  unfold IsHigh at h1
  unfold IsLow at h2
  have hsub1 : (w1.toUInt32 - 0xD800).toNat = w1.toNat - 0xD800 := by
    rw [UInt32.toNat_sub_of_le]
    · simp
    · rw [UInt32.le_iff_toNat_le]; simp; omega
  have hsub2 : (w2.toUInt32 - 0xDC00).toNat = w2.toNat - 0xDC00 := by
    rw [UInt32.toNat_sub_of_le]
    · simp
    · rw [UInt32.le_iff_toNat_le]; simp; omega
  have hc : codePoint.toNat = (pairChar w1 w2).toNat := by
    rw [hchar]
    simp only [codePoint,UInt32.toNat_add,UInt32.toNat_shiftLeft,hsub1,hsub2,UInt32.reduceToNat,
      Nat.reduceMod,Nat.shiftLeft_eq]
    omega
  have h6 : (codePoint >>> 6).toNat = (pairChar w1 w2).toNat / 64 := by
    simp [Nat.shiftRight_eq_div_pow,hc]
  have h12 : (codePoint >>> 12).toNat = (pairChar w1 w2).toNat / 4096 := by
    simp [Nat.shiftRight_eq_div_pow,hc]
  have h18 : (codePoint >>> 18).toNat = (pairChar w1 w2).toNat / 262144 := by
    simp [Nat.shiftRight_eq_div_pow,hc]
  have htail (x : UInt32) : UInt32.toUInt8 ((0x80 : UInt32) ||| (x &&& 0x3F)) =
      UInt8.ofNat (0x80 + x.toNat % 64) := by
    rw [or_toUInt8_of_lt32 _ _ 6 2 rfl (by rw [and_low6_32]; omega),and_low6_32]; rfl
  have hlead : UInt32.toUInt8 ((0xF0 : UInt32) ||| (codePoint >>> 18)) =
      UInt8.ofNat (0xF0 + (pairChar w1 w2).toNat / 262144) := by
    rw [or_toUInt8_of_lt32 _ _ 4 15 rfl (by rw [h18]; omega),h18]; rfl
  rw [utf8EncodeChar_supplementary (by omega),hlead,htail,htail,htail,h12,h6,hc]

theorem hostOrder_getElem? (isLittleEndian : Bool) (u : List UInt16) (i : ℕ) :
    (hostOrder isLittleEndian u)[i]? = u[i]?.map (hostUnit isLittleEndian) := by
  have hfalse : hostUnit false = byteSwap := funext swapBytes_eq_byteSwap
  have htrue : hostUnit true = id := rfl
  cases isLittleEndian
  · simp [hostOrder,hfalse]
  · simp [hostOrder,htrue]

theorem high_test_iff (w : UInt16) : (w ≥ 0xD800 ∧ w ≤ 0xDBFF) ↔ IsHigh w := Iff.rfl

theorem low_test_iff (w : UInt16) : (w ≥ 0xDC00 ∧ w ≤ 0xDFFF) ↔ IsLow w := Iff.rfl

theorem not_low_test_iff (w : UInt16) : (w < 0xDC00 ∨ w > 0xDFFF) ↔ ¬ IsLow w := by
  rw [← low_test_iff,not_and_or,ge_iff_le,UInt16.not_le,UInt16.not_le]

section Pass

variable {u : List UInt16} {le : Bool} {s : State} {x y : UInt16}

theorem convertAt_unit (hx : u[s.i]? = some x) (hs : ¬ IsSurrogate (hostUnit le x)) :
    convertAt u le s = .ok (.next ⟨s.i+1,s.utf8 ++ utf8Unit (hostUnit le x)⟩) := by
  rw [isSurrogate_iff,not_or] at hs
  rw [convertAt,read_ok hx]
  simp only [bind,Except.bind,pure,Except.pure,high_test_iff,low_test_iff]
  rw [if_neg hs.1,if_neg hs.2,← unit_bytes]
  split_ifs <;> rfl

theorem convertAt_low (hx : u[s.i]? = some x) (hlow : IsLow (hostUnit le x)) :
    convertAt u le s = .error invalidSequence := by
  rw [convertAt,read_ok hx]
  simp only [bind,Except.bind,high_test_iff,low_test_iff]
  rw [if_neg fun hhigh => hhigh.not_isLow hlow,if_pos hlow]
  rfl

theorem convertAt_high_end (hx : u[s.i]? = some x) (hhigh : IsHigh (hostUnit le x))
    (hend : u.length ≤ s.i+1) : convertAt u le s = .error invalidSequence := by
  rw [convertAt,read_ok hx]
  simp only [bind,Except.bind,high_test_iff]
  rw [if_pos hhigh,if_pos hend]
  rfl

theorem convertAt_high_broken (hx : u[s.i]? = some x) (hy : u[s.i+1]? = some y)
    (hhigh : IsHigh (hostUnit le x)) (hlow : ¬ IsLow (hostUnit le y)) :
    convertAt u le s = .error invalidSequence := by
  have hlt := List.getElem?_eq_some_iff.mp hy |>.1
  rw [convertAt,read_ok hx]
  simp only [bind,Except.bind,high_test_iff,not_low_test_iff]
  rw [if_pos hhigh,if_neg (by omega),read_ok hy]
  simp only
  rw [if_pos hlow]
  rfl

theorem convertAt_pair (hx : u[s.i]? = some x) (hy : u[s.i+1]? = some y)
    (hhigh : IsHigh (hostUnit le x)) (hlow : IsLow (hostUnit le y)) :
    convertAt u le s = .ok (.next ⟨s.i+2,
      s.utf8 ++ String.utf8EncodeChar (pairChar (hostUnit le x) (hostUnit le y))⟩) := by
  have hlt := List.getElem?_eq_some_iff.mp hy |>.1
  rw [convertAt,read_ok hx]
  simp only [bind,Except.bind,high_test_iff,not_low_test_iff]
  rw [if_pos hhigh,if_neg (by omega),read_ok hy]
  simp only
  rw [if_neg (not_not.mpr hlow),← pair_bytes hhigh hlow]
  rfl

/-- Everything one pass can do: read one encoded scalar value off the front of what remains and
append its UTF-8 form, or throw where nothing can be read. -/
theorem convertAt_cases (le : Bool) (hi : s.i < u.length) :
    (∃ c n, 0 < n ∧ s.i+n ≤ u.length ∧
      (hostOrder le u).drop s.i = utf16EncodeChar c ++ (hostOrder le u).drop (s.i+n) ∧
      convertAt u le s = .ok (.next ⟨s.i+n,s.utf8 ++ String.utf8EncodeChar c⟩)) ∨
    decodeUtf16 ((hostOrder le u).drop s.i) = none ∧
      convertAt u le s = .error invalidSequence := by
  have hx : u[s.i]? = some u[s.i] := List.getElem?_eq_getElem hi
  have hdrop : (hostOrder le u).drop s.i =
      hostUnit le u[s.i] :: (hostOrder le u).drop (s.i+1) := by
    rw [List.drop_eq_getElem?_toList_append,hostOrder_getElem?,hx]; rfl
  by_cases hs : IsSurrogate (hostUnit le u[s.i])
  swap
  · refine .inl ⟨unitChar (hostUnit le u[s.i]),1,by omega,hi,?_,?_⟩
    · rw [utf16EncodeChar_unitChar hs]; exact hdrop
    · rw [utf8EncodeChar_unitChar hs]; exact convertAt_unit hx hs
  rcases (isSurrogate_iff _).mp hs with hhigh | hlow
  swap
  · refine .inr ⟨?_,convertAt_low hx hlow⟩
    rw [hdrop,decodeUtf16_low hlow]
  by_cases hend : u.length ≤ s.i+1
  · refine .inr ⟨?_,convertAt_high_end hx hhigh hend⟩
    rw [hdrop,List.drop_eq_nil_of_le (by simpa using hend),decodeUtf16_high_end hhigh]
  rw [not_le] at hend
  have hy : u[s.i+1]? = some u[s.i+1] := List.getElem?_eq_getElem hend
  have hdrop' : (hostOrder le u).drop (s.i+1) =
      hostUnit le u[s.i+1] :: (hostOrder le u).drop (s.i+2) := by
    rw [List.drop_eq_getElem?_toList_append,hostOrder_getElem?,hy]; rfl
  by_cases hlow : IsLow (hostUnit le u[s.i+1])
  · refine .inl ⟨pairChar (hostUnit le u[s.i]) (hostUnit le u[s.i+1]),2,by omega,hend,?_,
      convertAt_pair hx hy hhigh hlow⟩
    rw [utf16EncodeChar_pairChar hhigh hlow,hdrop,hdrop']; rfl
  · refine .inr ⟨?_,convertAt_high_broken hx hy hhigh hlow⟩
    rw [hdrop,hdrop',decodeUtf16_high_broken hhigh hlow]

end Pass

/-- `for (size_t i = 0; i < utf16.size(); ++i)` -/
def loop (utf16 : List UInt16) (isLittleEndian : Bool) : Loop Fault State Empty where
  guard s := decide (s.i < utf16.length)
  body := convertAt utf16 isLittleEndian
  measure s := utf16.length - s.i
  decreases s t hg hb := by
    have hi : s.i < utf16.length := of_decide_eq_true hg
    rcases convertAt_cases isLittleEndian hi with ⟨c,n,hn,_,_,hok⟩ | ⟨_,herr⟩
    · rw [hok] at hb
      cases hb
      dsimp only
      omega
    · rw [herr] at hb
      cases hb

def utf16ToUtf8 (utf16 : List UInt16) (isLittleEndian : Bool) : Except Fault (List UInt8) := do
  match ← (loop utf16 isLittleEndian).run ⟨0,[]⟩ with
  | .next s => return s.utf8

theorem loop_run (u : List UInt16) (le : Bool) (s : State) (hs : s.i ≤ u.length) :
    (loop u le).run s = match decodeUtf16 ((hostOrder le u).drop s.i) with
      | some cs => .ok (.next ⟨u.length,s.utf8 ++ utf8Encode cs⟩)
      | none => .error invalidSequence := by
  induction s using (loop u le).run_induct with
  | stop s hg =>
    have hi : u.length ≤ s.i := not_lt.mp (of_decide_eq_false hg)
    obtain ⟨i,out⟩ := s
    obtain rfl : i = u.length := le_antisymm hs hi
    rw [List.drop_eq_nil_of_le (by simp)]
    simp
  | error s e hg hb =>
    have hi : s.i < u.length := of_decide_eq_true hg
    rcases convertAt_cases le hi with ⟨c,n,_,_,_,hok⟩ | ⟨hnone,herr⟩
    · cases hb.symm.trans hok
    · rw [hnone]
      cases hb.symm.trans herr
      rfl
  | exit s r => exact r.elim
  | next s t hg hb ih =>
    have hi : s.i < u.length := of_decide_eq_true hg
    rcases convertAt_cases le hi with ⟨c,n,_,hle,hdrop,hok⟩ | ⟨_,herr⟩
    · cases hb.symm.trans hok
      rw [ih hle,hdrop,decodeUtf16_utf16EncodeChar]
      cases decodeUtf16 ((hostOrder le u).drop (s.i+n)) with
      | none => rfl
      | some cs => simp
    · cases hb.symm.trans herr

theorem utf16ToUtf8_eq (u : List UInt16) (le : Bool) :
    utf16ToUtf8 u le = match decodeUtf16 (hostOrder le u) with
      | some cs => .ok (utf8Encode cs)
      | none => .error invalidSequence := by
  rw [utf16ToUtf8,loop_run u le ⟨0,[]⟩ (Nat.zero_le _),List.drop_zero]
  cases decodeUtf16 (hostOrder le u) with
  | none => rfl
  | some cs => simp [bind,Except.bind,pure,Except.pure]

theorem utf16ToUtf8_of_decode {u : List UInt16} {le : Bool} {cs : List Char}
    (h : decodeUtf16 (hostOrder le u) = some cs) : utf16ToUtf8 u le = .ok (utf8Encode cs) := by
  simp [utf16ToUtf8_eq,h]

theorem utf16ToUtf8_of_not_wellFormed {u : List UInt16} {le : Bool}
    (h : ¬ WellFormed (hostOrder le u)) : utf16ToUtf8 u le = .error invalidSequence := by
  rw [← decodeUtf16_isSome_iff,Bool.not_eq_true,Option.isSome_eq_false_iff,
    Option.isNone_iff_eq_none] at h
  simp [utf16ToUtf8_eq,h]

theorem utf16ToUtf8_eq_ok_iff (u : List UInt16) (le : Bool) (r : List UInt8) :
    utf16ToUtf8 u le = .ok r ↔ ∃ cs, utf16Encode cs = hostOrder le u ∧ r = utf8Encode cs := by
  rw [utf16ToUtf8_eq]
  constructor
  · intro h
    cases hd : decodeUtf16 (hostOrder le u) with
    | none => simp [hd] at h
    | some cs =>
      rw [hd] at h
      exact ⟨cs,decodeUtf16_eq_some_iff.mp hd,(Except.ok.inj h).symm⟩
  · rintro ⟨cs,hcs,rfl⟩
    simp [decodeUtf16_eq_some_iff.mpr hcs]

theorem utf16ToUtf8_returns_iff (u : List UInt16) (le : Bool) :
    (∃ r, utf16ToUtf8 u le = .ok r) ↔ WellFormed (hostOrder le u) := by
  constructor
  · rintro ⟨r,hr⟩
    by_contra h
    rw [utf16ToUtf8_of_not_wellFormed h] at hr
    cases hr
  · intro h
    obtain ⟨cs,hcs,_⟩ := (wellFormed_iff_existsUnique _).mp h
    exact ⟨utf8Encode cs,(utf16ToUtf8_eq_ok_iff u le _).mpr ⟨cs,hcs,rfl⟩⟩

/-- The converter returns on exactly the well-formed texts, there with the UTF-8 encoding of the
scalar values the units denote, and throws on every other text. -/
theorem utf16ToUtf8_exact (u : List UInt16) (isLittleEndian : Bool) :
    ((∃ r, utf16ToUtf8 u isLittleEndian = .ok r) ↔ WellFormed (hostOrder isLittleEndian u)) ∧
    (WellFormed (hostOrder isLittleEndian u) →
      ∃! cs, utf16Encode cs = hostOrder isLittleEndian u ∧
        utf16ToUtf8 u isLittleEndian = .ok (utf8Encode cs)) ∧
    (¬ WellFormed (hostOrder isLittleEndian u) →
      utf16ToUtf8 u isLittleEndian = .error (.runtimeError "Invalid UTF-16 sequence")) := by
  refine ⟨utf16ToUtf8_returns_iff u isLittleEndian,fun h => ?_,utf16ToUtf8_of_not_wellFormed⟩
  obtain ⟨cs,hcs,huniq⟩ := (wellFormed_iff_existsUnique _).mp h
  refine ⟨cs,⟨hcs,utf16ToUtf8_of_decode (decodeUtf16_eq_some_iff.mpr hcs)⟩,fun ds hds => ?_⟩
  exact huniq ds hds.1

end ScalarConverter
end Potimizer

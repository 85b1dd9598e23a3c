import Potimizer.ScalarConverter

/-! The generator of random texts: it draws code points and appends their units until the text is
long enough. The text is the UTF-16 form of the draws that are scalar values, so that the plain
converter undoes it into their UTF-8 form. -/
namespace Potimizer
namespace RandomText

open UnicodeCodec

/-- What `std::uniform_int_distribution<uint32_t>(0, 0x10FFFF)` returns. -/
abbrev Draw := {codePoint : UInt32 // codePoint ≤ 0x10FFFF}

structure State where
  str : List UInt16
  drawn : ℕ
  deriving DecidableEq

/-- The body of the loop. A surrogate is drawn in vain. -/
def pushCodePoint (str : List UInt16) (codePoint : UInt32) : List UInt16 :=
  if codePoint ≤ 0xD7FF ∨ codePoint ≥ 0xE000 ∧ codePoint ≤ 0xFFFF then
    str ++ [codePoint.toUInt16]
  else if codePoint ≥ 0x10000 ∧ codePoint ≤ 0x10FFFF then
    let codePoint := codePoint - 0x10000
    str ++ [((codePoint >>> 10) + 0xD800).toUInt16] ++ [((codePoint &&& 0x3FF) + 0xDC00).toUInt16]
  else str

/-- `while (str.size() < length)`, for at most `fuel` more draws. -/
def loop (length : ℕ) (draws : ℕ → Draw) : ℕ → State → Option State
  | 0, s => if s.str.length < length then none else some s
  | fuel+1, s =>
    if s.str.length < length then
      loop length draws fuel ⟨pushCodePoint s.str (draws s.drawn),s.drawn+1⟩
    else some s

/-- The text for a stream of draws, with the number of draws it took, if at most `fuel` are
enough. -/
def generateRandomUtf16String (length : ℕ) (draws : ℕ → Draw) (fuel : ℕ) : Option State :=
  loop length draws fuel ⟨[],0⟩

/-- The first draws of the stream, those in the surrogate range left out. -/
def kept (draws : ℕ → Draw) (drawn : ℕ) : List UInt32 :=
  ((List.range drawn).map fun i => (draws i).val).filter fun codePoint =>
    ¬ (0xD800 ≤ codePoint ∧ codePoint ≤ 0xDFFF)

def scalarValues (draws : ℕ → Draw) (drawn : ℕ) : List Char :=
  (kept draws drawn).map fun codePoint => Char.ofNat codePoint.toNat

section Units

variable {codePoint : UInt32}

theorem toUInt16_eq {x : UInt32} {n : ℕ} (h : x.toNat = n) : x.toUInt16 = UInt16.ofNat n := by
  rw [← h]
  rfl

theorem and_low10 (x : UInt32) : (x &&& 0x3FF).toNat = x.toNat % 1024 := by
  rw [UInt32.toNat_and]
  exact Nat.and_two_pow_sub_one_eq_mod x.toNat 10

theorem pushCodePoint_surrogate (str : List UInt16)
    (h : 0xD800 ≤ codePoint ∧ codePoint ≤ 0xDFFF) : pushCodePoint str codePoint = str := by
  simp only [UInt32.le_iff_toNat_le,UInt32.reduceToNat] at h
  simp only [pushCodePoint,ge_iff_le,UInt32.le_iff_toNat_le,UInt32.reduceToNat]
  rw [if_neg (by omega),if_neg (by omega)]

theorem pushCodePoint_scalar (str : List UInt16) (hmax : codePoint ≤ 0x10FFFF)
    (h : ¬ (0xD800 ≤ codePoint ∧ codePoint ≤ 0xDFFF)) :
    pushCodePoint str codePoint = str ++ utf16EncodeChar (Char.ofNat codePoint.toNat) := by
  simp only [UInt32.le_iff_toNat_le,UInt32.reduceToNat] at h hmax
  have hchar : (Char.ofNat codePoint.toNat).toNat = codePoint.toNat := by
    apply toNat_ofNat_of_isValidChar
    unfold Nat.isValidChar
    omega
  simp only [pushCodePoint,ge_iff_le,UInt32.le_iff_toNat_le,UInt32.reduceToNat]
  rw [utf16EncodeChar,hchar]
  by_cases hsmall : codePoint.toNat < 0x10000
  · rw [if_pos (by omega),if_pos hsmall]
    rfl
  · have hoffset : (codePoint - 0x10000).toNat = codePoint.toNat - 0x10000 := by
      rw [UInt32.toNat_sub_of_le]
      · rfl
      · rw [UInt32.le_iff_toNat_le]
        exact not_lt.mp hsmall
    have hhigh : ((codePoint - 0x10000) >>> 10 + 0xD800).toNat =
        0xD800 + (codePoint.toNat - 0x10000) / 0x400 := by
      simp only [UInt32.toNat_add,UInt32.toNat_shiftRight,hoffset,UInt32.reduceToNat,Nat.reduceMod,
        Nat.shiftRight_eq_div_pow]
      omega
    have hlow : (((codePoint - 0x10000) &&& 0x3FF) + 0xDC00).toNat =
        0xDC00 + (codePoint.toNat - 0x10000) % 0x400 := by
      rw [UInt32.toNat_add,and_low10,hoffset]
      simp only [UInt32.reduceToNat]
      omega
    rw [if_neg (by omega),if_pos (by omega),if_neg hsmall,toUInt16_eq hhigh,toUInt16_eq hlow,
      List.append_assoc]
    rfl

theorem length_utf16EncodeChar_le (c : Char) : (utf16EncodeChar c).length ≤ 2 := by
  unfold utf16EncodeChar
  split_ifs <;> simp

end Units

section Draws

variable {length fuel n m : ℕ} {draws : ℕ → Draw} {s : State}

theorem kept_succ (draws : ℕ → Draw) (n : ℕ) : kept draws (n+1) = kept draws n ++
    if 0xD800 ≤ (draws n).val ∧ (draws n).val ≤ 0xDFFF then [] else [(draws n).val] := by
  simp only [kept,List.range_succ,List.map_append,List.filter_append,List.map_cons,List.map_nil,
    List.filter_singleton]
  by_cases h : 0xD800 ≤ (draws n).val ∧ (draws n).val ≤ 0xDFFF
  · rw [if_pos h,decide_eq_false (not_not.mpr h)]
    rfl
  · rw [if_neg h,decide_eq_true h]
    rfl

def textAfter (draws : ℕ → Draw) (n : ℕ) : List UInt16 := utf16Encode (scalarValues draws n)

theorem pushCodePoint_textAfter (draws : ℕ → Draw) (n : ℕ) :
    pushCodePoint (textAfter draws n) (draws n) = textAfter draws (n+1) := by
  rw [textAfter,textAfter,scalarValues,scalarValues,kept_succ]
  by_cases h : 0xD800 ≤ (draws n).val ∧ (draws n).val ≤ 0xDFFF
  · rw [pushCodePoint_surrogate _ h,if_pos h,List.append_nil]
  · rw [pushCodePoint_scalar _ (draws n).property h,if_neg h]
    simp [utf16Encode]

theorem length_textAfter_succ (draws : ℕ → Draw) (n : ℕ) :
    (textAfter draws (n+1)).length ≤ (textAfter draws n).length + 2 := by
  rw [← pushCodePoint_textAfter]
  by_cases h : 0xD800 ≤ (draws n).val ∧ (draws n).val ≤ 0xDFFF
  · rw [pushCodePoint_surrogate _ h]
    omega
  · rw [pushCodePoint_scalar _ (draws n).property h,List.length_append]
    have hlength := length_utf16EncodeChar_le (Char.ofNat (draws n).val.toNat)
    omega

structure Stopped (length : ℕ) (draws : ℕ → Draw) (n : ℕ) (s : State) : Prop where
  str : s.str = textAfter draws s.drawn
  long : length ≤ s.str.length
  short : ∀ m, n ≤ m → m < s.drawn → (textAfter draws m).length < length

theorem Stopped.here (h : ¬ (textAfter draws n).length < length) :
    Stopped length draws n ⟨textAfter draws n,n⟩ :=
  ⟨rfl,not_lt.mp h,fun _ hle hlt => absurd hlt (not_lt.mpr hle)⟩

theorem loop_stopped (h : loop length draws fuel ⟨textAfter draws n,n⟩ = some s) :
    Stopped length draws n s := by
  induction fuel generalizing n with
  | zero =>
    rw [loop] at h
    split_ifs at h with hshort
    exact Option.some.inj h ▸ Stopped.here hshort
  | succ fuel ih =>
    rw [loop] at h
    split_ifs at h with hshort
    · rw [pushCodePoint_textAfter] at h
      have hnext := ih h
      refine ⟨hnext.str,hnext.long,fun m hle hlt => ?_⟩
      obtain rfl | hlater := hle.eq_or_lt
      · exact hshort
      · exact hnext.short m hlater hlt
    · exact Option.some.inj h ▸ Stopped.here hshort

theorem loop_isSome (h : length ≤ (textAfter draws (n+fuel)).length) :
    (loop length draws fuel ⟨textAfter draws n,n⟩).isSome := by
  induction fuel generalizing n with
  | zero =>
    have hlong : ¬ (textAfter draws n).length < length := not_lt.mpr h
    rw [loop,if_neg hlong]
    rfl
  | succ fuel ih =>
    rw [loop]
    split_ifs
    · rw [pushCodePoint_textAfter]
      apply ih
      rwa [Nat.add_right_comm]
    · rfl

/-- The generator returns exactly on the streams that have units enough. -/
theorem generateRandomUtf16String_returns_iff (length : ℕ) (draws : ℕ → Draw) :
    (∃ fuel s, generateRandomUtf16String length draws fuel = some s) ↔
      ∃ n, length ≤ (textAfter draws n).length := by
  constructor
  · rintro ⟨fuel,s,h⟩
    have hstopped : Stopped length draws 0 s := loop_stopped h
    exact ⟨s.drawn,hstopped.str ▸ hstopped.long⟩
  · rintro ⟨n,hlong⟩
    have hsome : (loop length draws n ⟨textAfter draws 0,0⟩).isSome :=
      loop_isSome (by rwa [Nat.zero_add])
    exact ⟨n,Option.isSome_iff_exists.mp hsome⟩

theorem Stopped.length_le (h : Stopped length draws 0 s) : s.str.length ≤ length+1 := by
  obtain ⟨str,drawn⟩ := s
  obtain rfl : str = textAfter draws drawn := h.str
  cases drawn with
  | zero => exact Nat.zero_le _
  | succ n =>
    have hshort := h.short n (Nat.zero_le n) (Nat.lt_succ_self n)
    have hstep := length_textAfter_succ draws n
    dsimp only
    omega

theorem Stopped.of_length_zero (h : Stopped 0 draws 0 s) : s.str = [] := by
  obtain hzero | hpos := Nat.eq_zero_or_pos s.drawn
  · rw [h.str,hzero]
    rfl
  · exact absurd (h.short 0 le_rfl hpos) (Nat.not_lt_zero _)

theorem utf16ToUtf8_textAfter (draws : ℕ → Draw) (n : ℕ) :
    ScalarConverter.utf16ToUtf8 (textAfter draws n) true =
      .ok (utf8Encode (scalarValues draws n)) :=
  ScalarConverter.utf16ToUtf8_of_decode (decodeUtf16_utf16Encode _)

/-- Whatever is drawn, a text the generator returns for a length has this length or one unit more,
and the plain converter accepts it and returns the UTF-8 forms of the draws it took, in order and
without the surrogates. -/
theorem generated_text_converts
    (h : generateRandomUtf16String length draws fuel = some s) :
    (s.str.length = length ∨ s.str.length = length+1) ∧ (length = 0 → s.str = []) ∧
      ScalarConverter.utf16ToUtf8 s.str true =
        .ok ((kept draws s.drawn).flatMap fun codePoint =>
          String.utf8EncodeChar (Char.ofNat codePoint.toNat)) := by
  have hstopped : Stopped length draws 0 s := loop_stopped h
  refine ⟨?_,?_,?_⟩
  · have hlong := hstopped.long
    have hle := hstopped.length_le
    omega
  · rintro rfl
    exact hstopped.of_length_zero
  · rw [hstopped.str,utf16ToUtf8_textAfter,utf8Encode,scalarValues,List.flatMap_map]

def sampleDraws (i : ℕ) : Draw :=
  if i % 3 = 0 then ⟨0xD800,by decide⟩ else if i % 3 = 1 then ⟨0x1F600,by decide⟩
  else ⟨0x41,by decide⟩

theorem generated_text_converts_sample :
    generateRandomUtf16String 4 sampleDraws 9 =
      some ⟨[0xD83D,0xDE00,0x41,0xD83D,0xDE00],5⟩ ∧
    ScalarConverter.utf16ToUtf8 [0xD83D,0xDE00,0x41,0xD83D,0xDE00] true =
      .ok ((kept sampleDraws 5).flatMap fun codePoint =>
        String.utf8EncodeChar (Char.ofNat codePoint.toNat)) := by
  have h : generateRandomUtf16String 4 sampleDraws 9 =
      some ⟨[0xD83D,0xDE00,0x41,0xD83D,0xDE00],5⟩ := by decide
  obtain ⟨-,-,hconverts⟩ := generated_text_converts h
  exact ⟨h,hconverts⟩

end Draws

end RandomText
end Potimizer

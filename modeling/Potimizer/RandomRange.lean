import Potimizer.RandomText
import Potimizer.ConverterAgreement

/-! Which texts the generator returns for some stream of draws: every well-formed text of the
length asked for, those of one unit more that end in a pair, and no others. On a generated text the
two converters agree exactly when no draw lay past the basic plane and no block went wrong. -/
namespace Potimizer
namespace RandomText

open UnicodeCodec VectorConverter ConverterAgreement

def EndsLow (text : List UInt16) : Prop := ∃ w ∈ text.getLast?, IsLow w

theorem endsLow_concat_iff (cs : List Char) (c : Char) :
    EndsLow (utf16Encode (cs ++ [c])) ↔ (utf16EncodeChar c).length = 2 := by
  rw [EndsLow,utf16Encode_concat]
  obtain ⟨u,hu,hc,-⟩ | ⟨u,w,-,hw,hc,-⟩ := utf16EncodeChar_cases c
  · have hlow : ¬ IsLow u := fun hlow => hu ((isSurrogate_iff u).mpr (.inr hlow))
    simp [hc,hlow]
  · have hsplit : utf16Encode cs ++ [u,w] = (utf16Encode cs ++ [u]) ++ [w] := by simp
    rw [hc,hsplit,List.getLast?_concat]
    simp [hw]

section Range

variable {length n fuel : ℕ} {draws : ℕ → Draw} {s : State} {cs : List Char}

/-- The texts of a length, with the slack of a pair at the end. -/
structure InRange (length : ℕ) (text : List UInt16) : Prop where
  wellFormed : WellFormed text
  length_eq : text.length = length ∨ text.length = length+1 ∧ EndsLow text

theorem wellFormed_textAfter (draws : ℕ → Draw) (n : ℕ) : WellFormed (textAfter draws n) := by
  rw [← decodeUtf16_isSome_iff,textAfter,decodeUtf16_utf16Encode]
  rfl

theorem Stopped.inRange (h : Stopped length draws 0 s) : InRange length s.str := by
  refine ⟨h.str ▸ wellFormed_textAfter draws s.drawn,?_⟩
  obtain ⟨str,drawn⟩ := s
  have hstr : str = textAfter draws drawn := h.str
  have hlong : length ≤ str.length := h.long
  have hle : str.length ≤ length+1 := h.length_le
  obtain heq | heq : str.length = length ∨ str.length = length+1 := by omega
  · exact .inl heq
  refine .inr ⟨heq,?_⟩
  cases drawn with
  | zero =>
    have hnil : str = [] := hstr
    simp [hnil] at heq
  | succ n =>
    -- The last draw added two units, since the text before it was too short.
    have hshort := h.short n (Nat.zero_le n) (Nat.lt_succ_self n)
    rw [← pushCodePoint_textAfter] at hstr
    by_cases hsurrogate : 0xD800 ≤ (draws n).val ∧ (draws n).val ≤ 0xDFFF
    · rw [pushCodePoint_surrogate _ hsurrogate] at hstr
      rw [hstr] at heq
      omega
    · rw [pushCodePoint_scalar _ (draws n).property hsurrogate,textAfter,
        ← utf16Encode_concat] at hstr
      rw [hstr,endsLow_concat_iff]
      rw [hstr,utf16Encode_concat,List.length_append] at heq
      have hchar := length_utf16EncodeChar_le (Char.ofNat (draws n).val.toNat)
      rw [textAfter] at hshort
      omega

theorem val_le (c : Char) : c.val ≤ 0x10FFFF := by
  have hvalid := char_toNat_valid c
  have hval : c.val.toNat = c.toNat := rfl
  simp only [UInt32.le_iff_toNat_le,UInt32.reduceToNat]
  omega

def drawsOf (cs : List Char) (i : ℕ) : Draw := ⟨(cs.getD i 'A').val,val_le _⟩

theorem textAfter_drawsOf (hn : n ≤ cs.length) :
    textAfter (drawsOf cs) n = utf16Encode (cs.take n) := by
  induction n with
  | zero => rfl
  | succ n ih =>
    have hc : cs[n]? = some cs[n] := List.getElem?_eq_getElem hn
    have hdraw : (drawsOf cs n).val = cs[n].val := by simp [drawsOf,hc]
    have hscalar : ¬ (0xD800 ≤ cs[n].val ∧ cs[n].val ≤ 0xDFFF) := by
      have hvalid := char_toNat_valid cs[n]
      have hval : cs[n].val.toNat = cs[n].toNat := rfl
      simp only [UInt32.le_iff_toNat_le,UInt32.reduceToNat]
      omega
    have hchar : Char.ofNat cs[n].val.toNat = cs[n] := Char.ofNat_toNat cs[n]
    rw [← pushCodePoint_textAfter,ih (by omega),pushCodePoint_scalar _ (drawsOf cs n).property
      (hdraw ▸ hscalar),hdraw,hchar,← utf16Encode_concat,List.take_add_one,hc]
    rfl

theorem InRange.short (h : InRange length (utf16Encode cs)) (hn : n < cs.length) :
    (utf16Encode (cs.take n)).length < length := by
  obtain ⟨ds,c,rfl⟩ : ∃ ds c, cs = ds ++ [c] :=
    ⟨_,_,(List.dropLast_append_getLast (List.ne_nil_of_length_pos (by omega))).symm⟩
  have hle : (utf16Encode ((ds ++ [c]).take n)).length ≤ (utf16Encode ds).length := by
    have htake : (ds ++ [c]).take n = ds.take n := by
      rw [List.length_append,List.length_singleton] at hn
      exact List.take_append_of_le_length (by omega)
    have hsplit := utf16Encode_append (ds.take n) (ds.drop n)
    rw [List.take_append_drop] at hsplit
    rw [htake,hsplit,List.length_append]
    omega
  have hlength := h.length_eq
  rw [endsLow_concat_iff,utf16Encode_concat,List.length_append] at hlength
  obtain ⟨u,-,hc,-⟩ | ⟨u,w,-,-,hc,-⟩ := utf16EncodeChar_cases c
  · simp only [hc,List.length_singleton] at hlength
    omega
  · simp only [hc,List.length_cons,List.length_nil] at hlength
    omega

theorem InRange.generated (h : InRange length (utf16Encode cs)) :
    ∃ fuel, ∃ s, generateRandomUtf16String length (drawsOf cs) fuel = some s ∧
      s.str = utf16Encode cs := by
  have hwhole : textAfter (drawsOf cs) cs.length = utf16Encode cs := by
    rw [textAfter_drawsOf le_rfl,List.take_length]
  have hlong : length ≤ (textAfter (drawsOf cs) cs.length).length := by
    have hlength := h.length_eq
    rw [hwhole]
    omega
  obtain ⟨fuel,s,hs⟩ := (generateRandomUtf16String_returns_iff length (drawsOf cs)).mpr
    ⟨cs.length,hlong⟩
  have hstopped : Stopped length (drawsOf cs) 0 s := loop_stopped hs
  refine ⟨fuel,s,hs,?_⟩
  obtain hlt | heq | hgt := Nat.lt_trichotomy s.drawn cs.length
  · have hshort := h.short hlt
    have hstr := hstopped.long
    rw [hstopped.str,textAfter_drawsOf hlt.le] at hstr
    omega
  · rw [hstopped.str,heq,hwhole]
  · have hshort := hstopped.short cs.length (Nat.zero_le _) hgt
    omega

/-- For some stream of draws the generator returns a text for a length exactly if the text is well
formed and has this length, or one unit more and ends in a pair. -/
theorem generateRandomUtf16String_range (length : ℕ) (text : List UInt16) :
    (∃ draws fuel s, generateRandomUtf16String length draws fuel = some s ∧ s.str = text) ↔
      WellFormed text ∧ (text.length = length ∨ text.length = length+1 ∧ EndsLow text) := by
  constructor
  · rintro ⟨draws,fuel,s,hs,rfl⟩
    have hstopped : Stopped length draws 0 s := loop_stopped hs
    exact ⟨hstopped.inRange.wellFormed,hstopped.inRange.length_eq⟩
  · rintro ⟨hwell,hlength⟩
    obtain ⟨cs,rfl,-⟩ := (wellFormed_iff_existsUnique text).mp hwell
    obtain ⟨fuel,s,hs,hstr⟩ := InRange.generated ⟨hwell,hlength⟩
    exact ⟨drawsOf cs,fuel,s,hs,hstr⟩

end Range

section Termination

variable {n m : ℕ} {draws : ℕ → Draw}

def Vain (draw : Draw) : Prop := 0xD800 ≤ draw.val ∧ draw.val ≤ 0xDFFF

theorem length_textAfter_mono (draws : ℕ → Draw) (h : n ≤ m) :
    (textAfter draws n).length ≤ (textAfter draws m).length := by
  induction m, h using Nat.le_induction with
  | base => exact le_rfl
  | succ m _ ih =>
    rw [← pushCodePoint_textAfter draws m]
    by_cases hvain : Vain (draws m)
    · rwa [pushCodePoint_surrogate _ hvain]
    · rw [pushCodePoint_scalar _ (draws m).property hvain,List.length_append]
      omega

theorem length_textAfter_lt (h : ¬ Vain (draws n)) :
    (textAfter draws n).length < (textAfter draws (n+1)).length := by
  rw [← pushCodePoint_textAfter draws n,pushCodePoint_scalar _ (draws n).property h,
    List.length_append]
  obtain ⟨u,-,hc,-⟩ | ⟨u,w,-,-,hc,-⟩ := utf16EncodeChar_cases (Char.ofNat (draws n).val.toNat)
  all_goals
    rw [hc]
    simp

theorem textAfter_of_vain (h : ∀ i, n ≤ i → Vain (draws i)) (hm : n ≤ m) :
    textAfter draws m = textAfter draws n := by
  induction m, hm using Nat.le_induction with
  | base => rfl
  | succ m hm ih => rw [← pushCodePoint_textAfter,pushCodePoint_surrogate _ (h m hm),ih]

/-- The generator terminates for every length exactly on the streams that never turn into
surrogates only. -/
theorem generateRandomUtf16String_total_iff (draws : ℕ → Draw) :
    (∀ length, ∃ fuel s, generateRandomUtf16String length draws fuel = some s) ↔
      ∀ n, ∃ i, n ≤ i ∧ ¬ Vain (draws i) := by
  simp only [generateRandomUtf16String_returns_iff]
  constructor
  · intro h n
    by_contra hvain
    push Not at hvain
    obtain ⟨m,hm⟩ := h ((textAfter draws n).length+1)
    obtain hle | hle := le_total m n
    · have hmono := length_textAfter_mono draws hle
      omega
    · rw [textAfter_of_vain hvain hle] at hm
      omega
  · intro h length
    induction length with
    | zero => exact ⟨0,Nat.zero_le _⟩
    | succ length ih =>
      obtain ⟨n,hn⟩ := ih
      obtain ⟨i,hi,hdraw⟩ := h n
      have hmono := length_textAfter_mono draws hi
      have hlt := length_textAfter_lt hdraw
      exact ⟨i+1,by omega⟩

end Termination

section Agreement

variable {length n fuel : ℕ} {draws : ℕ → Draw} {s : State} {cs : List Char}

theorem noSurrogates_utf16Encode_iff (cs : List Char) :
    NoSurrogates (utf16Encode cs) ↔ ∀ c ∈ cs, c.toNat < 0x10000 := by
  induction cs with
  | nil => simp [NoSurrogates]
  | cons c cs ih =>
    rw [NoSurrogates] at ih ⊢
    rw [utf16Encode_cons,List.forall_mem_append,ih,List.forall_mem_cons,and_congr_left_iff]
    intro _
    obtain ⟨u,hu,hc,hlt⟩ | ⟨u,w,hu,-,hc,hge⟩ := utf16EncodeChar_cases c
    · simpa [hc,hlt] using hu
    · have hsurrogate : IsSurrogate u := (isSurrogate_iff u).mpr (.inl hu)
      simp [hc,hsurrogate]
      omega

theorem forall_scalarValues_iff (draws : ℕ → Draw) (n : ℕ) :
    (∀ c ∈ scalarValues draws n, c.toNat < 0x10000) ↔ ∀ i < n, (draws i).val ≤ 0xFFFF := by
  induction n with
  | zero => simp [scalarValues,kept]
  | succ n ih =>
    have hmax := (draws n).property
    rw [Nat.forall_lt_succ_right,← ih,scalarValues,scalarValues,kept_succ,List.map_append,
      List.forall_mem_append,and_congr_right_iff]
    intro _
    simp only [UInt32.le_iff_toNat_le,UInt32.reduceToNat] at hmax ⊢
    split_ifs with hsurrogate
    · simp only [List.map_nil,List.not_mem_nil,false_implies,implies_true,true_iff]
      omega
    · have hchar : (Char.ofNat (draws n).val.toNat).toNat = (draws n).val.toNat := by
        apply toNat_ofNat_of_isValidChar
        unfold Nat.isValidChar
        omega
      simp only [List.map_cons,List.map_nil,List.forall_mem_singleton,hchar]
      omega

/-- On a text the generator returned the two converters agree exactly when no code point drawn for
it lay above 0xFFFF and no block outside ASCII took the shortcut. -/
theorem generated_converters_agree_iff
    (h : generateRandomUtf16String length draws fuel = some s) :
    utf16ToUtf8Avx2 s.str true = ScalarConverter.utf16ToUtf8 s.str true ↔
      (∀ i < s.drawn, (draws i).val ≤ 0xFFFF) ∧ ShortcutsAscii s.str := by
  have hstopped : Stopped length draws 0 s := loop_stopped h
  have hdecode := decodeUtf16_utf16Encode (scalarValues draws s.drawn)
  have hhost : hostOrder true (textAfter draws s.drawn) = textAfter draws s.drawn := rfl
  rw [hstopped.str,utf16ToUtf8_textAfter,utf16ToUtf8Avx2_eq,Except.ok.injEq,hhost,textAfter,
    avx2Bytes_eq_iff hdecode,noSurrogates_utf16Encode_iff,forall_scalarValues_iff]

theorem generated_converters_agree_iff_sample :
    utf16ToUtf8Avx2 [0xD83D,0xDE00,0x41,0xD83D,0xDE00] true =
      ScalarConverter.utf16ToUtf8 [0xD83D,0xDE00,0x41,0xD83D,0xDE00] true ↔
    (∀ i < 5, (sampleDraws i).val ≤ 0xFFFF) ∧ ShortcutsAscii [0xD83D,0xDE00,0x41,0xD83D,0xDE00] := by
  have h : generateRandomUtf16String 4 sampleDraws 9 =
      some ⟨[0xD83D,0xDE00,0x41,0xD83D,0xDE00],5⟩ := by decide
  exact generated_converters_agree_iff h

end Agreement

end RandomText
end Potimizer

import Potimizer.PrefixCode
import Potimizer.ScalarRoundTrip
import Potimizer.ConverterAgreement

/-! The converters as prefix codes: one result extends another exactly when the one text extends the
other. The vector converter encodes unit by unit, surrogates included, so that a strict reader of
UTF-8 refuses its result exactly on the texts that contain one. -/
namespace Potimizer
namespace ConverterOrder

open UnicodeCodec Utf8Grammar VectorConverter ConverterAgreement

/-- The UTF-8 forms of the scalar values: the decoder of the core library reads one back whatever
follows it. -/
def utf8Code : PrefixCode Char UInt8 where
  word := String.utf8EncodeChar
  nonempty _ := String.utf8EncodeChar_ne_nil
  eq_of_extends := by
    rintro c d ⟨t,ht⟩
    have hbytes : (String.utf8EncodeChar d).toByteArray ++ ByteArray.empty =
        (String.utf8EncodeChar c).toByteArray ++ t.toByteArray := by
      rw [← List.toByteArray_append,ht]
      exact ByteArray.append_empty
    have hd : some d = some c := by
      rw [← ByteArray.utf8DecodeChar?_utf8EncodeChar_append (b := ByteArray.empty),hbytes,
        ByteArray.utf8DecodeChar?_utf8EncodeChar_append]
    exact (Option.some.inj hd).symm

def utf16Code : PrefixCode Char UInt16 where
  word := utf16EncodeChar
  nonempty c := by
    unfold utf16EncodeChar
    split_ifs <;> simp
  eq_of_extends := by
    rintro c d ⟨t,ht⟩
    have hd := decodeUtf16_utf16EncodeChar d []
    rw [List.append_nil,← ht,decodeUtf16_utf16EncodeChar,decodeUtf16_nil,Option.map_some,
      Option.map_eq_some_iff] at hd
    obtain ⟨cs,-,hcs⟩ := hd
    exact (List.cons.inj hcs).1

theorem utf16EncodeChar_injective : Function.Injective utf16EncodeChar := utf16Code.word_injective

/-- The forms the vector converter gives the units, those of surrogates included: the first byte
tells the length, and the bits of a form tell the unit. -/
def unitCode : PrefixCode UInt16 UInt8 where
  word := utf8Unit
  nonempty w := List.ne_nil_of_length_pos (utf8Unit_length_pos w)
  eq_of_extends := by
    intro x y h
    have hx := x.toNat_lt
    have hy := y.toNat_lt
    rw [← UInt16.toNat_inj]
    unfold utf8Unit at h
    split_ifs at h
    all_goals
      simp only [List.cons_prefix_cons,List.prefix_nil,List.nil_prefix,← UInt8.toNat_inj,
        UInt8.toNat_ofNat',reduceCtorEq,and_true,and_false] at h
    all_goals omega

theorem hostOrder_extends_iff {u u' : List UInt16} {le : Bool} :
    hostOrder le u <+: hostOrder le u' ↔ u <+: u' := by
  have hinjective : Function.Injective byteSwap := Function.Involutive.injective byteSwap_byteSwap
  cases le with
  | false => exact List.prefix_map_iff_of_injective hinjective
  | true => exact Iff.rfl

section Scalar

variable {u u' : List UInt16} {le : Bool} {r r' : List UInt8}

/-- On the texts it accepts the plain converter keeps and reflects extension, for either byte
order: what was returned for the beginning of a text is the beginning of what is returned for it,
and of no other text. -/
theorem utf16ToUtf8_extends_iff (h : ScalarConverter.utf16ToUtf8 u le = .ok r)
    (h' : ScalarConverter.utf16ToUtf8 u' le = .ok r') : r <+: r' ↔ u <+: u' := by
  obtain ⟨cs,hcs,rfl⟩ := (ScalarConverter.utf16ToUtf8_eq_ok_iff u le r).mp h
  obtain ⟨ds,hds,rfl⟩ := (ScalarConverter.utf16ToUtf8_eq_ok_iff u' le r').mp h'
  have hbytes : utf8Encode cs <+: utf8Encode ds ↔ cs <+: ds := utf8Code.encode_extends_iff
  have hunits : utf16Encode cs <+: utf16Encode ds ↔ cs <+: ds := utf16Code.encode_extends_iff
  rw [hbytes,← hunits,hcs,hds,hostOrder_extends_iff]

theorem utf16ToUtf8_extends_iff_pair :
    ([0x41] : List UInt8) <+: [0x41,0xF0,0x9F,0x98,0x80] ↔
      ([0x41] : List UInt16) <+: [0x41,0xD83D,0xDE00] := by
  have h : ScalarConverter.utf16ToUtf8 [0x41] true = .ok [0x41] := by
    rw [ScalarConverter.utf16ToUtf8_eq]; rfl
  have h' : ScalarConverter.utf16ToUtf8 [0x41,0xD83D,0xDE00] true =
      .ok [0x41,0xF0,0x9F,0x98,0x80] := by
    rw [ScalarConverter.utf16ToUtf8_eq]; rfl
  exact utf16ToUtf8_extends_iff h h'

end Scalar

section Vector

variable {u u' v : List UInt16} {le : Bool} {r r' : List UInt8}

theorem avx2Bytes_extends_iff {v v' : List UInt16} (hs : ShortcutsAscii v)
    (hs' : ShortcutsAscii v') : avx2Bytes v <+: avx2Bytes v' ↔ v <+: v' := by
  rw [avx2Bytes_of_agree hs,avx2Bytes_of_agree hs']
  exact unitCode.encode_extends_iff

theorem wellFormed_of_noSurrogates (h : NoSurrogates v) : WellFormed v := by
  refine ⟨fun i u hu hhigh => ?_,fun i w hw hlow => ?_⟩
  · exact absurd ((isSurrogate_iff u).mpr (.inl hhigh)) (h u (List.mem_of_getElem? hu))
  · exact absurd ((isSurrogate_iff w).mpr (.inr hlow)) (h w (List.mem_of_getElem? hw))

theorem wellFormedUtf8_flatMap_iff (v : List UInt16) :
    WellFormedUtf8 (v.flatMap utf8Unit) ↔ NoSurrogates v := by
  constructor
  · intro h
    obtain ⟨cs,hcs⟩ := (wellFormedUtf8_iff _).mp h
    exact not_isSurrogate_of_isChain (hcs ▸ utf8Encode_isChain cs)
  · intro h
    obtain ⟨cs,hcs⟩ := Option.isSome_iff_exists.mp
      ((decodeUtf16_isSome_iff v).mpr (wellFormed_of_noSurrogates h))
    rw [← utf8Encode_eq_flatMap hcs h]
    exact wellFormedUtf8_encode cs

/-- Where no shortcut goes wrong the vector converter loses nothing, not even of a text that is no
UTF-16: it keeps and reflects extension, and its result is a UTF-8 text exactly if the text has no
surrogate, paired or not. -/
theorem utf16ToUtf8Avx2_extends_iff (hs : ShortcutsAscii (hostOrder le u))
    (hs' : ShortcutsAscii (hostOrder le u')) (h : utf16ToUtf8Avx2 u le = .ok r)
    (h' : utf16ToUtf8Avx2 u' le = .ok r') :
    (r <+: r' ↔ u <+: u') ∧ (WellFormedUtf8 r ↔ NoSurrogates (hostOrder le u)) := by
  rw [utf16ToUtf8Avx2_eq,Except.ok.injEq] at h h'
  refine ⟨?_,?_⟩
  · rw [← h,← h',avx2Bytes_extends_iff hs hs',hostOrder_extends_iff]
  · rw [← h,avx2Bytes_of_agree hs]
    exact wellFormedUtf8_flatMap_iff _

/-- Sixteen letters and a lone surrogate, and the same text with one letter more. -/
theorem utf16ToUtf8Avx2_extends_iff_full_block :
    Shortcut (blockAt (List.replicate 16 0x41 ++ [0xD800]) 0) ∧
    (List.replicate 16 0x41 ++ [0xED,0xA0,0x80] <+:
        List.replicate 16 0x41 ++ ([0xED,0xA0,0x80,0x41] : List UInt8) ↔
      List.replicate 16 0x41 ++ [0xD800] <+:
        List.replicate 16 0x41 ++ ([0xD800,0x41] : List UInt16)) ∧
    (WellFormedUtf8 (List.replicate 16 0x41 ++ [0xED,0xA0,0x80]) ↔
      NoSurrogates (hostOrder true (List.replicate 16 0x41 ++ [0xD800]))) := by
  have hascii (v : List UInt16) (hv : v.length < 16) :
      ShortcutsAscii (hostOrder true (List.replicate 16 0x41 ++ v)) := by
    intro k hk _ w hw
    rw [hostOrder_length,List.length_append,List.length_replicate] at hk
    obtain rfl : k = 0 := by omega
    rw [blockAt,hostOrder,if_pos rfl,Nat.mul_zero,List.drop_zero,
      List.take_left' List.length_replicate] at hw
    rw [List.eq_of_mem_replicate hw]
    decide
  have h : utf16ToUtf8Avx2 (List.replicate 16 0x41 ++ [0xD800]) true =
      .ok (List.replicate 16 0x41 ++ [0xED,0xA0,0x80]) := by
    rw [utf16ToUtf8Avx2_eq]
    decide
  have h' : utf16ToUtf8Avx2 (List.replicate 16 0x41 ++ [0xD800,0x41]) true =
      .ok (List.replicate 16 0x41 ++ [0xED,0xA0,0x80,0x41]) := by
    rw [utf16ToUtf8Avx2_eq]
    decide
  exact ⟨by decide,utf16ToUtf8Avx2_extends_iff (hascii _ (by decide)) (hascii _ (by decide)) h h'⟩

end Vector

end ConverterOrder
end Potimizer

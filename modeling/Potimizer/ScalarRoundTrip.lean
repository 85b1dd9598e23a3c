import Potimizer.ScalarConverter
import Potimizer.Utf8Grammar

/-! The scalar converter loses nothing and reaches everything: the texts it accepts and the
well-formed UTF-8 texts correspond one to one. -/
namespace Potimizer
namespace ScalarRoundTrip

open UnicodeCodec Utf8Grammar ScalarConverter

variable {u u' : List UInt16} {le : Bool} {r : List UInt8}

theorem wellFormedUtf8_of_ok (h : utf16ToUtf8 u le = .ok r) : WellFormedUtf8 r := by
  obtain ⟨cs,-,rfl⟩ := (utf16ToUtf8_eq_ok_iff u le r).mp h
  exact wellFormedUtf8_encode cs

theorem eq_of_ok (h : utf16ToUtf8 u le = .ok r) (h' : utf16ToUtf8 u' le = .ok r) : u = u' := by
  obtain ⟨cs,hcs,rfl⟩ := (utf16ToUtf8_eq_ok_iff u le r).mp h
  obtain ⟨ds,hds,heq⟩ := (utf16ToUtf8_eq_ok_iff u' le _).mp h'
  obtain rfl := utf8Encode_injective heq
  exact hostOrder_injective le (hcs.symm.trans hds)

theorem exists_ok (le : Bool) (h : WellFormedUtf8 r) : ∃ u, utf16ToUtf8 u le = .ok r := by
  obtain ⟨cs,rfl⟩ := (wellFormedUtf8_iff r).mp h
  refine ⟨hostOrder le (utf16Encode cs),(utf16ToUtf8_eq_ok_iff _ le _).mpr ⟨cs,?_,rfl⟩⟩
  rw [hostOrder_hostOrder]

/-- For either byte order the converter is a bijection from the texts it accepts onto the
well-formed UTF-8 texts. -/
theorem utf16ToUtf8_bijection (isLittleEndian : Bool) :
    (∀ u r, utf16ToUtf8 u isLittleEndian = .ok r → WellFormedUtf8 r) ∧
    (∀ u u' r, utf16ToUtf8 u isLittleEndian = .ok r → utf16ToUtf8 u' isLittleEndian = .ok r →
      u = u') ∧
    (∀ r, WellFormedUtf8 r → ∃ u, utf16ToUtf8 u isLittleEndian = .ok r) :=
  ⟨fun _ _ => wellFormedUtf8_of_ok,fun _ _ _ => eq_of_ok,fun _ => exists_ok isLittleEndian⟩

end ScalarRoundTrip
end Potimizer

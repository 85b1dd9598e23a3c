import Potimizer.UnicodeCodec

/-! The strict grammar of UTF-8, stated by the ranges of its bytes, and its equivalence with being
an encoding: the encoder is a bijection from lists of scalar values onto the texts of the grammar. -/
namespace Potimizer
namespace Utf8Grammar

open UnicodeCodec

def Tail (b : UInt8) : Prop := 0x80 ≤ b.toNat ∧ b.toNat ≤ 0xBF

/-- The bytes of one scalar value: no overlong form, no surrogate, nothing above 10FFFF. -/
inductive Utf8Char : List UInt8 → Prop
  | one {a} (ha : a.toNat ≤ 0x7F) : Utf8Char [a]
  | two {a b} (ha : 0xC2 ≤ a.toNat ∧ a.toNat ≤ 0xDF) (hb : Tail b) : Utf8Char [a,b]
  | three {a b c} (ha : 0xE0 ≤ a.toNat ∧ a.toNat ≤ 0xEF) (hb : Tail b) (hc : Tail c)
      (hoverlong : a.toNat = 0xE0 → 0xA0 ≤ b.toNat) (hsurrogate : a.toNat = 0xED → b.toNat ≤ 0x9F) :
      Utf8Char [a,b,c]
  | four {a b c d} (ha : 0xF0 ≤ a.toNat ∧ a.toNat ≤ 0xF4) (hb : Tail b) (hc : Tail c) (hd : Tail d)
      (hoverlong : a.toNat = 0xF0 → 0x90 ≤ b.toNat) (hmax : a.toNat = 0xF4 → b.toNat ≤ 0x8F) :
      Utf8Char [a,b,c,d]

inductive WellFormedUtf8 : List UInt8 → Prop
  | nil : WellFormedUtf8 []
  | cons {char rest} (hchar : Utf8Char char) (hrest : WellFormedUtf8 rest) :
      WellFormedUtf8 (char ++ rest)

theorem utf8Char_encode (c : Char) : Utf8Char (String.utf8EncodeChar c) := by
  have hvalid := char_toNat_valid c
  have hn : c.val.toNat = c.toNat := rfl
  unfold String.utf8EncodeChar
  rw [hn]
  dsimp only
  split_ifs with h₁ h₂ h₃
  · exact .one (by rw [UInt8.toNat_ofNat']; omega)
  · exact .two (by rw [UInt8.toNat_ofNat']; omega) (by rw [Tail,UInt8.toNat_ofNat']; omega)
  · refine .three ?_ ?_ ?_ ?_ ?_
    all_goals simp only [Tail,UInt8.toNat_ofNat']; omega
  · refine .four ?_ ?_ ?_ ?_ ?_ ?_
    all_goals simp only [Tail,UInt8.toNat_ofNat']; omega

theorem utf8EncodeChar_ofNat {n : ℕ} (h : n.isValidChar) : String.utf8EncodeChar (Char.ofNat n) =
    if n ≤ 0x7F then [UInt8.ofNat n]
    else if n ≤ 0x7FF then [UInt8.ofNat (n / 64 % 32 + 192),UInt8.ofNat (n % 64 + 128)]
    else if n ≤ 0xFFFF then
      [UInt8.ofNat (n / 4096 % 16 + 224),UInt8.ofNat (n / 64 % 64 + 128),UInt8.ofNat (n % 64 + 128)]
    else
      [UInt8.ofNat (n / 262144 % 8 + 240),UInt8.ofNat (n / 4096 % 64 + 128),
        UInt8.ofNat (n / 64 % 64 + 128),UInt8.ofNat (n % 64 + 128)] := by
  have hn : (Char.ofNat n).val.toNat = n := toNat_ofNat_of_isValidChar h
  rw [String.utf8EncodeChar,hn]

theorem ofNat_eq_of_toNat {n : ℕ} {b : UInt8} (h : n = b.toNat) : UInt8.ofNat n = b := by
  rw [h,UInt8.ofNat_toNat]

theorem Utf8Char.exists_char {bytes : List UInt8} (h : Utf8Char bytes) :
    ∃ c, String.utf8EncodeChar c = bytes := by
  cases h with
  | @one a ha =>
    have hvalid : a.toNat.isValidChar := by unfold Nat.isValidChar; omega
    refine ⟨Char.ofNat a.toNat,?_⟩
    rw [utf8EncodeChar_ofNat hvalid,if_pos (by omega),UInt8.ofNat_toNat]
  | @two a b ha hb =>
    unfold Tail at hb
    have hvalid : ((a.toNat - 0xC0) * 64 + (b.toNat - 0x80)).isValidChar := by
      unfold Nat.isValidChar; omega
    refine ⟨Char.ofNat ((a.toNat - 0xC0) * 64 + (b.toNat - 0x80)),?_⟩
    rw [utf8EncodeChar_ofNat hvalid,if_neg (by omega),if_pos (by omega),
      ofNat_eq_of_toNat (b := a) (by omega),ofNat_eq_of_toNat (b := b) (by omega)]
  | @three a b c ha hb hc hoverlong hsurrogate =>
    unfold Tail at hb hc
    have hvalid : ((a.toNat - 0xE0) * 4096 + (b.toNat - 0x80) * 64 + (c.toNat - 0x80)).isValidChar := by
      unfold Nat.isValidChar; omega
    refine ⟨Char.ofNat ((a.toNat - 0xE0) * 4096 + (b.toNat - 0x80) * 64 + (c.toNat - 0x80)),?_⟩
    rw [utf8EncodeChar_ofNat hvalid,if_neg (by omega),if_neg (by omega),if_pos (by omega),
      ofNat_eq_of_toNat (b := a) (by omega),ofNat_eq_of_toNat (b := b) (by omega),
      ofNat_eq_of_toNat (b := c) (by omega)]
  | @four a b c d ha hb hc hd hoverlong hmax =>
    unfold Tail at hb hc hd
    have hvalid : ((a.toNat - 0xF0) * 262144 + (b.toNat - 0x80) * 4096 + (c.toNat - 0x80) * 64 +
        (d.toNat - 0x80)).isValidChar := by
      unfold Nat.isValidChar; omega
    refine ⟨Char.ofNat ((a.toNat - 0xF0) * 262144 + (b.toNat - 0x80) * 4096 +
      (c.toNat - 0x80) * 64 + (d.toNat - 0x80)),?_⟩
    rw [utf8EncodeChar_ofNat hvalid,if_neg (by omega),if_neg (by omega),if_neg (by omega),
      ofNat_eq_of_toNat (b := a) (by omega),ofNat_eq_of_toNat (b := b) (by omega),
      ofNat_eq_of_toNat (b := c) (by omega),ofNat_eq_of_toNat (b := d) (by omega)]

theorem wellFormedUtf8_encode (cs : List Char) : WellFormedUtf8 (utf8Encode cs) := by
  induction cs with
  | nil => exact .nil
  | cons c cs ih => exact .cons (utf8Char_encode c) ih

/-- The texts of the grammar are the encodings. -/
theorem wellFormedUtf8_iff (bytes : List UInt8) :
    WellFormedUtf8 bytes ↔ ∃ cs, utf8Encode cs = bytes := by
  constructor
  · intro h
    induction h with
    | nil => exact ⟨[],rfl⟩
    | cons hchar hrest ih =>
      obtain ⟨c,rfl⟩ := hchar.exists_char
      obtain ⟨cs,rfl⟩ := ih
      exact ⟨c :: cs,rfl⟩
  · rintro ⟨cs,rfl⟩
    exact wellFormedUtf8_encode cs

theorem utf8Encode_injective : Function.Injective utf8Encode := by
  intro cs ds h
  have harrays : cs.utf8Encode = ds.utf8Encode := congrArg List.toByteArray h
  rw [← String.toByteArray_ofList,← String.toByteArray_ofList,String.toByteArray_inj] at harrays
  exact String.ofList_inj.mp harrays

end Utf8Grammar
end Potimizer

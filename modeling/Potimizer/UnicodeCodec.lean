import Mathlib.Data.List.Chain
import Mathlib.Tactic

/-! UTF-16 and UTF-8 as encodings of lists of Unicode scalar values. A scalar value is a `Char`,
its UTF-8 form is the core library's `String.utf8EncodeChar`, and well-formedness of a sequence of
16-bit units is stated position by position and shown equivalent to being an encoding. -/
namespace Potimizer
namespace UnicodeCodec

def IsHigh (u : UInt16) : Prop := 0xD800 ≤ u.toNat ∧ u.toNat ≤ 0xDBFF

def IsLow (u : UInt16) : Prop := 0xDC00 ≤ u.toNat ∧ u.toNat ≤ 0xDFFF

def IsSurrogate (u : UInt16) : Prop := 0xD800 ≤ u.toNat ∧ u.toNat ≤ 0xDFFF

instance (u : UInt16) : Decidable (IsHigh u) := inferInstanceAs (Decidable (_ ∧ _))
instance (u : UInt16) : Decidable (IsLow u) := inferInstanceAs (Decidable (_ ∧ _))
instance (u : UInt16) : Decidable (IsSurrogate u) := inferInstanceAs (Decidable (_ ∧ _))

theorem isSurrogate_iff (u : UInt16) : IsSurrogate u ↔ IsHigh u ∨ IsLow u := by
  unfold IsSurrogate IsHigh IsLow; omega

theorem IsHigh.not_isLow {u : UInt16} (h : IsHigh u) : ¬ IsLow u := by
  unfold IsHigh at h; unfold IsLow; omega

/-- Every high unit is followed by a low one, and every low unit is the second half of a pair. -/
structure WellFormed (v : List UInt16) : Prop where
  high_followed : ∀ i u, v[i]? = some u → IsHigh u → ∃ w, v[i+1]? = some w ∧ IsLow w
  low_preceded : ∀ i w, v[i]? = some w → IsLow w → ∃ j u, i = j+1 ∧ v[j]? = some u ∧ IsHigh u

theorem wellFormed_nil : WellFormed [] := ⟨by simp,by simp⟩

theorem wellFormed_cons_iff {u : UInt16} (hu : ¬ IsSurrogate u) (v : List UInt16) :
    WellFormed (u :: v) ↔ WellFormed v := by
  rw [isSurrogate_iff,not_or] at hu
  constructor
  · intro h
    refine ⟨fun i x hx hhigh => ?_,fun i x hx hlow => ?_⟩
    · simpa using h.high_followed (i+1) x (by simpa using hx) hhigh
    · obtain ⟨j,y,hj,hy,hhigh⟩ := h.low_preceded (i+1) x (by simpa using hx) hlow
      cases j with
      | zero =>
        have he : u = y := by simpa using hy
        exact absurd (he ▸ hhigh) hu.1
      | succ j => exact ⟨j,y,by omega,by simpa using hy,hhigh⟩
  · intro h
    refine ⟨fun i x hx hhigh => ?_,fun i x hx hlow => ?_⟩
    · cases i with
      | zero =>
        have he : u = x := by simpa using hx
        exact absurd (he ▸ hhigh) hu.1
      | succ i => simpa using h.high_followed i x (by simpa using hx) hhigh
    · cases i with
      | zero =>
        have he : u = x := by simpa using hx
        exact absurd (he ▸ hlow) hu.2
      | succ i =>
        obtain ⟨j,y,rfl,hy,hhigh⟩ := h.low_preceded i x (by simpa using hx) hlow
        exact ⟨j+1,y,rfl,by simpa using hy,hhigh⟩

theorem wellFormed_pair_iff {u w : UInt16} (hu : IsHigh u) (hw : IsLow w) (v : List UInt16) :
    WellFormed (u :: w :: v) ↔ WellFormed v := by
  constructor
  · intro h
    refine ⟨fun i x hx hhigh => ?_,fun i x hx hlow => ?_⟩
    · simpa using h.high_followed (i+2) x (by simpa using hx) hhigh
    · obtain ⟨j,y,hj,hy,hhigh⟩ := h.low_preceded (i+2) x (by simpa using hx) hlow
      obtain rfl : j = i+1 := by omega
      cases i with
      | zero =>
        have he : w = y := by simpa using hy
        exact absurd (he ▸ hw) hhigh.not_isLow
      | succ i => exact ⟨i,y,rfl,by simpa using hy,hhigh⟩
  · intro h
    refine ⟨fun i x hx hhigh => ?_,fun i x hx hlow => ?_⟩
    · match i with
      | 0 => exact ⟨w,by simp,hw⟩
      | 1 =>
        have he : w = x := by simpa using hx
        exact absurd (he ▸ hw) hhigh.not_isLow
      | i+2 => simpa using h.high_followed i x (by simpa using hx) hhigh
    · match i with
      | 0 =>
        have he : u = x := by simpa using hx
        exact absurd hlow (he ▸ hu).not_isLow
      | 1 => exact ⟨0,u,rfl,by simp,hu⟩
      | i+2 =>
        obtain ⟨j,y,rfl,hy,hhigh⟩ := h.low_preceded i x (by simpa using hx) hlow
        exact ⟨j+2,y,rfl,by simpa using hy,hhigh⟩

theorem not_wellFormed_low {u : UInt16} (hu : IsLow u) (v : List UInt16) :
    ¬ WellFormed (u :: v) := by
  intro h
  obtain ⟨j,y,hj,_⟩ := h.low_preceded 0 u (by simp) hu
  omega

theorem WellFormed.exists_low {u : UInt16} {v : List UInt16} (h : WellFormed (u :: v))
    (hu : IsHigh u) : ∃ w rest, v = w :: rest ∧ IsLow w := by
  obtain ⟨w,hw,hlow⟩ := h.high_followed 0 u (by simp) hu
  cases v with
  | nil => simp at hw
  | cons a rest => exact ⟨a,rest,rfl,by simpa using (show a = w by simpa using hw) ▸ hlow⟩

def unitChar (u : UInt16) : Char := Char.ofNat u.toNat

def pairChar (u w : UInt16) : Char :=
  Char.ofNat (0x10000 + (u.toNat - 0xD800) * 0x400 + (w.toNat - 0xDC00))

theorem toNat_ofNat_of_isValidChar {n : ℕ} (h : n.isValidChar) : (Char.ofNat n).toNat = n := by
  have hofNat : Char.ofNat n = Char.ofNatAux n h := dif_pos h
  rw [hofNat]
  rfl

theorem unitChar_toNat {u : UInt16} (hu : ¬ IsSurrogate u) : (unitChar u).toNat = u.toNat := by
  apply toNat_ofNat_of_isValidChar
  have := u.toNat_lt
  unfold IsSurrogate at hu
  unfold Nat.isValidChar
  omega

theorem pairChar_toNat {u w : UInt16} (hu : IsHigh u) (hw : IsLow w) :
    (pairChar u w).toNat = 0x10000 + (u.toNat - 0xD800) * 0x400 + (w.toNat - 0xDC00) := by
  apply toNat_ofNat_of_isValidChar
  unfold IsHigh at hu
  unfold IsLow at hw
  unfold Nat.isValidChar
  omega

/-- The scalar values a sequence of units denotes, if it is well formed. -/
def decodeUtf16 : List UInt16 → Option (List Char)
  | [] => some []
  | [u] => if IsSurrogate u then none else some [unitChar u]
  | u :: w :: v =>
    if IsHigh u then
      if IsLow w then (decodeUtf16 v).map (pairChar u w :: ·) else none
    else if IsLow u then none
    else (decodeUtf16 (w :: v)).map (unitChar u :: ·)

@[simp] theorem decodeUtf16_nil : decodeUtf16 [] = some [] := rfl

theorem decodeUtf16_unit {u : UInt16} (hu : ¬ IsSurrogate u) (v : List UInt16) :
    decodeUtf16 (u :: v) = (decodeUtf16 v).map (unitChar u :: ·) := by
  cases v with
  | nil => simp [decodeUtf16,hu]
  | cons w v =>
    rw [isSurrogate_iff,not_or] at hu
    rw [decodeUtf16,if_neg hu.1,if_neg hu.2]

theorem decodeUtf16_pair {u w : UInt16} (hu : IsHigh u) (hw : IsLow w) (v : List UInt16) :
    decodeUtf16 (u :: w :: v) = (decodeUtf16 v).map (pairChar u w :: ·) := by
  rw [decodeUtf16,if_pos hu,if_pos hw]

theorem decodeUtf16_low {u : UInt16} (hu : IsLow u) (v : List UInt16) :
    decodeUtf16 (u :: v) = none := by
  cases v with
  | nil => rw [decodeUtf16,if_pos ((isSurrogate_iff u).mpr (.inr hu))]
  | cons w v =>
    have hn : ¬ IsHigh u := fun h => h.not_isLow hu
    rw [decodeUtf16,if_neg hn,if_pos hu]

theorem decodeUtf16_high_end {u : UInt16} (hu : IsHigh u) : decodeUtf16 [u] = none := by
  rw [decodeUtf16,if_pos ((isSurrogate_iff u).mpr (.inl hu))]

theorem decodeUtf16_high_broken {u w : UInt16} (hu : IsHigh u) (hw : ¬ IsLow w)
    (v : List UInt16) : decodeUtf16 (u :: w :: v) = none := by
  rw [decodeUtf16,if_pos hu,if_neg hw]

theorem decodeUtf16_isSome_iff (v : List UInt16) : (decodeUtf16 v).isSome ↔ WellFormed v := by
  induction v using decodeUtf16.induct with
  | case1 => simp [wellFormed_nil]
  | case2 u hu =>
    rw [isSurrogate_iff] at hu
    rcases hu with hu | hu
    · rw [decodeUtf16_high_end hu]
      simp only [Option.isSome_none,Bool.false_eq_true,false_iff]
      intro h
      obtain ⟨w,rest,he,_⟩ := h.exists_low hu
      simp at he
    · simp [decodeUtf16_low hu,not_wellFormed_low hu]
  | case3 u hu => simp [decodeUtf16_unit hu,wellFormed_cons_iff hu,wellFormed_nil]
  | case4 u w v hu hw ih => simp [decodeUtf16_pair hu hw,wellFormed_pair_iff hu hw,ih]
  | case5 u w v hu hw =>
    rw [decodeUtf16_high_broken hu hw]
    simp only [Option.isSome_none,Bool.false_eq_true,false_iff]
    intro h
    obtain ⟨x,rest,he,hlow⟩ := h.exists_low hu
    rw [List.cons.injEq] at he
    exact hw (he.1 ▸ hlow)
  | case6 u w v hu hlow => simp [decodeUtf16_low hlow,not_wellFormed_low hlow]
  | case7 u w v hu hlow ih =>
    have hs : ¬ IsSurrogate u := by rw [isSurrogate_iff]; tauto
    rw [decodeUtf16_unit hs,wellFormed_cons_iff hs,Option.isSome_map,ih]

/-- UTF-16: one unit below 0x10000, and the two halves of the offset above it. -/
def utf16EncodeChar (c : Char) : List UInt16 :=
  if c.toNat < 0x10000 then [UInt16.ofNat c.toNat]
  else [UInt16.ofNat (0xD800 + (c.toNat - 0x10000) / 0x400),
    UInt16.ofNat (0xDC00 + (c.toNat - 0x10000) % 0x400)]

def utf16Encode (cs : List Char) : List UInt16 := cs.flatMap utf16EncodeChar

def utf8Encode (cs : List Char) : List UInt8 := cs.flatMap String.utf8EncodeChar

@[simp] theorem utf16Encode_nil : utf16Encode [] = [] := rfl
@[simp] theorem utf16Encode_cons (c : Char) (cs : List Char) :
    utf16Encode (c :: cs) = utf16EncodeChar c ++ utf16Encode cs := rfl
@[simp] theorem utf8Encode_nil : utf8Encode [] = [] := rfl
@[simp] theorem utf8Encode_cons (c : Char) (cs : List Char) :
    utf8Encode (c :: cs) = String.utf8EncodeChar c ++ utf8Encode cs := rfl

theorem utf16EncodeChar_unitChar {u : UInt16} (hu : ¬ IsSurrogate u) :
    utf16EncodeChar (unitChar u) = [u] := by
  have hlt := u.toNat_lt
  rw [utf16EncodeChar,unitChar_toNat hu,if_pos (by omega),UInt16.ofNat_toNat]

theorem utf16EncodeChar_pairChar {u w : UInt16} (hu : IsHigh u) (hw : IsLow w) :
    utf16EncodeChar (pairChar u w) = [u,w] := by
  rw [utf16EncodeChar,pairChar_toNat hu hw,if_neg (by omega)]
  unfold IsHigh at hu
  unfold IsLow at hw
  have h₁ : 0xD800 + (0x10000 + (u.toNat - 0xD800) * 0x400 + (w.toNat - 0xDC00) - 0x10000) / 0x400 =
      u.toNat := by omega
  have h₂ : 0xDC00 + (0x10000 + (u.toNat - 0xD800) * 0x400 + (w.toNat - 0xDC00) - 0x10000) % 0x400 =
      w.toNat := by omega
  rw [h₁,h₂,UInt16.ofNat_toNat,UInt16.ofNat_toNat]

theorem char_toNat_valid (c : Char) :
    c.toNat < 0xD800 ∨ 0xDFFF < c.toNat ∧ c.toNat < 0x110000 := c.valid

theorem toNat_ofNat_of_lt {n : ℕ} (h : n < 0x10000) : (UInt16.ofNat n).toNat = n := by
  rw [UInt16.toNat_ofNat']; omega

theorem utf16EncodeChar_cases (c : Char) :
    (∃ u, ¬ IsSurrogate u ∧ utf16EncodeChar c = [u] ∧ c.toNat < 0x10000) ∨
      ∃ u w, IsHigh u ∧ IsLow w ∧ utf16EncodeChar c = [u,w] ∧ 0x10000 ≤ c.toNat := by
  have hvalid := char_toNat_valid c
  by_cases h : c.toNat < 0x10000
  · refine .inl ⟨UInt16.ofNat c.toNat,?_,if_pos h,h⟩
    rw [IsSurrogate,toNat_ofNat_of_lt h]
    omega
  · refine .inr ⟨_,_,?_,?_,if_neg h,not_lt.mp h⟩
    · rw [IsHigh,toNat_ofNat_of_lt (by omega)]
      omega
    · rw [IsLow,toNat_ofNat_of_lt (by omega)]
      omega

theorem utf16Encode_append (cs ds : List Char) :
    utf16Encode (cs ++ ds) = utf16Encode cs ++ utf16Encode ds := List.flatMap_append

theorem utf16Encode_concat (cs : List Char) (c : Char) :
    utf16Encode (cs ++ [c]) = utf16Encode cs ++ utf16EncodeChar c := by
  simp [utf16Encode_append]

theorem decodeUtf16_utf16EncodeChar (c : Char) (v : List UInt16) :
    decodeUtf16 (utf16EncodeChar c ++ v) = (decodeUtf16 v).map (c :: ·) := by
  have hc := char_toNat_valid c
  by_cases h : c.toNat < 0x10000
  · have hn := toNat_ofNat_of_lt h
    have hs : ¬ IsSurrogate (UInt16.ofNat c.toNat) := by
      unfold IsSurrogate; rw [hn]; omega
    rw [utf16EncodeChar,if_pos h,List.singleton_append,decodeUtf16_unit hs,unitChar,hn,
      Char.ofNat_toNat]
  · have h₁ := toNat_ofNat_of_lt (n := 0xD800 + (c.toNat - 0x10000) / 0x400) (by omega)
    have h₂ := toNat_ofNat_of_lt (n := 0xDC00 + (c.toNat - 0x10000) % 0x400) (by omega)
    have hu : IsHigh (UInt16.ofNat (0xD800 + (c.toNat - 0x10000) / 0x400)) := by
      unfold IsHigh; rw [h₁]; omega
    have hw : IsLow (UInt16.ofNat (0xDC00 + (c.toNat - 0x10000) % 0x400)) := by
      unfold IsLow; rw [h₂]; omega
    have he : 0x10000 + (0xD800 + (c.toNat - 0x10000) / 0x400 - 0xD800) * 0x400 +
        (0xDC00 + (c.toNat - 0x10000) % 0x400 - 0xDC00) = c.toNat := by omega
    rw [utf16EncodeChar,if_neg h,List.cons_append,List.singleton_append,decodeUtf16_pair hu hw,
      pairChar,h₁,h₂,he,Char.ofNat_toNat]

theorem decodeUtf16_utf16Encode (cs : List Char) : decodeUtf16 (utf16Encode cs) = some cs := by
  induction cs with
  | nil => rfl
  | cons c cs ih => rw [utf16Encode_cons,decodeUtf16_utf16EncodeChar,ih,Option.map_some]

theorem utf16Encode_of_decodeUtf16 {v : List UInt16} {cs : List Char}
    (h : decodeUtf16 v = some cs) : utf16Encode cs = v := by
  induction v using decodeUtf16.induct generalizing cs with
  | case1 =>
    obtain rfl : [] = cs := Option.some.inj h
    rfl
  | case2 u hu => simp [decodeUtf16,hu] at h
  | case3 u hu =>
    obtain rfl : [unitChar u] = cs := by simpa [decodeUtf16,hu] using h
    simp [utf16EncodeChar_unitChar hu]
  | case4 u w v hu hw ih =>
    rw [decodeUtf16_pair hu hw,Option.map_eq_some_iff] at h
    obtain ⟨ds,hd,rfl⟩ := h
    rw [utf16Encode_cons,utf16EncodeChar_pairChar hu hw,ih hd]
    rfl
  | case5 u w v hu hw => simp [decodeUtf16_high_broken hu hw] at h
  | case6 u w v hu hlow => simp [decodeUtf16_low hlow] at h
  | case7 u w v hu hlow ih =>
    have hs : ¬ IsSurrogate u := by rw [isSurrogate_iff]; tauto
    rw [decodeUtf16_unit hs,Option.map_eq_some_iff] at h
    obtain ⟨ds,hd,rfl⟩ := h
    rw [utf16Encode_cons,utf16EncodeChar_unitChar hs,ih hd]
    rfl

theorem decodeUtf16_eq_some_iff {v : List UInt16} {cs : List Char} :
    decodeUtf16 v = some cs ↔ utf16Encode cs = v :=
  ⟨utf16Encode_of_decodeUtf16,fun h => h ▸ decodeUtf16_utf16Encode cs⟩

theorem utf16Encode_injective : Function.Injective utf16Encode := by
  intro cs ds h
  have hd := decodeUtf16_utf16Encode cs
  rw [h,decodeUtf16_utf16Encode] at hd
  exact (Option.some.inj hd).symm

/-- A sequence is well formed when it is the encoding of one list of scalar values. -/
theorem wellFormed_iff_existsUnique (v : List UInt16) :
    WellFormed v ↔ ∃! cs, utf16Encode cs = v := by
  rw [← decodeUtf16_isSome_iff,Option.isSome_iff_exists]
  constructor
  · rintro ⟨cs,h⟩
    refine ⟨cs,utf16Encode_of_decodeUtf16 h,fun ds hd => ?_⟩
    exact utf16Encode_injective (hd.trans (utf16Encode_of_decodeUtf16 h).symm)
  · rintro ⟨cs,h,_⟩
    exact ⟨cs,decodeUtf16_eq_some_iff.mpr h⟩

def byteSwap (u : UInt16) : UInt16 := UInt16.ofNat (u.toNat % 256 * 256 + u.toNat / 256)

theorem byteSwap_toNat (u : UInt16) : (byteSwap u).toNat = u.toNat % 256 * 256 + u.toNat / 256 := by
  have hlt := u.toNat_lt
  rw [byteSwap,UInt16.toNat_ofNat']
  omega

theorem byteSwap_byteSwap (u : UInt16) : byteSwap (byteSwap u) = u := by
  have hlt := u.toNat_lt
  rw [← UInt16.toNat_inj,byteSwap_toNat,byteSwap_toNat]
  omega

/-- A text in the byte order named by the flag, read as units in the order of the host. -/
def hostOrder (isLittleEndian : Bool) (u : List UInt16) : List UInt16 :=
  if isLittleEndian then u else u.map byteSwap

@[simp] theorem hostOrder_length (isLittleEndian : Bool) (u : List UInt16) :
    (hostOrder isLittleEndian u).length = u.length := by
  cases isLittleEndian <;> simp [hostOrder]

theorem hostOrder_append (le : Bool) (u v : List UInt16) :
    hostOrder le (u ++ v) = hostOrder le u ++ hostOrder le v := by
  cases le <;> simp [hostOrder]

theorem hostOrder_take (le : Bool) (u : List UInt16) (i : ℕ) :
    hostOrder le (u.take i) = (hostOrder le u).take i := by
  cases le <;> simp [hostOrder]

theorem hostOrder_flatten (le : Bool) (chunks : List (List UInt16)) :
    hostOrder le chunks.flatten = (chunks.map (hostOrder le)).flatten := by
  have hfalse : hostOrder false = List.map byteSwap := rfl
  have htrue : hostOrder true = id := rfl
  cases le with
  | false => rw [hfalse,List.map_flatten]
  | true => simp [htrue]

@[simp] theorem hostOrder_hostOrder (isLittleEndian : Bool) (u : List UInt16) :
    hostOrder isLittleEndian (hostOrder isLittleEndian u) = u := by
  cases isLittleEndian
  · simp [hostOrder,Function.comp_def,byteSwap_byteSwap]
  · rfl

theorem hostOrder_injective (isLittleEndian : Bool) :
    Function.Injective (hostOrder isLittleEndian) :=
  Function.Involutive.injective (hostOrder_hostOrder isLittleEndian)

theorem hostOrder_byteSwap (u : List UInt16) :
    hostOrder false (u.map byteSwap) = hostOrder true u := hostOrder_hostOrder false u

/-- The one-, two- or three-byte form of a 16-bit number, surrogate or not. -/
def utf8Unit (u : UInt16) : List UInt8 :=
  if u.toNat < 0x80 then [UInt8.ofNat u.toNat]
  else if u.toNat < 0x800 then
    [UInt8.ofNat (0xC0 + u.toNat / 64),UInt8.ofNat (0x80 + u.toNat % 64)]
  else
    [UInt8.ofNat (0xE0 + u.toNat / 4096),UInt8.ofNat (0x80 + u.toNat / 64 % 64),
      UInt8.ofNat (0x80 + u.toNat % 64)]

theorem utf8EncodeChar_unitChar {u : UInt16} (hu : ¬ IsSurrogate u) :
    String.utf8EncodeChar (unitChar u) = utf8Unit u := by
  have hn : (unitChar u).val.toNat = u.toNat := unitChar_toNat hu
  have hlt := u.toNat_lt
  unfold String.utf8EncodeChar utf8Unit
  rw [hn]
  by_cases h₁ : u.toNat < 0x80
  · rw [if_pos h₁,if_pos (by omega)]
  by_cases h₂ : u.toNat < 0x800
  · have hlead : u.toNat / 64 % 32 + 192 = 192 + u.toNat / 64 := by omega
    rw [if_neg h₁,if_neg (by omega),if_pos h₂,if_pos (by omega),hlead,Nat.add_comm _ 128]
  · have hlead : u.toNat / 4096 % 16 + 224 = 224 + u.toNat / 4096 := by omega
    rw [if_neg h₁,if_neg (by omega),if_neg h₂,if_neg (by omega),if_pos (by omega),hlead,
      Nat.add_comm _ 128,Nat.add_comm _ 128]

theorem utf8EncodeChar_supplementary {c : Char} (hc : 0x10000 ≤ c.toNat) :
    String.utf8EncodeChar c =
      [UInt8.ofNat (0xF0 + c.toNat / 262144),UInt8.ofNat (0x80 + c.toNat / 4096 % 64),
        UInt8.ofNat (0x80 + c.toNat / 64 % 64),UInt8.ofNat (0x80 + c.toNat % 64)] := by
  have hvalid := char_toNat_valid c
  have hn : c.val.toNat = c.toNat := rfl
  have hlead : c.toNat / 262144 % 8 + 240 = 240 + c.toNat / 262144 := by omega
  unfold String.utf8EncodeChar
  rw [hn,if_neg (by omega),if_neg (by omega),if_neg (by omega),hlead,Nat.add_comm _ 128,
    Nat.add_comm _ 128,Nat.add_comm _ 128]

/-- Setting bits below a multiple of `2^k` adds them. -/
theorem or_toUInt8_of_lt16 (lead x : UInt16) (k m : ℕ) (hlead : lead.toNat = 2^k*m)
    (hx : x.toNat < 2^k) : (lead ||| x).toUInt8 = UInt8.ofNat (lead.toNat + x.toNat) := by
  rw [← UInt8.toNat_inj,UInt16.toNat_toUInt8,UInt16.toNat_or,UInt8.toNat_ofNat',hlead,
    ← Nat.two_pow_add_eq_or_of_lt hx]

theorem or_toUInt8_of_lt32 (lead x : UInt32) (k m : ℕ) (hlead : lead.toNat = 2^k*m)
    (hx : x.toNat < 2^k) : (lead ||| x).toUInt8 = UInt8.ofNat (lead.toNat + x.toNat) := by
  rw [← UInt8.toNat_inj,UInt32.toNat_toUInt8,UInt32.toNat_or,UInt8.toNat_ofNat',hlead,
    ← Nat.two_pow_add_eq_or_of_lt hx]

theorem and_low6_16 (x : UInt16) : (x &&& 0x3F).toNat = x.toNat % 64 := by
  rw [UInt16.toNat_and]
  exact Nat.and_two_pow_sub_one_eq_mod x.toNat 6

theorem and_low6_32 (x : UInt32) : (x &&& 0x3F).toNat = x.toNat % 64 := by
  rw [UInt32.toNat_and]
  exact Nat.and_two_pow_sub_one_eq_mod x.toNat 6

end UnicodeCodec
end Potimizer

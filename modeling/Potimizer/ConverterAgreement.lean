import Mathlib.Algebra.Order.BigOperators.Group.List
import Potimizer.VectorConverter

/-! Where the vector converter returns what the scalar one does. The vector result is never longer
than the scalar one unless it spells out a surrogate, which no UTF-8 text contains, so two wrong
blocks cannot make up for each other. -/
namespace Potimizer
namespace ConverterAgreement

open CheckedMemory UnicodeCodec VectorConverter
open ScalarConverter (swapBytes swapBytes_eq_byteSwap)

def NoSurrogateForm (x y : UInt8) : Prop := x = 0xED → y < 0xA0

theorem utf8Unit_of_isSurrogate {w : UInt16} (hw : IsSurrogate w) :
    ∃ b c, utf8Unit w = [0xED,b,c] ∧ 0xA0 ≤ b := by
  unfold IsSurrogate at hw
  have hlead : 0xE0 + w.toNat / 4096 = 237 := by omega
  refine ⟨UInt8.ofNat (0x80 + w.toNat / 64 % 64),UInt8.ofNat (0x80 + w.toNat % 64),?_,?_⟩
  · rw [utf8Unit,if_neg (by omega),if_neg (by omega),hlead]
    rfl
  · rw [UInt8.le_iff_toNat_le,UInt8.toNat_ofNat']
    simp
    omega

theorem not_isSurrogate_of_isChain {units : List UInt16}
    (h : (units.flatMap utf8Unit).IsChain NoSurrogateForm) :
    ∀ w ∈ units, ¬ IsSurrogate w := by
  intro w hw hs
  obtain ⟨b,c,hform,hb⟩ := utf8Unit_of_isSurrogate hs
  have hinfix : [0xED,b,c] <:+: units.flatMap utf8Unit := by
    rw [← hform,List.flatMap]
    exact List.infix_of_mem_flatten (List.mem_map_of_mem hw)
  have hchain := h.infix hinfix
  simp only [List.isChain_cons_cons,NoSurrogateForm,forall_const] at hchain
  exact absurd hchain.1 (UInt8.not_lt.mpr hb)

theorem utf8EncodeChar_isChain (c : Char) :
    (String.utf8EncodeChar c).IsChain NoSurrogateForm ∧
      ∀ x ∈ (String.utf8EncodeChar c).getLast?, x ≠ 0xED := by
  have hvalid := char_toNat_valid c
  have hn : c.val.toNat = c.toNat := rfl
  unfold String.utf8EncodeChar
  rw [hn]
  dsimp only
  split_ifs
  all_goals
    simp only [List.isChain_cons_cons,List.isChain_singleton,NoSurrogateForm,
      List.getLast?_cons_cons,List.getLast?_singleton,Option.mem_def,Option.some.injEq,forall_eq']
    simp only [ne_eq,← UInt8.toNat_inj,UInt8.lt_iff_toNat_lt,UInt8.toNat_ofNat',UInt8.reduceToNat,
      Nat.reducePow,true_and,and_true]
    omega

/-- No UTF-8 text contains the three-byte form of a surrogate. -/
theorem utf8Encode_isChain (cs : List Char) : (utf8Encode cs).IsChain NoSurrogateForm := by
  induction cs with
  | nil => exact List.isChain_nil
  | cons c cs ih =>
    obtain ⟨hchain,hlast⟩ := utf8EncodeChar_isChain c
    refine List.isChain_append.mpr ⟨hchain,ih,fun x hx y _ he => ?_⟩
    exact absurd he (hlast x hx)

theorem utf8Unit_length_pos (w : UInt16) : 1 ≤ (utf8Unit w).length := by
  unfold utf8Unit
  split_ifs <;> simp

theorem utf8Unit_length_eq_one_iff (w : UInt16) : (utf8Unit w).length = 1 ↔ w.toNat < 0x80 := by
  unfold utf8Unit
  split_ifs with h₁ h₂ <;> simp [h₁]

/-- What a unit adds to the length of a UTF-8 text: half of four bytes for each half of a pair. -/
def scalarWidth (w : UInt16) : ℕ := if IsSurrogate w then 2 else (utf8Unit w).length

theorem scalarWidth_pos (w : UInt16) : 1 ≤ scalarWidth w := by
  have hpos := utf8Unit_length_pos w
  unfold scalarWidth
  split_ifs <;> omega

theorem scalarWidth_eq_one_iff (w : UInt16) : scalarWidth w = 1 ↔ w.toNat < 0x80 := by
  by_cases hs : IsSurrogate w
  · rw [scalarWidth,if_pos hs]
    unfold IsSurrogate at hs
    omega
  · rw [scalarWidth,if_neg hs,utf8Unit_length_eq_one_iff]

theorem utf8Encode_length {v : List UInt16} {cs : List Char} (h : decodeUtf16 v = some cs) :
    (utf8Encode cs).length = (v.map scalarWidth).sum := by
  induction v using decodeUtf16.induct generalizing cs with
  | case1 =>
    obtain rfl : [] = cs := Option.some.inj h
    rfl
  | case2 u hu => simp [decodeUtf16,hu] at h
  | case3 u hu =>
    obtain rfl : [unitChar u] = cs := by simpa [decodeUtf16,hu] using h
    simp [utf8EncodeChar_unitChar hu,scalarWidth,hu,-String.length_utf8EncodeChar]
  | case4 u w v hu hw ih =>
    rw [decodeUtf16_pair hu hw,Option.map_eq_some_iff] at h
    obtain ⟨ds,hd,rfl⟩ := h
    have hs₁ : IsSurrogate u := (isSurrogate_iff u).mpr (.inl hu)
    have hs₂ : IsSurrogate w := (isSurrogate_iff w).mpr (.inr hw)
    have hc : 0x10000 ≤ (pairChar u w).toNat := by rw [pairChar_toNat hu hw]; omega
    rw [utf8Encode_cons,List.length_append,ih hd,utf8EncodeChar_supplementary hc]
    simp [scalarWidth,hs₁,hs₂]
    omega
  | case5 u w v hu hw => simp [decodeUtf16_high_broken hu hw] at h
  | case6 u w v hu hlow => simp [decodeUtf16_low hlow] at h
  | case7 u w v hu hlow ih =>
    have hs : ¬ IsSurrogate u := by rw [isSurrogate_iff]; tauto
    rw [decodeUtf16_unit hs,Option.map_eq_some_iff] at h
    obtain ⟨ds,hd,rfl⟩ := h
    rw [utf8Encode_cons,List.length_append,ih hd,utf8EncodeChar_unitChar hs]
    simp [scalarWidth,hs]

theorem utf8Encode_eq_flatMap {v : List UInt16} {cs : List Char} (h : decodeUtf16 v = some cs)
    (hv : ∀ w ∈ v, ¬ IsSurrogate w) : utf8Encode cs = v.flatMap utf8Unit := by
  induction v generalizing cs with
  | nil =>
    obtain rfl : [] = cs := Option.some.inj h
    rfl
  | cons u v ih =>
    have hu : ¬ IsSurrogate u := hv u (by simp)
    rw [decodeUtf16_unit hu,Option.map_eq_some_iff] at h
    obtain ⟨ds,hd,rfl⟩ := h
    rw [utf8Encode_cons,utf8EncodeChar_unitChar hu,List.flatMap_cons,
      ih hd fun w hw => hv w (by simp [hw])]

theorem blockBytes_of_not_shortcut {units : List UInt16} (h : ¬ Shortcut units) :
    blockBytes units = units.flatMap utf8Unit := by
  rw [blockBytes,blockCode,if_neg h]

theorem blockBytes_of_shortcut {units : List UInt16} (h : Shortcut units) :
    blockBytes units = units.map UInt16.toUInt8 := by
  rw [blockBytes,blockCode,if_pos h,← List.map_eq_flatMap]

theorem flatMap_utf8Unit_of_ascii {units : List UInt16} (h : ∀ w ∈ units, w.toNat < 0x80) :
    units.flatMap utf8Unit = units.map UInt16.toUInt8 := by
  rw [List.map_eq_flatMap]
  apply List.flatMap_congr
  intro w hw
  rw [utf8Unit,if_pos (h w hw)]
  rfl

theorem sum_scalarWidth_of_not_surrogate {units : List UInt16}
    (h : ∀ w ∈ units, ¬ IsSurrogate w) :
    (units.map scalarWidth).sum = (units.flatMap utf8Unit).length := by
  rw [List.length_flatMap,List.map_congr_left]
  intro w hw
  rw [scalarWidth,if_neg (h w hw)]

/-- A width of the units that is one exactly for those of ASCII. -/
structure IsWidth (width : UInt16 → ℕ) : Prop where
  pos : ∀ w, 1 ≤ width w
  eq_one_iff : ∀ w, width w = 1 ↔ w.toNat < 0x80

theorem isWidth_utf8Unit : IsWidth fun w => (utf8Unit w).length :=
  ⟨utf8Unit_length_pos,utf8Unit_length_eq_one_iff⟩

theorem isWidth_scalarWidth : IsWidth scalarWidth := ⟨scalarWidth_pos,scalarWidth_eq_one_iff⟩

theorem eq_of_sum_map_eq {ι : Type} {ks : List ι} {f g : ι → ℕ} (hle : ∀ k ∈ ks, f k ≤ g k)
    (hsum : (ks.map f).sum = (ks.map g).sum) : ∀ k ∈ ks, f k = g k := by
  intro k hk
  by_contra hne
  have hlt := List.sum_lt_sum f g hle ⟨k,hk,lt_of_le_of_ne (hle k hk) hne⟩
  omega

variable {width : UInt16 → ℕ} {units : List UInt16}

theorem IsWidth.length_le (hw : IsWidth width) (units : List UInt16) :
    units.length ≤ (units.map width).sum := by
  have hone : ∀ n ∈ units.map width, 1 ≤ n := by simpa using fun w _ => hw.pos w
  simpa using List.length_le_sum_of_one_le _ hone

theorem IsWidth.ascii_of_sum (hw : IsWidth width) (h : (units.map width).sum = units.length) :
    ∀ w ∈ units, w.toNat < 0x80 := by
  have hones : (units.map fun _ => 1).sum = (units.map width).sum := by simp [h]
  intro w hmem
  exact (hw.eq_one_iff w).mp (eq_of_sum_map_eq (fun w _ => hw.pos w) hones w hmem).symm

theorem IsWidth.blockBytes_length_le (hw : IsWidth width)
    (hform : ¬ Shortcut units → (units.flatMap utf8Unit).length ≤ (units.map width).sum) :
    (blockBytes units).length ≤ (units.map width).sum := by
  by_cases hs : Shortcut units
  · rw [blockBytes_of_shortcut hs,List.length_map]
    exact hw.length_le units
  · rw [blockBytes_of_not_shortcut hs]
    exact hform hs

theorem blocks_append_tail (v : List UInt16) :
    (List.range (v.length/16)).flatMap (blockAt v) ++ v.drop (16*(v.length/16)) = v := by
  have htake (k : ℕ) : (List.range k).flatMap (blockAt v) = v.take (16*k) := by
    induction k with
    | zero => simp
    | succ k ih => simp [List.range_succ,ih,blockAt,Nat.mul_add,List.take_add]
  rw [htake,List.take_append_drop]

def NoSurrogates (v : List UInt16) : Prop := ∀ w ∈ v, ¬ IsSurrogate w

/-- Every full block that passes for one-byte units consists of such units. -/
def ShortcutsAscii (v : List UInt16) : Prop :=
  ∀ k, 16*k+16 ≤ v.length → Shortcut (blockAt v k) → ∀ w ∈ blockAt v k, w.toNat < 0x80

theorem avx2Bytes_of_agree {v : List UInt16} (h : ShortcutsAscii v) :
    avx2Bytes v = v.flatMap utf8Unit := by
  conv_rhs => rw [← blocks_append_tail v]
  rw [avx2Bytes,List.flatMap_append,blocksBytes,List.flatMap_assoc,List.append_left_inj]
  apply List.flatMap_congr
  intro k hk
  have hlt := List.mem_range.mp hk
  by_cases hs : Shortcut (blockAt v k)
  · rw [blockBytes_of_shortcut hs,flatMap_utf8Unit_of_ascii (h k (by omega) hs)]
  · exact blockBytes_of_not_shortcut hs

/-- Blocks that together are as long as their units are wide took the shortcut only for ASCII: no
block is too long, so that none makes up for another. -/
theorem IsWidth.shortcutsAscii (hw : IsWidth width) {v : List UInt16}
    (hform : ∀ k ∈ List.range (v.length/16), ¬ Shortcut (blockAt v k) →
      ((blockAt v k).flatMap utf8Unit).length ≤ ((blockAt v k).map width).sum)
    (hlen : (blocksBytes v (v.length/16)).length =
      (((List.range (v.length/16)).flatMap (blockAt v)).map width).sum) : ShortcutsAscii v := by
  intro k hk hs
  have hmem : k ∈ List.range (v.length/16) := List.mem_range.mpr (by omega)
  have hsum : ((List.range (v.length/16)).map fun k => (blockBytes (blockAt v k)).length).sum =
      ((List.range (v.length/16)).map fun k => ((blockAt v k).map width).sum).sum := by
    rw [blocksBytes,List.length_flatMap,List.map_flatMap,List.flatMap,List.sum_flatten,
      List.map_map] at hlen
    exact hlen
  have heq := eq_of_sum_map_eq (fun k hk => hw.blockBytes_length_le (hform k hk)) hsum k hmem
  rw [blockBytes_of_shortcut hs,List.length_map] at heq
  exact hw.ascii_of_sum heq.symm

/-- A vector result that is some UTF-8 text of the right length has every block right. -/
theorem agree_of_avx2Bytes {v : List UInt16} (hchain : (avx2Bytes v).IsChain NoSurrogateForm)
    (hlen : (avx2Bytes v).length = (v.map scalarWidth).sum) :
    NoSurrogates v ∧ ShortcutsAscii v := by
  rw [avx2Bytes,List.isChain_append] at hchain
  obtain ⟨hblocks,htail,-⟩ := hchain
  have htailclean := not_isSurrogate_of_isChain htail
  have hclean (k : ℕ) (hk : k ∈ List.range (v.length/16)) (hs : ¬ Shortcut (blockAt v k)) :
      ∀ w ∈ blockAt v k, ¬ IsSurrogate w := by
    apply not_isSurrogate_of_isChain
    rw [← blockBytes_of_not_shortcut hs]
    exact hblocks.infix (List.infix_of_mem_flatten (List.mem_map_of_mem hk))
  have hascii : ShortcutsAscii v := by
    refine isWidth_scalarWidth.shortcutsAscii (fun k hk hs => ?_) ?_
    · exact (sum_scalarWidth_of_not_surrogate (hclean k hk hs)).ge
    · have hv := congrArg (fun l => (l.map scalarWidth).sum) (blocks_append_tail v)
      simp only [List.map_append,List.sum_append,
        sum_scalarWidth_of_not_surrogate htailclean] at hv
      rw [avx2Bytes,List.length_append] at hlen
      omega
  refine ⟨fun w hw => ?_,hascii⟩
  rw [← blocks_append_tail v,List.mem_append,List.mem_flatMap] at hw
  obtain ⟨k,hk,hw⟩ | hw := hw
  · by_cases hs : Shortcut (blockAt v k)
    · have hlt := List.mem_range.mp hk
      have hone := hascii k (by omega) hs w hw
      unfold IsSurrogate
      omega
    · exact hclean k hk hs w hw
  · exact htailclean w hw

theorem avx2Bytes_eq_iff {v : List UInt16} {cs : List Char} (h : decodeUtf16 v = some cs) :
    avx2Bytes v = utf8Encode cs ↔ NoSurrogates v ∧ ShortcutsAscii v := by
  constructor
  · intro heq
    apply agree_of_avx2Bytes
    · rw [heq]; exact utf8Encode_isChain cs
    · rw [heq]; exact utf8Encode_length h
  · rintro ⟨hv,hs⟩
    rw [avx2Bytes_of_agree hs,utf8Encode_eq_flatMap h hv]

/-- Where the scalar converter returns, the vector converter returns the same bytes exactly on the
texts without surrogates whose shortcut blocks are all ASCII. -/
theorem utf16ToUtf8Avx2_agrees_iff (u : List UInt16) (isLittleEndian : Bool) (r : List UInt8)
    (h : ScalarConverter.utf16ToUtf8 u isLittleEndian = .ok r) :
    utf16ToUtf8Avx2 u isLittleEndian = .ok r ↔
      NoSurrogates (hostOrder isLittleEndian u) ∧ ShortcutsAscii (hostOrder isLittleEndian u) := by
  obtain ⟨cs,hcs,hr⟩ := (ScalarConverter.utf16ToUtf8_eq_ok_iff u isLittleEndian r).mp h
  rw [utf16ToUtf8Avx2_eq,Except.ok.injEq,hr]
  exact avx2Bytes_eq_iff (decodeUtf16_eq_some_iff.mpr hcs)

/-- Sixteen letters, in a block that takes the shortcut, and the euro sign. -/
theorem utf16ToUtf8Avx2_agrees_iff_full_block :
    Shortcut (blockAt (List.replicate 16 0x41 ++ [0x20AC]) 0) ∧
    (utf16ToUtf8Avx2 (List.replicate 16 0x41 ++ [0x20AC]) true =
        .ok (List.replicate 16 0x41 ++ [0xE2,0x82,0xAC]) ↔
      NoSurrogates (hostOrder true (List.replicate 16 0x41 ++ [0x20AC])) ∧
        ShortcutsAscii (hostOrder true (List.replicate 16 0x41 ++ [0x20AC]))) := by
  have h : ScalarConverter.utf16ToUtf8 (List.replicate 16 0x41 ++ [0x20AC]) true =
      .ok (List.replicate 16 0x41 ++ [0xE2,0x82,0xAC]) := by
    rw [ScalarConverter.utf16ToUtf8_eq]
    rfl
  exact ⟨by decide,utf16ToUtf8Avx2_agrees_iff _ true _ h⟩

/-- The converters agree on an input exactly when it is malformed, so that the scalar one returns
nothing, or has neither surrogates nor a shortcut block outside ASCII. -/
theorem utf16ToUtf8Avx2_refines_iff (u : List UInt16) (isLittleEndian : Bool) :
    (∀ r, ScalarConverter.utf16ToUtf8 u isLittleEndian = .ok r →
      utf16ToUtf8Avx2 u isLittleEndian = .ok r) ↔
    (WellFormed (hostOrder isLittleEndian u) →
      NoSurrogates (hostOrder isLittleEndian u) ∧
        ShortcutsAscii (hostOrder isLittleEndian u)) := by
  rw [← ScalarConverter.utf16ToUtf8_returns_iff]
  constructor
  · rintro h ⟨r,hr⟩
    obtain ⟨cs,hcs,rfl⟩ := (ScalarConverter.utf16ToUtf8_eq_ok_iff u isLittleEndian r).mp hr
    have heq := h _ hr
    rw [utf16ToUtf8Avx2_eq,Except.ok.injEq] at heq
    exact (avx2Bytes_eq_iff (decodeUtf16_eq_some_iff.mpr hcs)).mp heq
  · intro h r hr
    obtain ⟨cs,hcs,rfl⟩ := (ScalarConverter.utf16ToUtf8_eq_ok_iff u isLittleEndian r).mp hr
    rw [utf16ToUtf8Avx2_eq,Except.ok.injEq]
    exact (avx2Bytes_eq_iff (decodeUtf16_eq_some_iff.mpr hcs)).mpr (h ⟨_,hr⟩)

/-- A surrogate pair comes out of the vector converter as two three-byte forms. -/
theorem utf16ToUtf8Avx2_splits_pair :
    ScalarConverter.utf16ToUtf8 [0xD83D,0xDE00] true = .ok [0xF0,0x9F,0x98,0x80] ∧
    utf16ToUtf8Avx2 [0xD83D,0xDE00] true = .ok [0xED,0xA0,0xBD,0xED,0xB8,0x80] ∧
    utf16ToUtf8Avx2 [0xD83D,0xDE00] true ≠ .ok [0xF0,0x9F,0x98,0x80] := by
  rw [ScalarConverter.utf16ToUtf8_eq,utf16ToUtf8Avx2_eq]
  decide

/-- What the helper writes for one unit. -/
def helperBytes (w : UInt16) : List UInt8 :=
  match utf16ToUtf8 w start.buffer with
  | .ok output => output.contents
  | .error _ => []

theorem helperBytes_eq (w : UInt16) : helperBytes w = utf8Unit w := by
  have hempty : start.buffer.contents = [] := rfl
  have hlen := utf8Unit_length_le w
  obtain ⟨output,hputs,hcontents⟩ := start.buffer.puts_ok (utf8Unit w) (by
    rw [hempty,List.length_nil]
    omega)
  rw [helperBytes,utf16ToUtf8_eq_puts,hputs]
  simpa [hempty] using hcontents

theorem avx2Bytes_eq_flatMap_iff (v : List UInt16) :
    avx2Bytes v = v.flatMap utf8Unit ↔ ShortcutsAscii v := by
  refine ⟨fun heq => ?_,avx2Bytes_of_agree⟩
  have hblocks : blocksBytes v (v.length/16) =
      ((List.range (v.length/16)).flatMap (blockAt v)).flatMap utf8Unit := by
    have hsplit := heq.trans (congrArg (·.flatMap utf8Unit) (blocks_append_tail v).symm)
    rwa [avx2Bytes,List.flatMap_append,List.append_left_inj] at hsplit
  refine isWidth_utf8Unit.shortcutsAscii (fun k _ _ => ?_) ?_
  · rw [List.length_flatMap]
  · rw [hblocks,List.length_flatMap]

/-- For every text, valid or not, the vector converter returns what its own helper writes for the
units in order exactly if every full block that takes the shortcut consists of one-byte units. -/
theorem utf16ToUtf8Avx2_per_unit_iff (u : List UInt16) (isLittleEndian : Bool) :
    utf16ToUtf8Avx2 u isLittleEndian =
      .ok ((hostOrder isLittleEndian u).flatMap helperBytes) ↔
    ShortcutsAscii (hostOrder isLittleEndian u) := by
  rw [utf16ToUtf8Avx2_eq,Except.ok.injEq,funext helperBytes_eq]
  exact avx2Bytes_eq_flatMap_iff _

/-- Sixteen units 0x0080 are not above the limit, so each comes out as its low byte. -/
theorem utf16ToUtf8Avx2_truncates_block :
    utf16ToUtf8Avx2 (List.replicate 16 0x80) true = .ok (List.replicate 16 0x80) ∧
    helperBytes 0x80 = [0xC2,0x80] ∧
    utf16ToUtf8Avx2 (List.replicate 16 0x80) true ≠
      .ok ((hostOrder true (List.replicate 16 0x80)).flatMap helperBytes) := by
  rw [utf16ToUtf8Avx2_eq,funext helperBytes_eq]
  decide

/-- Exchanging the bytes of every unit and naming the other byte order changes nothing, for either
converter and for every text. -/
theorem byte_order_uniform (u : List UInt16) :
    utf16ToUtf8Avx2 (u.map swapBytes) false = utf16ToUtf8Avx2 u true ∧
    ScalarConverter.utf16ToUtf8 (u.map swapBytes) false = ScalarConverter.utf16ToUtf8 u true := by
  have hswap : u.map swapBytes = u.map byteSwap :=
    congrArg (fun f => u.map f) (funext swapBytes_eq_byteSwap)
  rw [hswap,utf16ToUtf8Avx2_eq,utf16ToUtf8Avx2_eq,ScalarConverter.utf16ToUtf8_eq,
    ScalarConverter.utf16ToUtf8_eq,hostOrder_byteSwap]
  exact ⟨rfl,rfl⟩

end ConverterAgreement
end Potimizer

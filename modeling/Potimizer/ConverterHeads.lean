import Potimizer.ConverterChunks
import Potimizer.ConverterOrder

/-! What a converter has returned so far. At every head of a loop the bytes appended are the result
of the whole converter on the units consumed, and every beginning that can be consumed is. -/
namespace Potimizer
namespace ConverterHeads

open LoopMachine CheckedMemory UnicodeCodec ConverterOrder

section Scalar

open ScalarConverter

variable {u rest : List UInt16} {le : Bool} {s : State} {c : Char} {cs : List Char}

theorem exists_unit {i : ℕ} {w : UInt16} (h : (hostOrder le u)[i]? = some w) :
    ∃ x, u[i]? = some x ∧ hostUnit le x = w := by
  rwa [hostOrder_getElem?,Option.map_eq_some_iff] at h

theorem convertAt_of_char (h : (hostOrder le u).drop s.i = utf16EncodeChar c ++ rest) :
    convertAt u le s =
      .ok (.next ⟨s.i+(utf16EncodeChar c).length,s.utf8 ++ String.utf8EncodeChar c⟩) := by
  have hat (j : ℕ) : (hostOrder le u)[s.i+j]? = (utf16EncodeChar c ++ rest)[j]? := by
    rw [← h,List.getElem?_drop]
  obtain ⟨w,hw,hc,-⟩ | ⟨w,w',hw,hw',hc,-⟩ := utf16EncodeChar_cases c
  · obtain ⟨x,hx,rfl⟩ := exists_unit ((hat 0).trans (by rw [hc]; rfl))
    have hchar : c = unitChar (hostUnit le x) :=
      utf16EncodeChar_injective (hc.trans (utf16EncodeChar_unitChar hw).symm)
    subst hchar
    rw [convertAt_unit hx hw,utf8EncodeChar_unitChar hw,hc,List.length_singleton]
  · obtain ⟨x,hx,rfl⟩ := exists_unit ((hat 0).trans (by rw [hc]; rfl))
    obtain ⟨y,hy,rfl⟩ := exists_unit ((hat 1).trans (by rw [hc]; rfl))
    have hchar : c = pairChar (hostUnit le x) (hostUnit le y) :=
      utf16EncodeChar_injective (hc.trans (utf16EncodeChar_pairChar hw hw').symm)
    have hlength : (utf16EncodeChar c).length = 2 := by rw [hc]; rfl
    rw [hlength,convertAt_pair hx hy hw hw',← hchar]

/-- The units consumed encode scalar values whose forms have been appended. -/
structure Converted (u : List UInt16) (le : Bool) (s : State) (cs : List Char) : Prop where
  index_le : s.i ≤ u.length
  units : utf16Encode cs = (hostOrder le u).take s.i
  bytes : s.utf8 = utf8Encode cs

theorem Converted.step {t : State} (h : Converted u le s cs)
    (hg : (loop u le).guard s = true) (hb : (loop u le).body s = .ok (.next t)) :
    ∃ c, Converted u le t (cs ++ [c]) := by
  have hi : s.i < u.length := of_decide_eq_true hg
  obtain ⟨c,n,-,hle,hdrop,hok⟩ | ⟨-,herror⟩ := convertAt_cases le hi
  swap
  · cases hb.symm.trans herror
  cases hb.symm.trans hok
  refine ⟨c,hle,?_,?_⟩
  · have hlength := congrArg List.length hdrop
    simp only [List.length_append,List.length_drop,hostOrder_length] at hlength
    have hn : n = (utf16EncodeChar c).length := by omega
    rw [utf16Encode_concat,h.units,List.take_add,hdrop,hn,List.take_left']
    rfl
  · simp [h.bytes,utf8Encode]

theorem converted_of_visits (h : (loop u le).Visits ⟨0,[]⟩ s) : ∃ cs, Converted u le s cs := by
  refine h.invariant (I := fun s => ∃ cs, Converted u le s cs) (fun s t hs hg hb => ?_)
    ⟨[],Nat.zero_le _,rfl,rfl⟩
  obtain ⟨cs,hcs⟩ := hs
  obtain ⟨c,hc⟩ := hcs.step hg hb
  exact ⟨cs ++ [c],hc⟩

theorem visits_of_extends (h : utf16Encode cs <+: hostOrder le u) :
    (loop u le).Visits ⟨0,[]⟩ ⟨(utf16Encode cs).length,utf8Encode cs⟩ := by
  induction cs using List.reverseRecOn with
  | nil => exact .head _
  | append_singleton cs c ih =>
    rw [utf16Encode_concat] at h ⊢
    have hvisits := ih ((List.prefix_append _ _).trans h)
    obtain ⟨rest,hrest⟩ := h
    have hdrop : (hostOrder le u).drop (utf16Encode cs).length = utf16EncodeChar c ++ rest := by
      rw [← hrest,List.append_assoc,List.drop_left]
    have hlt : (utf16Encode cs).length < u.length := by
      have hpos := List.length_pos_iff.mpr (utf16Code.nonempty c)
      have hlength := congrArg List.length hrest
      have hword : utf16Code.word c = utf16EncodeChar c := rfl
      simp only [List.length_append,hostOrder_length] at hlength
      rw [hword] at hpos
      omega
    have hnext := hvisits.concat (decide_eq_true hlt) (convertAt_of_char hdrop)
    have hbytes : utf8Encode (cs ++ [c]) = utf8Encode cs ++ String.utf8EncodeChar c := by
      simp [utf8Encode]
    rw [hbytes,List.length_append]
    exact hnext

/-- The heads of the plain converter's loop are exactly the beginnings of the text that the
converter accepts, each with the result it returns for them: it goes on as far as it can, and what
it has appended when it throws is right. -/
theorem utf16ToUtf8_heads_iff (u : List UInt16) (isLittleEndian : Bool) (s : State) :
    (loop u isLittleEndian).Visits ⟨0,[]⟩ s ↔
      s.i ≤ u.length ∧ utf16ToUtf8 (u.take s.i) isLittleEndian = .ok s.utf8 := by
  rw [utf16ToUtf8_eq_ok_iff,hostOrder_take]
  constructor
  · intro h
    obtain ⟨cs,hcs⟩ := converted_of_visits h
    exact ⟨hcs.index_le,cs,hcs.units,hcs.bytes⟩
  · rintro ⟨hle,cs,hunits,hbytes⟩
    have hvisits := visits_of_extends (hunits ▸ List.take_prefix s.i (hostOrder isLittleEndian u))
    have hlength : (utf16Encode cs).length = s.i := by
      rw [hunits,List.length_take,hostOrder_length,Nat.min_eq_left hle]
    rw [hlength,← hbytes] at hvisits
    exact hvisits

end Scalar

section Vector

open VectorConverter ConverterChunks
open ScalarConverter (swapBytes_eq_byteSwap)

variable {u v : List UInt16} {le : Bool} {k : ℕ} {t : State}
  {host : Vector UInt16 16 → Vector UInt16 16} {unit : UInt16 → UInt16}

theorem avx2Bytes_take (h : 16*k ≤ v.length) : avx2Bytes (v.take (16*k)) = blocksBytes v k := by
  have hnil : avx2Bytes [] = [] := avx2Bytes_of_lt (Nat.succ_pos 15)
  induction k with
  | zero => rw [Nat.mul_zero,List.take_zero,hnil]; rfl
  | succ k ih =>
    have hblock : (blockAt v k).length = 16 := by
      simp only [blockAt,List.length_take,List.length_drop]
      omega
    have hwhole : (v.take (16*k)).length = 16*k := by
      rw [List.length_take]
      omega
    have hlast := avx2Bytes_block hblock []
    rw [List.append_nil,hnil,List.append_nil] at hlast
    rw [Nat.mul_succ,List.take_add,← blockAt,avx2Bytes_append hwhole,ih (by omega),hlast,
      blocksBytes_succ]

theorem atBlock_of_visits (hlane : ∀ r j (h : j < 16), (host r)[j] = unit r[j])
    (h : (blockLoop host unit u).Visits start t) : ∃ k, AtBlock (u.map unit) k t := by
  refine h.invariant (I := fun t => ∃ k, AtBlock (u.map unit) k t) (fun s t hs hg hb => ?_)
    ⟨0,AtBlock.start _⟩
  obtain ⟨k,hk⟩ := hs
  obtain ⟨t',ht',hnext⟩ := hk.step hlane (of_decide_eq_true hg)
  cases hb.symm.trans ht'
  exact ⟨k+1,hnext⟩

theorem visits_of_le (hlane : ∀ r j (h : j < 16), (host r)[j] = unit r[j])
    (h : 16*k ≤ u.length) :
    ∃ t, (blockLoop host unit u).Visits start t ∧ AtBlock (u.map unit) k t := by
  induction k with
  | zero => exact ⟨start,.head start,AtBlock.start _⟩
  | succ k ih =>
    obtain ⟨t,hvisits,hk⟩ := ih (by omega)
    have hi : t.i+16 ≤ u.length := by
      rw [hk.index]
      omega
    obtain ⟨t',ht',hnext⟩ := hk.step hlane hi
    exact ⟨t',hvisits.concat (decide_eq_true hi) ht',hnext⟩

/-- The state after `k` passes of either block loop, and that every such state occurs. -/
theorem blockLoopOf_heads (u : List UInt16) (le : Bool) :
    (∀ t, (blockLoopOf u le).Visits start t → ∃ k, AtBlock (hostOrder le u) k t) ∧
    ∀ k, 16*k ≤ u.length → ∃ t, (blockLoopOf u le).Visits start t ∧
      AtBlock (hostOrder le u) k t := by
  cases le with
  | true =>
    have hmap : hostOrder true u = u.map id := by simp [hostOrder]
    have hlane : ∀ (r : Vector UInt16 16) j (h : j < 16), (id r)[j] = id r[j] := fun _ _ _ => rfl
    rw [hmap]
    exact ⟨fun t => atBlock_of_visits hlane,fun k => visits_of_le hlane⟩
  | false =>
    have hmap : hostOrder false u = u.map ScalarConverter.swapBytes := by
      simp [hostOrder,funext swapBytes_eq_byteSwap]
    rw [hmap]
    exact ⟨fun t => atBlock_of_visits swapLanes_getElem,fun k => visits_of_le swapLanes_getElem⟩

/-- The heads of the vector converter's block loop are exactly the beginnings of whole blocks, each
with the result the converter returns for them and an empty scratch buffer. -/
theorem utf16ToUtf8Avx2_heads_iff (u : List UInt16) (isLittleEndian : Bool) :
    (∀ t, (blockLoopOf u isLittleEndian).Visits start t → 16 ∣ t.i ∧ t.i ≤ u.length ∧
      utf16ToUtf8Avx2 (u.take t.i) isLittleEndian = .ok t.utf8 ∧ t.buffer.contents = []) ∧
    ∀ i, 16 ∣ i → i ≤ u.length → ∃ t, (blockLoopOf u isLittleEndian).Visits start t ∧ t.i = i := by
  obtain ⟨hsound,hcomplete⟩ := blockLoopOf_heads u isLittleEndian
  refine ⟨fun t hvisits => ?_,?_⟩
  · obtain ⟨k,hk⟩ := hsound t hvisits
    have hle := hk.index_le
    refine ⟨⟨k,hk.index⟩,?_,?_,hk.rewound⟩
    · rw [hk.index]
      simpa using hle
    · rw [utf16ToUtf8Avx2_eq,hostOrder_take,hk.index,avx2Bytes_take hle,hk.bytes]
  · rintro i ⟨k,rfl⟩ hle
    obtain ⟨t,hvisits,hk⟩ := hcomplete k hle
    exact ⟨t,hvisits,hk.index⟩

end Vector

end ConverterHeads
end Potimizer

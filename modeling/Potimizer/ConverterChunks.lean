import Potimizer.ScalarConverter
import Potimizer.VectorConverter

/-! Converting a text in pieces. The plain converter may be given any pieces that keep the two halves
of a pair together; the vector converter, which looks at blocks of sixteen units from the start of
what it is given, only pieces of whole blocks. -/
namespace Potimizer
namespace ConverterChunks

open CheckedMemory UnicodeCodec VectorConverter

/-- A caller that converts the pieces of a text one after the other and joins the results. -/
def inChunks (convert : List UInt16 → Except Fault (List UInt8)) (chunks : List (List UInt16)) :
    Except Fault (List UInt8) := do
  return (← chunks.mapM convert).flatten

section Caller

variable {convert : List UInt16 → Except Fault (List UInt8)} {c : List UInt16}
  {chunks : List (List UInt16)} {r : List UInt8} {e : Fault}

@[simp] theorem inChunks_nil : inChunks convert [] = .ok [] := rfl

theorem inChunks_cons_of_ok (h : convert c = .ok r) :
    inChunks convert (c :: chunks) = (inChunks convert chunks).map (r ++ ·) := by
  simp only [inChunks,List.mapM_cons,h,bind,Except.bind,pure,Except.pure]
  cases chunks.mapM convert <;> simp [Except.map]

theorem inChunks_cons_of_error (h : convert c = .error e) :
    inChunks convert (c :: chunks) = .error e := by
  simp [inChunks,List.mapM_cons,h,bind,Except.bind]

end Caller

section Scalar

variable {u v : List UInt16} {le : Bool} {cs : List Char} {chunks : List (List UInt16)}

open ScalarConverter (utf16ToUtf8_eq utf16ToUtf8_of_not_wellFormed utf16ToUtf8_returns_iff
  invalidSequence)

theorem decodeUtf16_append (h : decodeUtf16 u = some cs) (v : List UInt16) :
    decodeUtf16 (u ++ v) = (decodeUtf16 v).map (cs ++ ·) := by
  obtain rfl := utf16Encode_of_decodeUtf16 h
  clear h
  induction cs with
  | nil => simp
  | cons c cs ih =>
    rw [utf16Encode_cons,List.append_assoc,decodeUtf16_utf16EncodeChar,ih,Option.map_map]
    rfl

theorem wellFormed_append_iff (hu : WellFormed u) : WellFormed (u ++ v) ↔ WellFormed v := by
  rw [← decodeUtf16_isSome_iff] at hu
  obtain ⟨cs,hcs⟩ := Option.isSome_iff_exists.mp hu
  rw [← decodeUtf16_isSome_iff,← decodeUtf16_isSome_iff,decodeUtf16_append hcs,Option.isSome_map]

/-- A text that stops after the first half of a pair. -/
def EndsHigh (u : List UInt16) : Prop := ∃ w ∈ u.getLast?, IsHigh w

theorem not_endsHigh_of_wellFormed (h : WellFormed u) : ¬ EndsHigh u := by
  rintro ⟨w,hw,hhigh⟩
  rw [Option.mem_def,List.getLast?_eq_getElem?] at hw
  obtain ⟨x,hx,-⟩ := h.high_followed _ w hw hhigh
  have hlt := (List.getElem?_eq_some_iff.mp hx).1
  omega

/-- The beginning of a well-formed text can only be broken at its end. -/
theorem wellFormed_of_append (h : WellFormed (u ++ v)) (hend : ¬ EndsHigh u) : WellFormed u := by
  refine ⟨fun i w hw hhigh => ?_,fun i w hw hlow => ?_⟩
  · have hi := (List.getElem?_eq_some_iff.mp hw).1
    obtain ⟨x,hx,hlow⟩ := h.high_followed i w (by rwa [List.getElem?_append_left hi]) hhigh
    by_cases hnext : i+1 < u.length
    · exact ⟨x,by rwa [List.getElem?_append_left hnext] at hx,hlow⟩
    · have hlast : u.length - 1 = i := by omega
      exact absurd ⟨w,by rw [Option.mem_def,List.getLast?_eq_getElem?,hlast,hw],hhigh⟩ hend
  · have hi := (List.getElem?_eq_some_iff.mp hw).1
    obtain ⟨j,x,hj,hx,hhigh⟩ :=
      h.low_preceded i w (by rwa [List.getElem?_append_left hi]) hlow
    exact ⟨j,x,hj,by rwa [List.getElem?_append_left (by omega)] at hx,hhigh⟩

theorem wellFormed_chunks
    (h : WellFormed (hostOrder le chunks.flatten))
    (hend : ∀ c ∈ chunks, ¬ EndsHigh (hostOrder le c)) :
    ∀ c ∈ chunks, WellFormed (hostOrder le c) := by
  induction chunks with
  | nil => simp
  | cons c chunks ih =>
    rw [List.forall_mem_cons] at hend
    rw [List.flatten_cons,hostOrder_append] at h
    have hc := wellFormed_of_append h hend.1
    exact List.forall_mem_cons.mpr ⟨hc,ih ((wellFormed_append_iff hc).mp h) hend.2⟩

theorem utf16ToUtf8_append {r : List UInt8} (h : ScalarConverter.utf16ToUtf8 u le = .ok r)
    (v : List UInt16) : ScalarConverter.utf16ToUtf8 (u ++ v) le =
      (ScalarConverter.utf16ToUtf8 v le).map (r ++ ·) := by
  obtain ⟨cs,hcs,rfl⟩ := (ScalarConverter.utf16ToUtf8_eq_ok_iff u le r).mp h
  rw [utf16ToUtf8_eq,utf16ToUtf8_eq,hostOrder_append,
    decodeUtf16_append (decodeUtf16_eq_some_iff.mpr hcs)]
  cases decodeUtf16 (hostOrder le v) with
  | none => rfl
  | some ds => simp [Except.map,utf8Encode]

theorem inChunks_of_wellFormed (h : ∀ c ∈ chunks, WellFormed (hostOrder le c)) :
    inChunks (ScalarConverter.utf16ToUtf8 · le) chunks =
      ScalarConverter.utf16ToUtf8 chunks.flatten le := by
  induction chunks with
  | nil => rw [inChunks_nil,List.flatten_nil,utf16ToUtf8_eq]; cases le <;> rfl
  | cons c chunks ih =>
    rw [List.forall_mem_cons] at h
    obtain ⟨r,hr⟩ := (utf16ToUtf8_returns_iff c le).mpr h.1
    rw [inChunks_cons_of_ok hr,ih h.2,List.flatten_cons,utf16ToUtf8_append hr]

theorem inChunks_of_not_wellFormed (h : ¬ ∀ c ∈ chunks, WellFormed (hostOrder le c)) :
    inChunks (ScalarConverter.utf16ToUtf8 · le) chunks = .error invalidSequence := by
  induction chunks with
  | nil => simp at h
  | cons c chunks ih =>
    by_cases hc : WellFormed (hostOrder le c)
    · obtain ⟨r,hr⟩ := (utf16ToUtf8_returns_iff c le).mpr hc
      rw [inChunks_cons_of_ok hr,ih fun hall => h (List.forall_mem_cons.mpr ⟨hc,hall⟩)]
      rfl
    · exact inChunks_cons_of_error (utf16ToUtf8_of_not_wellFormed hc)

/-- A text may be given to the plain converter in any pieces, with the same result or the same
exception, exactly if it is malformed or no piece stops between the two halves of a pair. -/
theorem utf16ToUtf8_chunks_iff (chunks : List (List UInt16)) (isLittleEndian : Bool) :
    inChunks (ScalarConverter.utf16ToUtf8 · isLittleEndian) chunks =
      ScalarConverter.utf16ToUtf8 chunks.flatten isLittleEndian ↔
    (WellFormed (hostOrder isLittleEndian chunks.flatten) →
      ∀ c ∈ chunks, ¬ EndsHigh (hostOrder isLittleEndian c)) := by
  by_cases hall : ∀ c ∈ chunks, WellFormed (hostOrder isLittleEndian c)
  · exact iff_of_true (inChunks_of_wellFormed hall) fun _ c hc =>
      not_endsHigh_of_wellFormed (hall c hc)
  · rw [inChunks_of_not_wellFormed hall]
    constructor
    · intro herror hwhole
      obtain ⟨r,hr⟩ := (utf16ToUtf8_returns_iff _ _).mpr hwhole
      cases herror.trans hr
    · intro hend
      have hwhole : ¬ WellFormed (hostOrder isLittleEndian chunks.flatten) := fun hwhole =>
        hall (wellFormed_chunks hwhole (hend hwhole))
      exact (utf16ToUtf8_of_not_wellFormed hwhole).symm

end Scalar

section Vector

variable {u v block : List UInt16} {le : Bool} {chunks : List (List UInt16)}

theorem blockAt_append_zero (h : block.length = 16) : blockAt (block ++ v) 0 = block := by
  simp [blockAt,← h]

theorem blockAt_append_succ (h : block.length = 16) (k : ℕ) :
    blockAt (block ++ v) (k+1) = blockAt v k := by
  have hsum : 16*(k+1) = block.length + 16*k := by omega
  rw [blockAt,blockAt,hsum,List.drop_length_add_append]

theorem blocksBytes_append (h : block.length = 16) (count : ℕ) :
    blocksBytes (block ++ v) (count+1) = blockBytes block ++ blocksBytes v count := by
  simp only [blocksBytes,List.range_succ_eq_map,List.flatMap_cons,List.flatMap_map,
    blockAt_append_zero h,blockAt_append_succ h]

theorem avx2Bytes_block (h : block.length = 16) (v : List UInt16) :
    avx2Bytes (block ++ v) = blockBytes block ++ avx2Bytes v := by
  have hcount : (block ++ v).length/16 = v.length/16+1 := by
    rw [List.length_append]
    omega
  have hdrop : 16*(v.length/16+1) = block.length + 16*(v.length/16) := by omega
  rw [avx2Bytes,hcount,blocksBytes_append h,hdrop,List.drop_length_add_append,
    List.append_assoc]
  rfl

theorem avx2Bytes_append {count : ℕ} (h : u.length = 16*count) (v : List UInt16) :
    avx2Bytes (u ++ v) = avx2Bytes u ++ avx2Bytes v := by
  induction count generalizing u with
  | zero =>
    obtain rfl := List.eq_nil_of_length_eq_zero h
    rfl
  | succ count ih =>
    have hblock : (u.take 16).length = 16 := by simp; omega
    have hrest : (u.drop 16).length = 16*count := by simp; omega
    rw [← List.take_append_drop 16 u,List.append_assoc,avx2Bytes_block hblock,
      avx2Bytes_block hblock,ih hrest,List.append_assoc]

theorem avx2Bytes_of_lt (h : v.length < 16) : avx2Bytes v = v.flatMap utf8Unit := by
  have hcount : v.length/16 = 0 := by omega
  simp [avx2Bytes,hcount,blocksBytes]

/-- Sixteen units 0x0080, which the shortcut truncates as a block and nowhere else. -/
def probe : List UInt16 := List.replicate 16 0x80

/-- Behind a broken block the probe ends in a two-byte form, behind a whole one in low bytes. -/
theorem avx2Bytes_append_probe_ne (h : u.length < 16) (hpos : 0 < u.length) :
    avx2Bytes (u ++ probe) ≠ avx2Bytes u ++ avx2Bytes probe := by
  obtain ⟨n,hn⟩ : ∃ n, u.length = n+1 := ⟨u.length - 1,by omega⟩
  have hsplit : u ++ probe =
      (u ++ List.replicate (16-u.length) 0x80) ++ List.replicate u.length 0x80 := by
    rw [probe,List.append_assoc,List.replicate_append_replicate,Nat.sub_add_cancel h.le]
  have hfull : (u ++ List.replicate (16-u.length) (0x80 : UInt16)).length = 16*1 := by
    rw [List.length_append,List.length_replicate]
    omega
  have hbroken : avx2Bytes (List.replicate u.length 0x80) =
      (List.replicate n 0x80).flatMap utf8Unit ++ [0xC2,0x80] := by
    rw [avx2Bytes_of_lt (by rwa [List.length_replicate]),hn,List.replicate_succ',
      List.flatMap_append]
    rfl
  have hwhole : avx2Bytes probe = List.replicate 14 0x80 ++ [0x80,0x80] := by decide
  rw [hsplit,avx2Bytes_append hfull,hbroken,hwhole,← List.append_assoc,← List.append_assoc]
  intro heq
  exact absurd (List.append_inj_right' heq rfl) (by decide)

theorem length_of_append_probe (h : avx2Bytes (u ++ probe) = avx2Bytes u ++ avx2Bytes probe) :
    16 ∣ u.length := by
  have hwhole : (u.take (16*(u.length/16))).length = 16*(u.length/16) := by simp; omega
  have hlt : (u.drop (16*(u.length/16))).length < 16 := by simp; omega
  by_contra hnot
  apply avx2Bytes_append_probe_ne hlt (by simp; omega)
  have hsplit := List.take_append_drop (16*(u.length/16)) u
  rw [← hsplit,List.append_assoc,avx2Bytes_append hwhole,avx2Bytes_append hwhole,
    List.append_assoc,List.append_right_inj] at h
  exact h

theorem inChunks_utf16ToUtf8Avx2 (chunks : List (List UInt16)) :
    inChunks (utf16ToUtf8Avx2 · le) chunks =
      .ok (chunks.flatMap fun c => avx2Bytes (hostOrder le c)) := by
  induction chunks with
  | nil => rfl
  | cons c chunks ih =>
    rw [inChunks_cons_of_ok (utf16ToUtf8Avx2_eq c le),ih]
    rfl

theorem avx2Bytes_flatten (h : ∀ c ∈ chunks, 16 ∣ c.length) (v : List UInt16) :
    avx2Bytes (chunks.flatten ++ v) = chunks.flatMap avx2Bytes ++ avx2Bytes v := by
  induction chunks with
  | nil => rfl
  | cons c chunks ih =>
    obtain ⟨⟨count,hcount⟩,hrest⟩ := List.forall_mem_cons.mp h
    rw [List.flatten_cons,List.append_assoc,avx2Bytes_append hcount,ih hrest,List.flatMap_cons,
      List.append_assoc]

/-- A piece of a text may be given to the vector converter on its own, whatever follows, exactly if
it consists of whole blocks; and so may any number of such pieces before the last one. -/
theorem utf16ToUtf8Avx2_chunks_iff (u : List UInt16) (isLittleEndian : Bool) :
    ((∀ v, inChunks (utf16ToUtf8Avx2 · isLittleEndian) [u,v] =
      utf16ToUtf8Avx2 (u ++ v) isLittleEndian) ↔ 16 ∣ u.length) ∧
    ∀ chunks v, (∀ c ∈ chunks, 16 ∣ c.length) →
      inChunks (utf16ToUtf8Avx2 · isLittleEndian) (chunks ++ [v]) =
        utf16ToUtf8Avx2 (chunks.flatten ++ v) isLittleEndian := by
  have htwo (v : List UInt16) : inChunks (utf16ToUtf8Avx2 · isLittleEndian) [u,v] =
      utf16ToUtf8Avx2 (u ++ v) isLittleEndian ↔
      avx2Bytes (hostOrder isLittleEndian u ++ hostOrder isLittleEndian v) =
        avx2Bytes (hostOrder isLittleEndian u) ++ avx2Bytes (hostOrder isLittleEndian v) := by
    rw [inChunks_utf16ToUtf8Avx2,utf16ToUtf8Avx2_eq,Except.ok.injEq,hostOrder_append,eq_comm]
    simp
  refine ⟨⟨fun hall => ?_,?_⟩,fun chunks v h => ?_⟩
  · have hprobe := (htwo _).mp (hall (hostOrder isLittleEndian probe))
    rw [hostOrder_hostOrder] at hprobe
    rw [← hostOrder_length isLittleEndian]
    exact length_of_append_probe hprobe
  · rintro ⟨count,hcount⟩ v
    exact (htwo v).mpr (avx2Bytes_append ((hostOrder_length _ u).trans hcount) _)
  · have hhost : ∀ c ∈ chunks.map (hostOrder isLittleEndian), 16 ∣ c.length := by
      simpa using h
    rw [inChunks_utf16ToUtf8Avx2,utf16ToUtf8Avx2_eq,hostOrder_append,hostOrder_flatten,
      avx2Bytes_flatten hhost,List.flatMap_append,List.flatMap_map,List.flatMap_singleton]

end Vector

end ConverterChunks
end Potimizer

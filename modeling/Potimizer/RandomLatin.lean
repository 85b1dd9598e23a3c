import Potimizer.LatinScanner

/-! The generator of random Latin strings and the scanners it is made for: what it can return, and
that the scanners accept all of it. -/
namespace Potimizer
namespace RandomLatin

open CheckedMemory LatinScanner

/-- `const char charset[]`, with the terminator of the literal. -/
def charset : List UInt8 :=
  "abcdefghijklmnopqrstuvwxyzABCDEFGHIJKLMNOPQRSTUVWXYZ0123456789".toUTF8.data.toList ++ [0]

/-- What `std::uniform_int_distribution<>(0, sizeof(charset) - 2)` returns. -/
abbrev Draw := {k : ℕ // k ≤ charset.length - 2}

/-- `for (size_t i = 0; i < length; ++i) result += charset[dist(rng)]` -/
def generateRandomString (length : ℕ) (draws : ℕ → Draw) : Except Fault (List UInt8) :=
  (List.range length).foldlM (fun result i => do
    return result ++ [← read charset (draws i).val]) []

def Alphanumeric (c : UInt8) : Prop := 97 ≤ c ∧ c ≤ 122 ∨ 65 ≤ c ∧ c ≤ 90 ∨ 48 ≤ c ∧ c ≤ 57

instance (c : UInt8) : Decidable (Alphanumeric c) := inferInstanceAs (Decidable (_ ∨ _ ∨ _))

def charRun (start count : ℕ) : List UInt8 := (List.range count).map fun k => UInt8.ofNat (start+k)

theorem mem_charRun_iff {start count : ℕ} (h : start+count ≤ 256) (c : UInt8) :
    c ∈ charRun start count ↔ start ≤ c.toNat ∧ c.toNat < start+count := by
  simp only [charRun,List.mem_map,List.mem_range]
  constructor
  · rintro ⟨k,hk,rfl⟩
    rw [UInt8.toNat_ofNat']
    omega
  · rintro ⟨hle,hlt⟩
    refine ⟨c.toNat - start,by omega,?_⟩
    rw [Nat.add_sub_cancel' hle,UInt8.ofNat_toNat]

theorem charset_eq : charset = charRun 97 26 ++ charRun 65 26 ++ charRun 48 10 ++ [0] := by decide

theorem mem_charset_iff (c : UInt8) : c ∈ charset.dropLast ↔ Alphanumeric c := by
  rw [charset_eq,List.dropLast_concat,List.mem_append,List.mem_append,
    mem_charRun_iff (by omega),mem_charRun_iff (by omega),mem_charRun_iff (by omega)]
  simp only [Alphanumeric,UInt8.le_iff_toNat_le,UInt8.reduceToNat]
  omega

theorem length_charset : charset.length = 63 := by decide

theorem exists_draw_iff (c : UInt8) :
    (∃ draw : Draw, charset[draw.val]? = some c) ↔ Alphanumeric c := by
  rw [← mem_charset_iff,List.mem_iff_getElem?]
  have hlen := length_charset
  constructor
  · rintro ⟨⟨k,hk⟩,hc⟩
    exact ⟨k,by rw [List.getElem?_dropLast,if_pos (by omega),hc]⟩
  · rintro ⟨k,hc⟩
    rw [List.getElem?_dropLast] at hc
    split_ifs at hc with hk
    exact ⟨⟨k,by omega⟩,hc⟩

section Generated

variable {length : ℕ} {draws : ℕ → Draw} {text : List UInt8}

theorem generateRandomString_succ (length : ℕ) (draws : ℕ → Draw) :
    generateRandomString (length+1) draws = do
      let result ← generateRandomString length draws
      return result ++ [← read charset (draws length).val] := by
  simp [generateRandomString,List.range_succ]

/-- Every pass reads inside the table: the loop runs to its end, and position by position the
string holds what was drawn. -/
theorem generateRandomString_eq (length : ℕ) (draws : ℕ → Draw) :
    ∃ text, generateRandomString length draws = .ok text ∧ text.length = length ∧
      ∀ i < length, text[i]? = charset[(draws i).val]? := by
  induction length with
  | zero => exact ⟨[],rfl,rfl,by simp⟩
  | succ length ih =>
    obtain ⟨text,htext,hlength,hdrawn⟩ := ih
    have hdraw : (draws length).val < charset.length := by
      have hk := (draws length).property
      have hlen := length_charset
      omega
    obtain ⟨c,hread⟩ : ∃ c, charset[(draws length).val]? = some c :=
      ⟨_,List.getElem?_eq_getElem hdraw⟩
    refine ⟨text ++ [c],?_,by simp [hlength],fun i hi => ?_⟩
    · rw [generateRandomString_succ,htext]
      simp only [bind,Except.bind,read_ok hread]
      rfl
    · obtain hlt | rfl := (Nat.lt_succ_iff.mp hi).lt_or_eq
      · rw [List.getElem?_append_left (by omega),hdrawn i hlt]
      · rw [hread,← hlength,List.getElem?_concat_length]

theorem alphanumeric_of_generated (h : generateRandomString length draws = .ok text) :
    text.length = length ∧ ∀ c ∈ text, Alphanumeric c := by
  obtain ⟨text',htext,hlength,hdrawn⟩ := generateRandomString_eq length draws
  cases h.symm.trans htext
  refine ⟨hlength,fun c hc => ?_⟩
  obtain ⟨i,hi⟩ := List.mem_iff_getElem?.mp hc
  have hlt : i < length := hlength ▸ (List.getElem?_eq_some_iff.mp hi).1
  exact (exists_draw_iff c).mp ⟨draws i,(hdrawn i hlt).symm.trans hi⟩

theorem exists_draws (h : ∀ c ∈ text, Alphanumeric c) :
    ∃ draws, generateRandomString text.length draws = .ok text := by
  have hdraw (i : ℕ) : ∃ draw : Draw, i < text.length → charset[draw.val]? = text[i]? := by
    by_cases hi : i < text.length
    · obtain ⟨draw,hdraw⟩ := (exists_draw_iff text[i]).mpr (h _ (List.getElem_mem hi))
      exact ⟨draw,fun _ => hdraw.trans (List.getElem?_eq_getElem hi).symm⟩
    · exact ⟨⟨0,Nat.zero_le _⟩,fun hlt => absurd hlt hi⟩
  choose draws hdraws using hdraw
  obtain ⟨text',htext,hlength,hdrawn⟩ := generateRandomString_eq text.length draws
  have heq : text' = text := by
    refine List.ext_getElem? fun i => ?_
    by_cases hi : i < text.length
    · rw [hdrawn i hi,hdraws i hi]
    · rw [List.getElem?_eq_none (by omega),List.getElem?_eq_none (by omega)]
  exact ⟨draws,heq ▸ htext⟩

theorem isLatinBaseline_of_alphanumeric (h : ∀ c ∈ text, Alphanumeric c) :
    isLatinBaseline text = true := by
  refine (isLatinBaseline_iff text).mpr fun c hc => ?_
  have hrange := h c hc
  simp only [Alphanumeric,UInt8.le_iff_toNat_le,UInt8.lt_iff_toNat_lt,UInt8.reduceToNat] at hrange ⊢
  omega

theorem scanners_of_alphanumeric (h : ∀ c ∈ text, Alphanumeric c) :
    isLatinBaseline text = true ∧ isLatinAVX2 text = .ok true ∧ isLatinSSE2 text = .ok true ∧
      isLatinNEON text = .ok true ∧ isLatinAVX512 text = .ok true := by
  have hbaseline := isLatinBaseline_of_alphanumeric h
  refine ⟨hbaseline,?_,?_,?_,?_⟩
  · exact (scan_eq_baseline (hitsHigh_testz 32)).trans (congrArg _ hbaseline)
  · exact (scan_eq_baseline (hitsHigh_testz 16)).trans (congrArg _ hbaseline)
  · exact (scan_eq_baseline (hitsHigh_vmaxvqU8 16)).trans (congrArg _ hbaseline)
  · exact (scan_eq_baseline (hitsHigh_testEpi8Mask 64)).trans (congrArg _ hbaseline)

/-- The generator never reads outside its table; for a length it returns, for some stream of
draws, exactly the strings of this length over the letters and digits; and on each of them every fixed-width scanner answers that
the string is Latin, as the benchmark expects. -/
theorem generateRandomString_exact (length : ℕ) :
    (∀ draws, ∃ text, generateRandomString length draws = .ok text) ∧
    ∀ text, ((∃ draws, generateRandomString length draws = .ok text) ↔
      text.length = length ∧ ∀ c ∈ text, Alphanumeric c) ∧
    ((∃ draws, generateRandomString length draws = .ok text) →
      isLatinBaseline text = true ∧ isLatinAVX2 text = .ok true ∧ isLatinSSE2 text = .ok true ∧
        isLatinNEON text = .ok true ∧ isLatinAVX512 text = .ok true) := by
  refine ⟨fun draws => ?_,fun text => ⟨⟨?_,?_⟩,?_⟩⟩
  · obtain ⟨text,htext,-⟩ := generateRandomString_eq length draws
    exact ⟨text,htext⟩
  · rintro ⟨draws,h⟩
    exact alphanumeric_of_generated h
  · rintro ⟨rfl,h⟩
    exact exists_draws h
  · rintro ⟨draws,h⟩
    exact scanners_of_alphanumeric (alphanumeric_of_generated h).2

def resultLine (scanner : String) (result : Bool) : String :=
  scanner ++ " Result: " ++ if result then "Latin-only" else "Not Latin-only"

/-- The results the benchmark prints for its string, without the running times. -/
def resultLines (testStr : List UInt8) : Except Fault (List String) := do
  let resultBaseline := isLatinBaseline testStr
  let resultSse2 ← isLatinSSE2 testStr
  let resultAvx2 ← isLatinAVX2 testStr
  return [resultLine "Baseline" resultBaseline,resultLine "SSE2" resultSse2,
    resultLine "AVX2" resultAvx2]

def main (draws : ℕ → Draw) : Except Fault (List String) := do
  resultLines (← generateRandomString 100000 draws)

theorem resultLines_of_alphanumeric (h : ∀ c ∈ text, Alphanumeric c) :
    resultLines text = .ok (["Baseline","SSE2","AVX2"].map (resultLine · true)) := by
  obtain ⟨hbaseline,havx2,hsse2,-⟩ := scanners_of_alphanumeric h
  simp only [resultLines,hbaseline,hsse2,havx2]
  rfl

/-- Whatever is drawn, the benchmark prints that its string is Latin-only, three times over. -/
theorem main_reports (draws : ℕ → Draw) :
    main draws = .ok (["Baseline","SSE2","AVX2"].map (resultLine · true)) := by
  obtain ⟨text,htext,-⟩ := generateRandomString_eq 100000 draws
  rw [main,htext]
  exact resultLines_of_alphanumeric (alphanumeric_of_generated htext).2

end Generated

end RandomLatin
end Potimizer

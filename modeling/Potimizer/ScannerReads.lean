import Potimizer.RiscvScanner

/-! How far a scanner reads. The block loop starts at the multiples of its width up to the first high
byte and the tail loop at every index from there up to it: no scanner looks past the register that
holds the first high byte. -/
namespace Potimizer
namespace LatinScanner

open CheckedMemory LaneRegisters LoopMachine

def firstHigh (data : List UInt8) : ℕ := data.findIdx fun c => decide (128 ≤ c)

section Heads

variable {data : List UInt8} {s : Scanner} {i m : ℕ}

theorem firstHigh_le_length (data : List UInt8) : firstHigh data ≤ data.length :=
  List.findIdx_le_length

theorem low_of_lt_firstHigh (hi : i < firstHigh data) (hlen : i < data.length) :
    data[i] < 128 := by
  have hnot := List.not_of_lt_findIdx hi
  simpa using hnot

theorem scanned_iff : Scanned data i ↔ i ≤ firstHigh data := by
  constructor
  · rintro ⟨hle,hlow⟩
    by_contra hlt
    rw [not_le] at hlt
    have hlen : firstHigh data < data.length := by omega
    have hhigh : 128 ≤ data[firstHigh data] :=
      of_decide_eq_true (List.findIdx_getElem (w := hlen))
    have hmem : data[firstHigh data] ∈ data.take i :=
      List.mem_take_iff_getElem.mpr ⟨firstHigh data,by omega,rfl⟩
    exact absurd (hlow _ hmem) (UInt8.not_lt.mpr hhigh)
  · intro hle
    have hlength := firstHigh_le_length data
    refine ⟨hle.trans hlength,fun c hc => ?_⟩
    obtain ⟨j,hj,rfl⟩ := List.mem_take_iff_getElem.mp hc
    exact low_of_lt_firstHigh (by omega) (by omega)

theorem blocks_body (h : i+s.width ≤ firstHigh data) :
    (s.blocks data).guard i = true ∧
      (s.blocks data).body i = .ok (.next (i+s.width)) := by
  have hi : i+s.width ≤ data.length := h.trans (firstHigh_le_length data)
  have hlow : s.hit (Vector.ofFn fun j : Fin s.width => data[i+j.val]) = false := by
    refine (s.hitsHigh _).mpr fun j hj => ?_
    rw [Vector.getElem_ofFn]
    exact low_of_lt_firstHigh (by omega) (by omega)
  refine ⟨decide_eq_true hi,?_⟩
  simp only [Scanner.blocks,blockLoop,load_ok hi,bind,Except.bind,pure,Except.pure,hlow]
  rfl

theorem tailLoop_body (h : i < firstHigh data) :
    (tailLoop data).guard i = true ∧ (tailLoop data).body i = .ok (.next (i+1)) := by
  have hi : i < data.length := h.trans_le (firstHigh_le_length data)
  have hlow : ¬ data[i] ≥ 128 := UInt8.not_le.mpr (low_of_lt_firstHigh h hi)
  refine ⟨decide_eq_true hi,?_⟩
  simp only [tailLoop,read_ok (List.getElem?_eq_getElem hi),bind,Except.bind,pure,Except.pure]
  rw [if_neg hlow]

theorem blocks_advances (hg : (s.blocks data).guard i = true)
    (hb : (s.blocks data).body i = .ok (.next m)) : m = i+s.width := by
  have hi : i+s.width ≤ data.length := of_decide_eq_true hg
  simp only [Scanner.blocks,blockLoop,load_ok hi,bind,Except.bind,pure,Except.pure] at hb
  split at hb <;> cases hb
  rfl

theorem scanned_of_blocks (h : (s.blocks data).Visits 0 i) : s.width ∣ i ∧ Scanned data i := by
  refine h.invariant (I := fun i => s.width ∣ i ∧ Scanned data i) (fun i j hi hg hb => ?_)
    ⟨dvd_zero _,Nat.zero_le _,by simp⟩
  refine ⟨blocks_advances hg hb ▸ (Nat.dvd_add_self_right).mpr hi.1,?_⟩
  obtain ⟨j',hj',hscanned⟩ | ⟨found,hfound,-⟩ := blockLoop_pass s.hitsHigh hi.2 hg
  · cases hb.symm.trans hj'
    exact hscanned
  · cases hb.symm.trans hfound

theorem blocks_visits_iff : (s.blocks data).Visits 0 i ↔ s.width ∣ i ∧ i ≤ firstHigh data := by
  constructor
  · intro h
    obtain ⟨hdvd,hscanned⟩ := scanned_of_blocks h
    exact ⟨hdvd,scanned_iff.mp hscanned⟩
  · rintro ⟨⟨k,rfl⟩,hle⟩
    induction k with
    | zero => exact .head 0
    | succ k ih =>
      rw [Nat.mul_succ] at hle ⊢
      obtain ⟨hg,hb⟩ := blocks_body hle
      exact (ih (by omega)).concat hg hb

theorem scanned_of_tail (hm : Scanned data m) (h : (tailLoop data).Visits m i) :
    m ≤ i ∧ Scanned data i := by
  refine h.invariant (I := fun i => m ≤ i ∧ Scanned data i) (fun i j hi hg hb => ?_) ⟨le_rfl,hm⟩
  have hlen : i < data.length := of_decide_eq_true hg
  obtain ⟨j',hj',hscanned⟩ | ⟨found,hfound,-⟩ := tailLoop_pass hi.2 hg
  · have hmeasure := (tailLoop data).decreases i j hg hb
    cases hb.symm.trans hj'
    simp only [tailLoop] at hmeasure
    exact ⟨by omega,hscanned⟩
  · cases hb.symm.trans hfound

theorem tail_visits_iff (hm : m ≤ firstHigh data) :
    (tailLoop data).Visits m i ↔ m ≤ i ∧ i ≤ firstHigh data := by
  constructor
  · intro h
    obtain ⟨hle,hscanned⟩ := scanned_of_tail (scanned_iff.mpr hm) h
    exact ⟨hle,scanned_iff.mp hscanned⟩
  · rintro ⟨hle,hlast⟩
    induction i, hle using Nat.le_induction with
    | base => exact .head m
    | succ i hle ih =>
      obtain ⟨hg,hb⟩ := tailLoop_body (Nat.lt_of_succ_le hlast)
      exact (ih (by omega)).concat hg hb

/-- For every fixed-width scanner and every string, the block loop comes to exactly the multiples of
the width up to the first high byte, or up to the end where there is none; if it ends without a
hit, the tail loop comes to exactly the indices from there up to the first high byte. -/
theorem scanner_heads_iff (s : Scanner) (data : List UInt8) :
    (∀ i, (s.blocks data).Visits 0 i ↔ s.width ∣ i ∧ i ≤ firstHigh data) ∧
    ∀ m, (s.blocks data).run 0 = .ok (.next m) →
      ∀ i, (tailLoop data).Visits m i ↔ m ≤ i ∧ i ≤ firstHigh data := by
  refine ⟨fun i => blocks_visits_iff,fun m hrun i => tail_visits_iff ?_⟩
  exact (blocks_visits_iff.mp ((s.blocks data).visits_of_run hrun)).2

end Heads

section Riscv

open RiscvScanner

variable {lengths : VectorLengths} {data : List UInt8} {s t : RiscvScanner.State}

theorem vectorPass_next (hb : vectorPass lengths data s = .ok (.next t)) :
    t.pass = s.pass+1 ∧ s.i < t.i ∧ t.i ≤ s.i+lengths.vlmax := by
  simp only [vectorPass,bind,Except.bind,pure,Except.pure] at hb
  cases hsub : sizeSub data.length s.i with
  | error e => rw [hsub] at hb; cases hb
  | ok avl =>
    rw [hsub] at hb
    dsimp only at hb
    split_ifs at hb with hpos
    swap
    · cases hb
    have havl : 0 < avl := by
      by_contra hzero
      obtain rfl : avl = 0 := by omega
      rw [lengths.zero] at hpos
      omega
    have hle := (lengths.le s.pass avl havl).trans (Nat.min_le_right avl lengths.vlmax)
    cases hload : load (lengths.vsetvl s.pass avl) data s.i with
    | error e => rw [hload] at hb; cases hb
    | ok chars =>
      rw [hload] at hb
      dsimp only at hb
      split_ifs at hb <;> cases hb
      exact ⟨rfl,by dsimp only; omega,by dsimp only; omega⟩

/-- Whatever lengths the hardware chooses, after `p` passes of the vector loop at least `p` bytes
are done, at most `p` full registers, and none behind the first high byte: the loop loads at most
one register more than there are low bytes in front. -/
theorem isLatinRISCV_heads (lengths : VectorLengths) (data : List UInt8)
    (s : RiscvScanner.State) (h : (vectorLoop lengths data).Visits ⟨0,0⟩ s) :
    s.pass ≤ s.i ∧ s.i ≤ s.pass*lengths.vlmax ∧ s.i ≤ firstHigh data := by
  refine ⟨?_,?_,scanned_iff.mp (scanned_of_visits h)⟩
  · refine h.invariant (I := fun s => s.pass ≤ s.i) (fun s t hs _ hb => ?_) le_rfl
    obtain ⟨hpass,hlt,-⟩ := vectorPass_next hb
    omega
  · refine h.invariant (I := fun s => s.i ≤ s.pass*lengths.vlmax) (fun s t hs _ hb => ?_)
      (Nat.zero_le _)
    obtain ⟨hpass,-,hle⟩ := vectorPass_next hb
    rw [hpass,Nat.succ_mul]
    omega

/-- Registers of two bytes, filled as far as the string goes. -/
def twoByteLengths : VectorLengths where
  vlmax := 2
  vsetvl _ avl := min avl 2
  zero _ := rfl
  pos _ avl h := by omega
  le _ avl _ := le_rfl

theorem isLatinRISCV_heads_two_bytes :
    (1 : ℕ) ≤ 2 ∧ 2 ≤ 1*twoByteLengths.vlmax ∧ 2 ≤ firstHigh [0x41,0x42,0x80] := by
  have hpass : vectorPass twoByteLengths [0x41,0x42,0x80] ⟨0,0⟩ = .ok (.next ⟨1,2⟩) := by
    simp only [vectorPass,sizeSub,twoByteLengths,load,bind,Except.bind,pure,Except.pure,
      vfirst_high_iff,ne_eq]
    rfl
  have hvisits : (vectorLoop twoByteLengths [0x41,0x42,0x80]).Visits ⟨0,0⟩ ⟨1,2⟩ :=
    .next rfl hpass (.head _)
  exact isLatinRISCV_heads twoByteLengths [0x41,0x42,0x80] ⟨1,2⟩ hvisits

end Riscv

end LatinScanner
end Potimizer

import Potimizer.CheckedMemory
import Potimizer.LaneRegisters
import Potimizer.LoopMachine

/-! The ASCII scanners: a bytewise baseline, and block-plus-tail loops that test a whole register
at a time and leave at the first high byte. A scan that returns has loaded nothing outside the
string, since a load that does faults. -/
namespace Potimizer
namespace LatinScanner

open CheckedMemory LaneRegisters LoopMachine

def isLatinBaseline : List UInt8 → Bool
  | [] => true
  | c :: str => if c ≥ 128 then false else isLatinBaseline str

theorem isLatinBaseline_iff (str : List UInt8) :
    isLatinBaseline str = true ↔ ∀ c ∈ str, c < 128 := by
  induction str with
  | nil => simp [isLatinBaseline]
  | cons c str ih =>
    by_cases hc : c ≥ 128
    · simp [isLatinBaseline,hc]
    · simp [isLatinBaseline,hc,ih,UInt8.not_le.mp hc]

/-- `for (; i + width <= len; i += width)`, leaving with `false` at a register that tests as
holding a high byte. -/
def blockLoop (width : ℕ) (hwidth : 0 < width) (hit : Vector UInt8 width → Bool)
    (data : List UInt8) : Loop Fault ℕ Bool where
  guard i := decide (i+width ≤ data.length)
  body i := do
    let chars ← load width data i
    if hit chars then return .exit false else return .next (i+width)
  measure i := data.length - i
  decreases i j hg hb := by
    have hi : i+width ≤ data.length := of_decide_eq_true hg
    rw [load_ok hi] at hb
    simp only [bind,Except.bind,pure,Except.pure] at hb
    split at hb <;> cases hb
    omega

/-- `for (; i < len; ++i)` over the bytes the blocks left. -/
def tailLoop (data : List UInt8) : Loop Fault ℕ Bool where
  guard i := decide (i < data.length)
  body i := do
    let c ← read data i
    if c ≥ 128 then return .exit false else return .next (i+1)
  measure i := data.length - i
  decreases i j hg hb := by
    have hi : i < data.length := of_decide_eq_true hg
    rw [read_ok (List.getElem?_eq_getElem hi)] at hb
    simp only [bind,Except.bind,pure,Except.pure] at hb
    split at hb <;> cases hb
    omega

def scan (width : ℕ) (hwidth : 0 < width) (hit : Vector UInt8 width → Bool)
    (data : List UInt8) : Except Fault Bool := do
  match ← (blockLoop width hwidth hit data).run 0 with
  | .exit found => return found
  | .next i =>
    match ← (tailLoop data).run i with
    | .exit found => return found
    | .next _ => return true

def isLatinAVX2 : List UInt8 → Except Fault Bool :=
  scan 32 (by decide) fun chars =>
    let latinMask := set1 32 0x80
    let result := and chars latinMask
    !testz result result

def isLatinSSE2 : List UInt8 → Except Fault Bool :=
  scan 16 (by decide) fun chars =>
    let latinMask := set1 16 0x80
    let result := and chars latinMask
    !testz result result

def isLatinNEON : List UInt8 → Except Fault Bool :=
  scan 16 (by decide) fun chars =>
    let latinMask := set1 16 0x80
    let result := and chars latinMask
    decide (vmaxvqU8 result ≠ 0)

def isLatinAVX512 : List UInt8 → Except Fault Bool :=
  scan 64 (by decide) fun chars =>
    let latinMask := set1 64 0x80
    let resultMask := testEpi8Mask chars latinMask
    decide (resultMask ≠ 0)

/-- At a loop head every byte before the index has been seen to be low. -/
structure Scanned (data : List UInt8) (i : ℕ) : Prop where
  index_le : i ≤ data.length
  low : ∀ c ∈ data.take i, c < 128

def FoundHigh (data : List UInt8) (found : Bool) : Prop := found = false ∧ ∃ c ∈ data, 128 ≤ c

def HitsHigh {width : ℕ} (hit : Vector UInt8 width → Bool) : Prop :=
  ∀ chars, hit chars = false ↔ ∀ j (h : j < width), chars[j] < 128

section Scan

variable {width : ℕ} {hwidth : 0 < width} {hit : Vector UInt8 width → Bool} {data : List UInt8}
  {i : ℕ}

theorem Scanned.block (h : Scanned data i) (hi : i+width ≤ data.length)
    (hlow : ∀ j (hj : j < width), data[i+j] < 128) : Scanned data (i+width) := by
  refine ⟨hi,fun c hc => ?_⟩
  rw [List.take_add,List.mem_append] at hc
  rcases hc with hc | hc
  · exact h.low c hc
  · obtain ⟨j,hj,rfl⟩ := List.mem_iff_getElem.mp hc
    have hjw : j < width := by simp at hj; omega
    simpa using hlow j hjw

theorem blockLoop_pass (hhit : HitsHigh hit) (h : Scanned data i)
    (hg : (blockLoop width hwidth hit data).guard i = true) :
    (∃ j, (blockLoop width hwidth hit data).body i = .ok (.next j) ∧ Scanned data j) ∨
      ∃ found, (blockLoop width hwidth hit data).body i = .ok (.exit found) ∧
        FoundHigh data found := by
  have hi : i+width ≤ data.length := of_decide_eq_true hg
  simp only [blockLoop,load_ok hi,bind,Except.bind,pure,Except.pure]
  cases hc : hit (Vector.ofFn fun j : Fin width => data[i+j.val]) with
  | false =>
    refine .inl ⟨i+width,rfl,h.block hi fun j hj => ?_⟩
    simpa using (hhit _).mp hc j hj
  | true =>
    refine .inr ⟨false,rfl,rfl,?_⟩
    by_contra hnone
    have hlow : hit (Vector.ofFn fun j : Fin width => data[i+j.val]) = false := by
      refine (hhit _).mpr fun j hj => ?_
      by_contra hhigh
      exact hnone ⟨data[i+j],List.getElem_mem _,by simpa using hhigh⟩
    rw [hc] at hlow
    cases hlow

theorem tailLoop_pass (h : Scanned data i) (hg : (tailLoop data).guard i = true) :
    (∃ j, (tailLoop data).body i = .ok (.next j) ∧ Scanned data j) ∨
      ∃ found, (tailLoop data).body i = .ok (.exit found) ∧ FoundHigh data found := by
  have hi : i < data.length := of_decide_eq_true hg
  simp only [tailLoop,read_ok (List.getElem?_eq_getElem hi),bind,Except.bind,pure,Except.pure]
  by_cases hc : data[i] ≥ 128
  · exact .inr ⟨false,by rw [if_pos hc],rfl,data[i],List.getElem_mem hi,hc⟩
  · refine .inl ⟨i+1,by rw [if_neg hc],h.block hi fun j hj => ?_⟩
    obtain rfl : j = 0 := by omega
    exact UInt8.not_le.mp hc

theorem FoundHigh.eq_baseline {found : Bool} (h : FoundHigh data found) :
    found = isLatinBaseline data := by
  obtain ⟨rfl,c,hc,hhigh⟩ := h
  cases hb : isLatinBaseline data with
  | false => rfl
  | true => exact absurd ((isLatinBaseline_iff data).mp hb c hc) (UInt8.not_lt.mpr hhigh)

/-- A block-plus-tail scan whose register test is exact is the bytewise scan, for every width. -/
theorem scan_eq_baseline (hhit : HitsHigh hit) :
    scan width hwidth hit data = .ok (isLatinBaseline data) := by
  have hstart : Scanned data 0 := ⟨Nat.zero_le _,by simp⟩
  rcases (blockLoop width hwidth hit data).run_total (Scanned data) (FoundHigh data)
    (fun i h hg => blockLoop_pass hhit h hg) 0 hstart with ⟨i,hrun,hi,_⟩ | ⟨found,hrun,hfound⟩
  swap
  · simp [scan,hrun,bind,Except.bind,pure,Except.pure,hfound.eq_baseline]
  rcases (tailLoop data).run_total (Scanned data) (FoundHigh data)
    (fun i h hg => tailLoop_pass h hg) i hi with ⟨j,hrun',hj,hstop⟩ | ⟨found,hrun',hfound⟩
  swap
  · simp [scan,hrun,hrun',bind,Except.bind,pure,Except.pure,hfound.eq_baseline]
  have hend : ¬ j < data.length := of_decide_eq_false hstop
  have hall : isLatinBaseline data = true := by
    rw [isLatinBaseline_iff]
    intro c hc
    exact hj.low c (by rwa [List.take_of_length_le (not_lt.mp hend)])
  simp [scan,hrun,hrun',bind,Except.bind,pure,Except.pure,hall]

end Scan

theorem hitsHigh_testz (width : ℕ) :
    HitsHigh fun chars : Vector UInt8 width =>
      !testz (and chars (set1 width 0x80)) (and chars (set1 width 0x80)) := by
  intro chars
  rw [Bool.not_eq_false',testz_high_iff]

theorem hitsHigh_vmaxvqU8 (width : ℕ) :
    HitsHigh fun chars : Vector UInt8 width =>
      decide (vmaxvqU8 (and chars (set1 width 0x80)) ≠ 0) := by
  intro chars
  rw [decide_eq_false_iff_not,not_not,vmaxvqU8_high_iff]

theorem hitsHigh_testEpi8Mask (width : ℕ) :
    HitsHigh fun chars : Vector UInt8 width =>
      decide (testEpi8Mask chars (set1 width 0x80) ≠ 0) := by
  intro chars
  rw [decide_eq_false_iff_not,not_not,testEpi8Mask_high_iff]

/-- Every fixed-width scanner answers as the baseline does, that is, whether every byte is below
128, and none of them faults on a load or a tail access. -/
theorem scanners_eq_baseline (str : List UInt8) :
    isLatinAVX2 str = .ok (isLatinBaseline str) ∧
    isLatinSSE2 str = .ok (isLatinBaseline str) ∧
    isLatinNEON str = .ok (isLatinBaseline str) ∧
    isLatinAVX512 str = .ok (isLatinBaseline str) ∧
    (isLatinBaseline str = true ↔ ∀ c ∈ str, c < 128) :=
  ⟨scan_eq_baseline (hitsHigh_testz 32),scan_eq_baseline (hitsHigh_testz 16),
    scan_eq_baseline (hitsHigh_vmaxvqU8 16),scan_eq_baseline (hitsHigh_testEpi8Mask 64),
    isLatinBaseline_iff str⟩

/-- A register width and a test of a register that answers whether it holds a high byte. -/
structure Scanner where
  width : ℕ
  width_pos : 0 < width
  hit : Vector UInt8 width → Bool
  hitsHigh : HitsHigh hit

namespace Scanner

def blocks (s : Scanner) (data : List UInt8) : Loop Fault ℕ Bool :=
  blockLoop s.width s.width_pos s.hit data

def run (s : Scanner) (data : List UInt8) : Except Fault Bool :=
  scan s.width s.width_pos s.hit data

def avx2 : Scanner := ⟨32,by decide,_,hitsHigh_testz 32⟩

def sse2 : Scanner := ⟨16,by decide,_,hitsHigh_testz 16⟩

def neon : Scanner := ⟨16,by decide,_,hitsHigh_vmaxvqU8 16⟩

def avx512 : Scanner := ⟨64,by decide,_,hitsHigh_testEpi8Mask 64⟩

theorem avx2_run : avx2.run = isLatinAVX2 := rfl

theorem sse2_run : sse2.run = isLatinSSE2 := rfl

theorem neon_run : neon.run = isLatinNEON := rfl

theorem avx512_run : avx512.run = isLatinAVX512 := by
  funext data
  simp only [run,avx512,isLatinAVX512]

end Scanner

end LatinScanner
end Potimizer

import Mathlib.Algebra.BigOperators.Fin
import Mathlib.Algebra.Order.BigOperators.Group.Finset
import Mathlib.Data.Nat.Bitwise
import Mathlib.Data.UInt
import Mathlib.Tactic

/-! Vector registers as vectors of lanes, with the lane-wise meaning of the instructions the
converters and scanners use. A whole-register test is characterized lane by lane. -/
namespace Potimizer
namespace LaneRegisters

variable {α : Type} {n : ℕ}

def set1 (n : ℕ) (x : α) : Vector α n := Vector.replicate n x

def and [AndOp α] (a b : Vector α n) : Vector α n := Vector.zipWith (· &&& ·) a b

def or [OrOp α] (a b : Vector α n) : Vector α n := Vector.zipWith (· ||| ·) a b

def srli [ShiftRight α] (a : Vector α n) (count : α) : Vector α n := a.map (· >>> count)

def slli [ShiftLeft α] (a : Vector α n) (count : α) : Vector α n := a.map (· <<< count)

/-- Signed comparison of 16-bit lanes: all ones where `a` is greater, all zeros elsewhere. -/
def cmpgtEpi16 (a b : Vector UInt16 n) : Vector UInt16 n :=
  Vector.zipWith (fun x y => if y.toInt16 < x.toInt16 then 0xFFFF else 0) a b

/-- True when the conjunction of the two registers is zero in every bit. -/
def testz [AndOp α] [Zero α] [DecidableEq α] (a b : Vector α n) : Bool :=
  (and a b).all (· = 0)

/-- One mask bit per byte lane, set where the conjunction of the lanes is not zero. -/
def testEpi8Mask (a b : Vector UInt8 n) : ℕ :=
  ∑ j : Fin n, if a[j] &&& b[j] ≠ 0 then 2^j.val else 0

def vmaxvqU8 (a : Vector UInt8 n) : UInt8 := a.foldl max 0

def vmseq [DecidableEq α] (a b : Vector α n) : Vector Bool n :=
  Vector.zipWith (fun x y => decide (x = y)) a b

/-- The first lane whose mask bit is set, or -1. -/
def vfirst (mask : Vector Bool n) : ℤ :=
  match mask.toList.findIdx? id with
  | some j => j
  | none => -1

@[simp] theorem getElem_set1 (x : α) (j : ℕ) (h : j < n) : (set1 n x)[j] = x := by
  simp [set1]

@[simp] theorem getElem_and [AndOp α] (a b : Vector α n) (j : ℕ) (h : j < n) :
    (and a b)[j] = a[j] &&& b[j] := by
  simp [and]

@[simp] theorem getElem_or [OrOp α] (a b : Vector α n) (j : ℕ) (h : j < n) :
    (or a b)[j] = a[j] ||| b[j] := by
  simp [or]

@[simp] theorem getElem_srli [ShiftRight α] (a : Vector α n) (count : α) (j : ℕ) (h : j < n) :
    (srli a count)[j] = a[j] >>> count := by
  simp [srli]

@[simp] theorem getElem_slli [ShiftLeft α] (a : Vector α n) (count : α) (j : ℕ) (h : j < n) :
    (slli a count)[j] = a[j] <<< count := by
  simp [slli]

@[simp] theorem getElem_cmpgtEpi16 (a b : Vector UInt16 n) (j : ℕ) (h : j < n) :
    (cmpgtEpi16 a b)[j] = if b[j].toInt16 < a[j].toInt16 then 0xFFFF else 0 := by
  simp [cmpgtEpi16]

theorem testz_iff [AndOp α] [Zero α] [DecidableEq α] (a b : Vector α n) :
    testz a b = true ↔ ∀ j (h : j < n), a[j] &&& b[j] = 0 := by
  simp [testz,Vector.all_eq_true]

theorem testz_cmpgtEpi16_iff (a : Vector UInt16 n) (limit : UInt16) :
    testz (cmpgtEpi16 a (set1 n limit)) (cmpgtEpi16 a (set1 n limit)) = true ↔
      ∀ j (h : j < n), a[j].toInt16 ≤ limit.toInt16 := by
  rw [testz_iff]
  refine forall₂_congr fun j h => ?_
  rw [getElem_cmpgtEpi16,getElem_set1]
  by_cases hlt : limit.toInt16 < a[j].toInt16
  · simp [hlt,Int16.not_le.mpr hlt]
  · simp [hlt,Int16.not_lt.mp hlt]

theorem and_high_eq_zero_iff (c : UInt8) : c &&& 0x80 = 0 ↔ c < 128 := by
  have hmask : (c &&& 0x80).toNat = (c.toNat.testBit 7).toNat * 2^7 := by
    rw [UInt8.toNat_and]
    exact Nat.and_two_pow c.toNat 7
  have hlt := c.toNat_lt
  rw [← UInt8.toNat_inj,hmask,UInt8.lt_iff_toNat_lt,Nat.testBit_eq_decide_div_mod_eq]
  by_cases h : c.toNat / 2^7 % 2 = 1
  · simp only [h]; simp; omega
  · simp only [h]; simp; omega

theorem testz_high_iff (a : Vector UInt8 n) :
    testz (and a (set1 n 0x80)) (and a (set1 n 0x80)) = true ↔ ∀ j (h : j < n), a[j] < 128 := by
  rw [testz_iff]
  refine forall₂_congr fun j h => ?_
  rw [getElem_and,getElem_set1,UInt8.and_self,and_high_eq_zero_iff]

theorem testEpi8Mask_high_iff (a : Vector UInt8 n) :
    testEpi8Mask a (set1 n 0x80) = 0 ↔ ∀ j (h : j < n), a[j] < 128 := by
  simp only [testEpi8Mask,Finset.sum_eq_zero_iff,Finset.mem_univ,forall_const,Fin.forall_iff]
  refine forall₂_congr fun j h => ?_
  simp [and_high_eq_zero_iff]

theorem foldl_max_eq_zero_iff (xs : List UInt8) (x : UInt8) :
    xs.foldl max x = 0 ↔ x = 0 ∧ ∀ y ∈ xs, y = 0 := by
  induction xs generalizing x with
  | nil => simp
  | cons y ys ih =>
    rw [List.foldl_cons,ih,List.forall_mem_cons,← and_assoc]
    have hmax : max x y = 0 ↔ x = 0 ∧ y = 0 := by
      simp only [← UInt8.toNat_inj]
      rw [show max x y = if x ≤ y then y else x from rfl]
      split <;> simp_all [UInt8.le_iff_toNat_le] <;> omega
    rw [hmax]

theorem vmaxvqU8_high_iff (a : Vector UInt8 n) :
    vmaxvqU8 (and a (set1 n 0x80)) = 0 ↔ ∀ j (h : j < n), a[j] < 128 := by
  rw [vmaxvqU8,← Vector.foldl_toList,foldl_max_eq_zero_iff]
  constructor
  · rintro ⟨_,hall⟩ j h
    have hz := hall ((and a (set1 n 0x80))[j]) (by
      rw [Vector.mem_toList_iff]; exact Vector.getElem_mem h)
    rwa [getElem_and,getElem_set1,and_high_eq_zero_iff] at hz
  · intro hall
    refine ⟨rfl,fun y hy => ?_⟩
    obtain ⟨j,h,rfl⟩ := List.mem_iff_getElem.mp hy
    rw [Vector.length_toList] at h
    rw [Vector.getElem_toList,getElem_and,getElem_set1,and_high_eq_zero_iff]
    exact hall j h

theorem and_high_eq_high_iff (c : UInt8) : c &&& 0x80 = 0x80 ↔ ¬ c < 128 := by
  rw [← and_high_eq_zero_iff]
  have hmask : (c &&& 0x80).toNat = (c.toNat.testBit 7).toNat * 2^7 := by
    rw [UInt8.toNat_and]
    exact Nat.and_two_pow c.toNat 7
  rw [← UInt8.toNat_inj,← UInt8.toNat_inj,hmask]
  cases c.toNat.testBit 7 <;> simp

theorem vfirst_eq_neg_one_iff (mask : Vector Bool n) :
    vfirst mask = -1 ↔ ∀ j (h : j < n), mask[j] = false := by
  have hnone : vfirst mask = -1 ↔ mask.toList.findIdx? id = none := by
    unfold vfirst
    cases mask.toList.findIdx? id with
    | none => simp
    | some j => simp
  rw [hnone,List.findIdx?_eq_none_iff,List.forall_mem_iff_getElem]
  simp

theorem vfirst_high_iff (a : Vector UInt8 n) :
    vfirst (vmseq (and a (set1 n 0x80)) (set1 n 0x80)) = -1 ↔ ∀ j (h : j < n), a[j] < 128 := by
  rw [vfirst_eq_neg_one_iff]
  refine forall₂_congr fun j h => ?_
  simp [vmseq,and_high_eq_high_iff]

end LaneRegisters
end Potimizer

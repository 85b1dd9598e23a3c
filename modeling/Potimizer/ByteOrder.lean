import Mathlib.Data.Nat.Digits.Defs
import Mathlib.Tactic

/-! Numbers in a fixed number of bytes, least significant byte first, and sums of 32-bit integers
that do not overflow. -/
namespace Potimizer
namespace ByteOrder

/-- The number a sequence of bytes stands for. -/
def value (bytes : List UInt8) : ℕ := Nat.ofDigits 256 (bytes.map UInt8.toNat)

@[simp] theorem value_nil : value [] = 0 := rfl

theorem value_cons (b : UInt8) (bytes : List UInt8) :
    value (b :: bytes) = b.toNat + 256 * value bytes := by
  simp [value,Nat.ofDigits_cons]

def lowBytes : ℕ → ℕ → List UInt8
  | 0, _ => []
  | width+1, n => UInt8.ofNat n :: lowBytes width (n / 256)

@[simp] theorem length_lowBytes (width n : ℕ) : (lowBytes width n).length = width := by
  induction width generalizing n with
  | zero => rfl
  | succ width ih => simp [lowBytes,ih]

theorem value_lowBytes (width n : ℕ) : value (lowBytes width n) = n % 256^width := by
  induction width generalizing n with
  | zero => simp [lowBytes,Nat.mod_one]
  | succ width ih =>
    rw [lowBytes,value_cons,ih,pow_succ',Nat.mod_mul]
    simp

theorem lowBytes_value (bytes : List UInt8) : lowBytes bytes.length (value bytes) = bytes := by
  induction bytes with
  | nil => rfl
  | cons b bytes ih =>
    have hlow : UInt8.ofNat (b.toNat+256*value bytes) = b := by
      rw [← UInt8.toNat_inj,UInt8.toNat_ofNat']
      have hlt := b.toNat_lt
      omega
    have hhigh : (b.toNat+256*value bytes)/256 = value bytes := by
      have hlt := b.toNat_lt
      omega
    rw [List.length_cons,lowBytes,value_cons,hlow,hhigh,ih]

theorem value_lt (bytes : List UInt8) : value bytes < 256^bytes.length := by
  rw [← lowBytes_value bytes,value_lowBytes,length_lowBytes]
  exact Nat.mod_lt _ (by positivity)

theorem toInt_add_ofNat_of_lt {p : Int32} {n : ℕ} (hp : 0 ≤ p.toInt) (h : p.toInt + n < 2^31) :
    (p + Int32.ofNat n).toInt = p.toInt + n := by
  have hn : (Int32.ofNat n).toInt = n := Int32.toInt_ofNat_of_lt (by omega)
  rw [Int32.toInt_add,hn]
  exact Int.bmod_eq_of_le (by omega) (by omega)

theorem toUInt32_toNat {p : Int32} {n : ℕ} (h : p.toInt = n) : p.toUInt32.toNat = n := by
  have hlt := p.toUInt32.toNat_lt
  have hbits : p.toUInt32.toNat = p.toBitVec.toNat := rfl
  rw [Int32.toInt,BitVec.toInt_eq_toNat_cond] at h
  rw [hbits]
  split_ifs at h <;> omega

theorem toInt_toInt32_ofNat {n : ℕ} (h : n < 2^32) :
    (UInt32.ofNat n).toInt32.toInt = if n < 2^31 then (n : ℤ) else n-2^32 := by
  have hbits : (UInt32.ofNat n).toInt32.toBitVec.toNat = n := UInt32.toNat_ofNat_of_lt h
  rw [Int32.toInt,BitVec.toInt_eq_toNat_cond,hbits]
  split_ifs <;> omega

/-- The bytes of a number below 2^16, read the other way around. -/
theorem value_reverse_lowBytes {n : ℕ} (h : n < 2^16) :
    value (lowBytes 4 n).reverse = n%256*2^24+n/256*2^16 := by
  have hthird : n/256/256 = 0 := Nat.div_eq_of_lt (by omega)
  simp only [lowBytes,List.reverse_cons,List.reverse_nil,List.nil_append,List.cons_append,value_cons,
    value_nil,hthird,Nat.zero_div,UInt8.toNat_ofNat']
  omega

end ByteOrder
end Potimizer

import Potimizer.SharedMemoryLog

/-! Where the C++ shared memory program stays inside its mapping: the pointer is trusted as read,
so the copy is inside exactly when that pointer and the message fit, and the string that is read
back ends inside exactly when the copy leaves a zero byte. -/
namespace Potimizer
namespace SharedMemoryBounds

open ShareMemoryForCpp SharedMemoryLog

def Mapped (a : ℤ) : Prop := 0 ≤ a ∧ a < sharedMemorySize

/-- The run copies into the mapping only, and the string read from its start after the copy ends
in it. -/
structure StaysInside (data : CString) (d : Durable) : Prop where
  copied : ∀ e ∈ main data d, ∀ a, e.Overwrites a → Mapped a
  terminated : ∃ a, Mapped a ∧ (runMain d data).sharedMemory a = 0

def storedPointer (d : Durable) : ℤ := (d.logPointerFile.elim 0 readInt).toInt

def InCopy (data : CString) (d : Durable) (a : ℤ) : Prop :=
  storedPointer d ≤ a ∧ a < storedPointer d + data.strlen

variable {d : Durable} {data : CString} {a : ℤ} {n : ℕ}

theorem recovered_toInt (d : Durable) : (recovered d).toInt = storedPointer d := by
  obtain ⟨file,memory⟩ := d
  cases file <;> rfl

theorem overwrites_iff (data : CString) (d : Durable) (a : ℤ) :
    (∃ e ∈ main data d, e.Overwrites a) ↔ InCopy data d a := by
  have hmain : ∃ created, main data d = created ++ .copy (recovered d) data ::
      updateLogPointer (recovered d + Int32.ofNat data.strlen) ∧ ∀ e ∈ created, ¬ e.Overwrites a := by
    obtain ⟨file,memory⟩ := d
    cases file with
    | none => exact ⟨[.create],rfl,by simp [Effect.Overwrites]⟩
    | some content => exact ⟨[],rfl,by simp⟩
  obtain ⟨created,heq,hcreated⟩ := hmain
  rw [heq,InCopy,← recovered_toInt]
  constructor
  · rintro ⟨e,he,hover⟩
    simp only [List.mem_append,List.mem_cons,updateLogPointer,List.not_mem_nil,or_false] at he
    obtain he | rfl | rfl | rfl := he
    · exact absurd hover (hcreated e he)
    · exact hover
    · exact hover.elim
    · exact hover.elim
  · exact fun h => ⟨_,List.mem_append_right _ List.mem_cons_self,h⟩

theorem copied_iff (data : CString) (d : Durable) :
    (∀ e ∈ main data d, ∀ a, e.Overwrites a → Mapped a) ↔ data.strlen = 0 ∨
      0 ≤ storedPointer d ∧ storedPointer d + data.strlen ≤ sharedMemorySize := by
  have hranges : (∀ e ∈ main data d, ∀ a, e.Overwrites a → Mapped a) ↔
      ∀ a, InCopy data d a → Mapped a := by
    constructor
    · intro h a ha
      obtain ⟨e,he,hover⟩ := (overwrites_iff data d a).mpr ha
      exact h e he a hover
    · exact fun h e he a hover => h a ((overwrites_iff data d a).mp ⟨e,he,hover⟩)
  rw [hranges]
  simp only [InCopy,Mapped]
  constructor
  · intro h
    by_contra hnot
    have hfirst := h (storedPointer d) (by omega)
    have hlast := h (storedPointer d + data.strlen - 1) (by omega)
    omega
  · intro h a ha
    omega

/-- A message has no zero byte, so the copy leaves zero only what was zero outside it. -/
theorem runMain_eq_zero_iff (data : CString) (d : Durable) (a : ℤ) :
    (runMain d data).sharedMemory a = 0 ↔ ¬ InCopy data d a ∧ d.sharedMemory a = 0 := by
  rw [runMain_sharedMemory,recovered_toInt]
  by_cases ha : InCopy data d a
  · obtain ⟨i,rfl⟩ : ∃ i : ℕ, a = storedPointer d + i :=
      ⟨(a - storedPointer d).toNat,by have := ha.1; omega⟩
    have hi : i < data.strlen := by have := ha.2; omega
    rw [memcpy_at hi]
    have hne : data.bytes[i] ≠ 0 := fun hzero => data.noNul (hzero ▸ List.getElem_mem hi)
    exact ⟨fun hzero => absurd hzero hne,fun hzero => absurd ha hzero.1⟩
  · have hkept : memcpy d.sharedMemory (storedPointer d) data a = d.sharedMemory a := if_neg ha
    rw [hkept]
    exact ⟨fun hzero => ⟨ha,hzero⟩,fun hzero => hzero.2⟩

theorem staysInside_iff (data : CString) (d : Durable) : StaysInside data d ↔
    (data.strlen = 0 ∨
      0 ≤ storedPointer d ∧ storedPointer d + data.strlen ≤ sharedMemorySize) ∧
    ∃ a, Mapped a ∧ ¬ InCopy data d a ∧ d.sharedMemory a = 0 := by
  rw [← copied_iff]
  simp only [← runMain_eq_zero_iff]
  exact ⟨fun h => ⟨h.copied,h.terminated⟩,fun h => ⟨h.1,h.2⟩⟩

def after (n : ℕ) : Durable := (List.replicate n helloSharedMemory).foldl runMain empty

theorem after_succ (n : ℕ) : after (n+1) = runMain (after n) helloSharedMemory := by
  rw [after,List.replicate_succ',List.foldl_append]
  rfl

theorem strlen_hello : helloSharedMemory.strlen = 21 := by decide

theorem length_logOf_replicate (n : ℕ) :
    (logOf (List.replicate n helloSharedMemory)).length = 21*n := by
  rw [length_logOf,List.map_replicate,List.sum_replicate,strlen_hello,smul_eq_mul,mul_comm]

theorem holds_after (hn : n ≤ 48) : Holds (after n) (logOf (List.replicate n helloSharedMemory)) := by
  apply holds_foldl
  rw [length_logOf_replicate,sharedMemorySize]
  omega

theorem storedPointer_after (hn : n ≤ 48) : storedPointer (after n) = 21*n := by
  rw [← recovered_toInt,(holds_after hn).pointer,length_logOf_replicate]
  push_cast
  rfl

theorem ne_zero_of_mem_logOf {messages : List CString} {b : UInt8} (hb : b ∈ logOf messages) :
    b ≠ 0 := by
  obtain ⟨data,-,hmem⟩ := List.mem_flatMap.mp hb
  exact fun hzero => data.noNul (hzero ▸ hmem)

theorem after_succ_ne_zero (hn : n ≤ 48) {i : ℕ} (hi : i < 21*n+21) :
    (after (n+1)).sharedMemory i ≠ 0 := by
  intro hzero
  rw [after_succ] at hzero
  obtain ⟨hcopy,hzero⟩ := (runMain_eq_zero_iff _ _ _).mp hzero
  have hlog : i < (logOf (List.replicate n helloSharedMemory)).length := by
    rw [length_logOf_replicate]
    by_contra hge
    refine hcopy ⟨?_,?_⟩
    · rw [storedPointer_after hn]
      omega
    · rw [storedPointer_after hn,strlen_hello]
      omega
  have hwritten := (holds_after hn).written i hlog
  exact ne_zero_of_mem_logOf (List.getElem_mem hlog) (hwritten.symm.trans hzero)

theorem after_ne_zero {m : ℕ} (hn : n ≤ 48) {i : ℕ} (hi : i < 21*n+21) (hm : n+1 ≤ m) :
    (after m).sharedMemory i ≠ 0 := by
  induction m, hm using Nat.le_induction with
  | base => exact after_succ_ne_zero hn hi
  | succ m hm ih =>
    intro hzero
    rw [after_succ] at hzero
    exact ih ((runMain_eq_zero_iff _ _ _).mp hzero).2

theorem staysInside_after_iff (n : ℕ) : StaysInside helloSharedMemory (after n) ↔ n < 48 := by
  rw [staysInside_iff,strlen_hello]
  obtain hlt | heq | hgt := Nat.lt_trichotomy n 48
  · refine ⟨fun _ => hlt,fun _ => ⟨.inr ?_,1023,⟨by decide,by decide⟩,?_,?_⟩⟩
    · rw [storedPointer_after hlt.le,sharedMemorySize]
      omega
    · rw [InCopy,storedPointer_after hlt.le,strlen_hello]
      omega
    · refine (holds_after hlt.le).rest 1023 ?_
      rw [length_logOf_replicate]
      omega
  · subst heq
    rw [storedPointer_after (le_refl 48),sharedMemorySize]
    omega
  · refine ⟨fun h => ?_,fun h => by omega⟩
    obtain ⟨-,a,ha,-,hzero⟩ := h
    obtain ⟨i,rfl⟩ : ∃ i : ℕ, a = i := ⟨a.toNat,(Int.toNat_of_nonneg ha.1).symm⟩
    have hi := ha.2
    rw [sharedMemorySize] at hi
    exact absurd hzero (after_ne_zero (le_refl 48) (by omega) hgt)

/-- A run stays inside the mapping exactly if the pointer in the file and the message fit into it
and a zero byte is left; from no file and zero memory that is so for the first 48 runs. -/
theorem staysInside_exactly (data : CString) (d : Durable) (n : ℕ) :
    (StaysInside data d ↔
      (data.strlen = 0 ∨
        0 ≤ storedPointer d ∧ storedPointer d + data.strlen ≤ sharedMemorySize) ∧
      ∃ a, Mapped a ∧ ¬ InCopy data d a ∧ d.sharedMemory a = 0) ∧
    (StaysInside helloSharedMemory (after n) ↔ n < 48) :=
  ⟨staysInside_iff data d,staysInside_after_iff n⟩

/-- The forty-ninth run copies past the mapping, and a foreign file moves the copy before it. -/
theorem copy_leaves_mapping :
    ¬ StaysInside helloSharedMemory (after 48) ∧
    (∃ e ∈ main helloSharedMemory (after 48), e.Overwrites 1028) ∧
    ∃ e ∈ main helloSharedMemory ⟨some [0xFF,0xFF,0xFF,0xFF],fun _ => 0⟩, e.Overwrites (-1) := by
  have hpointer : storedPointer (after 48) = 1008 := storedPointer_after (le_refl 48)
  refine ⟨fun h => ?_,(overwrites_iff _ _ _).mpr ?_,(overwrites_iff _ _ _).mpr ?_⟩
  · exact absurd ((staysInside_after_iff 48).mp h) (lt_irrefl 48)
  · rw [InCopy,hpointer,strlen_hello]
    omega
  · rw [InCopy,strlen_hello]
    decide

end SharedMemoryBounds
end Potimizer

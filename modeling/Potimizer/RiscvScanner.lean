import Potimizer.LatinScanner

/-! The vector-length-agnostic ASCII scanner: the hardware chooses the length of each register, so
the strides of the loop are a parameter that obeys the rule of `vsetvl` and nothing else. -/
namespace Potimizer
namespace RiscvScanner

open CheckedMemory LaneRegisters LoopMachine LatinScanner

/-- What `vsetvl` returns in each pass for the number of bytes left. -/
structure VectorLengths where
  vlmax : ℕ
  vsetvl : ℕ → ℕ → ℕ
  zero : ∀ pass, vsetvl pass 0 = 0
  pos : ∀ pass avl, 0 < avl → 1 ≤ vsetvl pass avl
  le : ∀ pass avl, 0 < avl → vsetvl pass avl ≤ min avl vlmax

/-- A difference of sizes. One that would wrap faults. -/
def sizeSub (len i : ℕ) : Except Fault ℕ :=
  if i ≤ len then .ok (len - i) else .error (.outOfBounds i len)

structure State where
  pass : ℕ
  i : ℕ

inductive Leave
  | returned (found : Bool)
  | tail (i : ℕ)

/-- `while ((vl = vsetvl_e8m1(len - i)) > 0)` with its body. -/
def vectorPass (lengths : VectorLengths) (data : List UInt8) (s : State) :
    Except Fault (Outcome State Leave) := do
  let avl ← sizeSub data.length s.i
  let vl := lengths.vsetvl s.pass avl
  if vl > 0 then
    let chars ← load vl data s.i
    let latinMask := set1 vl 0x80
    let result := vmseq (and chars latinMask) latinMask
    if vfirst result ≠ -1 then return .exit (.returned false)
    else return .next ⟨s.pass+1,s.i+vl⟩
  else return .exit (.tail s.i)

variable {lengths : VectorLengths} {data : List UInt8} {s t : State}

theorem VectorLengths.vsetvl_le (lengths : VectorLengths) (pass avl : ℕ) :
    lengths.vsetvl pass avl ≤ avl := by
  obtain rfl | hpos := Nat.eq_zero_or_pos avl
  · exact (lengths.zero pass).le
  · exact (lengths.le pass avl hpos).trans (Nat.min_le_left avl lengths.vlmax)

theorem vectorPass_of_lt (lengths : VectorLengths) (hi : s.i < data.length) :
    ∃ vl, 0 < vl ∧ ∃ hload : s.i+vl ≤ data.length, vectorPass lengths data s =
      if ∀ j (hj : j < vl), data[s.i+j] < 128 then .ok (.next ⟨s.pass+1,s.i+vl⟩)
      else .ok (.exit (.returned false)) := by
  have hpos : lengths.vsetvl s.pass (data.length - s.i) > 0 :=
    lengths.pos s.pass (data.length - s.i) (by omega)
  have hle := lengths.vsetvl_le s.pass (data.length - s.i)
  refine ⟨lengths.vsetvl s.pass (data.length - s.i),hpos,by omega,?_⟩
  have hload : s.i+lengths.vsetvl s.pass (data.length - s.i) ≤ data.length := by omega
  have hfirst := vfirst_high_iff (Vector.ofFn fun j : Fin (lengths.vsetvl s.pass
    (data.length - s.i)) => data[s.i+j.val])
  simp only [Vector.getElem_ofFn] at hfirst
  rw [vectorPass,sizeSub,if_pos hi.le]
  simp only [bind,Except.bind,pure,Except.pure]
  rw [if_pos hpos,load_ok hload]
  simp only [ne_eq,hfirst,ite_not]

theorem vectorPass_of_eq (hi : s.i = data.length) :
    vectorPass lengths data s = .ok (.exit (.tail s.i)) := by
  rw [vectorPass,sizeSub,if_pos hi.le,hi,Nat.sub_self]
  simp [bind,Except.bind,pure,Except.pure,lengths.zero]

theorem vectorPass_of_gt (hi : data.length < s.i) :
    vectorPass lengths data s = .error (.outOfBounds s.i data.length) := by
  rw [vectorPass,sizeSub,if_neg (by omega)]
  rfl

def vectorLoop (lengths : VectorLengths) (data : List UInt8) : Loop Fault State Leave where
  guard _ := true
  body := vectorPass lengths data
  measure s := data.length - s.i
  decreases s t _ hb := by
    obtain hlt | heq | hgt := Nat.lt_trichotomy s.i data.length
    · obtain ⟨vl,hpos,hload,hpass⟩ := vectorPass_of_lt lengths hlt
      rw [hpass] at hb
      split at hb <;> cases hb
      dsimp only
      omega
    · simp [vectorPass_of_eq heq] at hb
    · simp [vectorPass_of_gt hgt] at hb

def isLatinRISCV (lengths : VectorLengths) (data : List UInt8) : Except Fault Bool := do
  match ← (vectorLoop lengths data).run ⟨0,0⟩ with
  | .exit (.returned found) => return found
  | .exit (.tail i) | .next ⟨_,i⟩ =>
    match ← (tailLoop data).run i with
    | .exit found => return found
    | .next _ => return true

def Left (data : List UInt8) : Leave → Prop
  | .returned found => FoundHigh data found
  | .tail i => i = data.length ∧ Scanned data i

theorem vectorLoop_pass (lengths : VectorLengths) (h : Scanned data s.i) :
    (∃ t, vectorPass lengths data s = .ok (.next t) ∧ Scanned data t.i) ∨
      ∃ leave, vectorPass lengths data s = .ok (.exit leave) ∧ Left data leave := by
  obtain hlt | heq := h.index_le.lt_or_eq
  · obtain ⟨vl,-,hload,hpass⟩ := vectorPass_of_lt lengths hlt
    by_cases hlow : ∀ j (hj : j < vl), data[s.i+j] < 128
    · exact .inl ⟨_,hpass.trans (if_pos hlow),h.block hload hlow⟩
    · refine .inr ⟨_,hpass.trans (if_neg hlow),rfl,?_⟩
      simp only [not_forall,UInt8.not_lt] at hlow
      obtain ⟨j,hj,hhigh⟩ := hlow
      exact ⟨data[s.i+j],List.getElem_mem _,hhigh⟩
  · exact .inr ⟨_,vectorPass_of_eq heq,heq,h⟩

theorem scanned_of_visits (h : (vectorLoop lengths data).Visits ⟨0,0⟩ s) : Scanned data s.i := by
  refine h.invariant (I := fun s => Scanned data s.i) (fun s t hs _ hb => ?_)
    ⟨Nat.zero_le _,by simp⟩
  obtain ⟨t',ht',hnext⟩ | ⟨leave,hleave,-⟩ := vectorLoop_pass lengths hs
  · cases hb.symm.trans ht'
    exact hnext
  · cases hb.symm.trans hleave

theorem vectorLoop_run (lengths : VectorLengths) (data : List UInt8) :
    ∃ leave, (vectorLoop lengths data).run ⟨0,0⟩ = .ok (.exit leave) ∧ Left data leave := by
  obtain ⟨t,-,-,hstop⟩ | hleave := (vectorLoop lengths data).run_total
    (fun s => Scanned data s.i) (Left data) (fun s hs _ => vectorLoop_pass lengths hs) ⟨0,0⟩
    ⟨Nat.zero_le _,by simp⟩
  · cases hstop
  · exact hleave

/-- Whatever register lengths the hardware chooses, the scanner terminates with the answer of the
baseline: no head of its loop lies past the end, where the difference would wrap, no load faults,
and the loop is left for the tail only at the end. -/
theorem isLatinRISCV_eq_baseline (lengths : VectorLengths) (str : List UInt8) :
    isLatinRISCV lengths str = .ok (isLatinBaseline str) ∧
    (∀ s, (vectorLoop lengths str).Visits ⟨0,0⟩ s → s.i ≤ str.length) ∧
    (∀ i, (vectorLoop lengths str).run ⟨0,0⟩ = .ok (.exit (.tail i)) → i = str.length) := by
  obtain ⟨leave,hrun,hleft⟩ := vectorLoop_run lengths str
  refine ⟨?_,fun s hs => (scanned_of_visits hs).index_le,fun i hi => ?_⟩
  · cases leave with
    | returned found =>
      have hfound : FoundHigh str found := hleft
      simp [isLatinRISCV,hrun,bind,Except.bind,pure,Except.pure,hfound.eq_baseline]
    | tail i =>
      obtain ⟨rfl,hscanned⟩ := hleft
      have hbaseline : isLatinBaseline str = true := by
        rw [isLatinBaseline_iff]
        intro c hc
        exact hscanned.low c (by rwa [List.take_length])
      have hstop : (tailLoop str).run str.length = .ok (.next str.length) :=
        (tailLoop str).run_stop (by simp [tailLoop])
      simp [isLatinRISCV,hrun,hstop,bind,Except.bind,pure,Except.pure,hbaseline]
  · cases hrun.symm.trans hi
    exact hleft.1

end RiscvScanner
end Potimizer

import Potimizer.RunHistory
import Potimizer.ShareMemoryForCpp

/-! Completed runs of the C++ shared memory program, one after the other: while the messages fit
into the mapping they form an append-only log whose length is the pointer in the file, and the
first run that would not fit leaves the mapping. -/
namespace Potimizer
namespace SharedMemoryLog

open ShareMemoryForCpp

def sharedMemorySize : ℕ := 1024

def runMain (d : Durable) (data : CString) : Durable := (main data d).foldl Durable.perform d

def recovered (d : Durable) : Int32 := (initializeOrRecoverLogPointer d).1

def empty : Durable := ⟨none,fun _ => 0⟩

variable {d : Durable} {data : CString} {a : ℤ} {log : List UInt8}

theorem runMain_eq (d : Durable) (data : CString) : runMain d data =
    ⟨some (intBytes (recovered d + Int32.ofNat data.strlen)),
      memcpy d.sharedMemory (recovered d).toInt data⟩ := by
  obtain ⟨file,memory⟩ := d
  cases file with
  | none => rfl
  | some content => rfl

@[simp] theorem recovered_empty : recovered empty = 0 := rfl

@[simp] theorem recovered_runMain (d : Durable) (data : CString) :
    recovered (runMain d data) = recovered d + Int32.ofNat data.strlen := by
  rw [runMain_eq]
  exact readInt_whole _

@[simp] theorem runMain_sharedMemory (d : Durable) (data : CString) :
    (runMain d data).sharedMemory = memcpy d.sharedMemory (recovered d).toInt data := by
  rw [runMain_eq]

theorem toInt_add_ofNat {p : Int32} {n m : ℕ} (hp : p.toInt = n) (h : n+m ≤ sharedMemorySize) :
    (p + Int32.ofNat m).toInt = n+m := by
  unfold sharedMemorySize at h
  rw [ByteOrder.toInt_add_ofNat_of_lt (by omega) (by omega),hp]

/-- The memory begins with the log, is zero past it, and the pointer is its length. -/
structure Holds (d : Durable) (log : List UInt8) : Prop where
  pointer : (recovered d).toInt = log.length
  written : ∀ i (h : i < log.length), d.sharedMemory i = log[i]
  rest : ∀ a : ℤ, log.length ≤ a → d.sharedMemory a = 0

theorem holds_empty : Holds empty [] where
  pointer := rfl
  written := by simp
  rest _ _ := rfl

theorem memcpy_of_lt {memory : ℤ → UInt8} {offset : ℤ} (h : a < offset) :
    memcpy memory offset data a = memory a := by
  rw [memcpy,if_neg (by omega)]

theorem memcpy_of_ge {memory : ℤ → UInt8} {offset : ℤ} (h : offset + data.strlen ≤ a) :
    memcpy memory offset data a = memory a := by
  rw [memcpy,if_neg (by omega)]

theorem memcpy_at {memory : ℤ → UInt8} {offset : ℤ} {i : ℕ} (h : i < data.strlen) :
    memcpy memory offset data (offset+i) = data.bytes[i] := by
  have hi : i < data.bytes.length := h
  have hindex : (offset + (i : ℤ) - offset).toNat = i := by omega
  rw [memcpy,if_pos (by omega),hindex,List.getD_eq_getElem?_getD,List.getElem?_eq_getElem hi]
  rfl

theorem Holds.run (h : Holds d log) (hfit : log.length + data.strlen ≤ sharedMemorySize) :
    Holds (runMain d data) (log ++ data.bytes) := by
  have hlength : (log ++ data.bytes).length = log.length + data.strlen := List.length_append
  refine ⟨?_,fun i hi => ?_,fun a ha => ?_⟩
  · rw [recovered_runMain,hlength,toInt_add_ofNat h.pointer hfit]
    rfl
  · rw [runMain_sharedMemory,h.pointer]
    by_cases hlog : i < log.length
    · rw [memcpy_of_lt (by omega),List.getElem_append_left hlog]
      exact h.written i hlog
    · rw [hlength] at hi
      have hi' : (i : ℤ) = (log.length : ℤ) + ((i - log.length : ℕ) : ℤ) := by omega
      rw [List.getElem_append_right (by omega),hi',memcpy_at (by omega)]
      rfl
  · rw [hlength] at ha
    rw [runMain_sharedMemory,h.pointer,memcpy_of_ge (by omega)]
    exact h.rest a (by omega)

def logOf (messages : List CString) : List UInt8 := messages.flatMap (·.bytes)

theorem length_logOf (messages : List CString) :
    (logOf messages).length = (messages.map CString.strlen).sum := List.length_flatMap

theorem holds_throughout {messages : List CString}
    (hfit : (logOf messages).length ≤ sharedMemorySize) :
    ∀ done, done <+: messages → Holds (done.foldl runMain empty) (logOf done) := by
  have hthroughout : (∀ done, done <+: messages → Holds (done.foldl runMain empty) (logOf done)) ↔
      ∀ data ∈ messages, True := by
    apply RunHistory.log_iff (L := Holds) holds_empty _ hfit
    exact fun d log data h hfit => iff_of_true (h.run hfit) trivial
  exact hthroughout.2 fun _ _ => trivial

theorem holds_foldl {done : List CString} (hfit : (logOf done).length ≤ sharedMemorySize) :
    Holds (done.foldl runMain empty) (logOf done) :=
  holds_throughout hfit done List.prefix_rfl

/-- Messages that fit into the mapping are appended one after the other: after each run the memory
is the log so far and zero past it, and the next run recovers its length. -/
theorem runs_append (messages : List CString)
    (hfit : (messages.map CString.strlen).sum ≤ sharedMemorySize) :
    ∀ done, done <+: messages → Holds (done.foldl runMain empty) (logOf done) := by
  rw [← length_logOf] at hfit
  exact holds_throughout hfit

theorem runs_append_twice :
    ([helloSharedMemory,helloSharedMemory].map CString.strlen).sum ≤ sharedMemorySize ∧
      Holds ([helloSharedMemory,helloSharedMemory].foldl runMain empty)
        (logOf [helloSharedMemory,helloSharedMemory]) :=
  ⟨by decide,runs_append [helloSharedMemory,helloSharedMemory] (by decide) _ List.prefix_rfl⟩

end SharedMemoryLog
end Potimizer

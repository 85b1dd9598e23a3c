import Potimizer.MappedJournal
import Potimizer.SharedMemoryBounds

/-! Both shared memory programs keep their pointer in a file of the same name, one with the least
significant byte first and the other with the most significant one. A pointer that one of them has
stored is far outside the memory for the other. -/
namespace Potimizer
namespace SharedPointerFile

open ByteOrder

section Reversed

def reversed (p : Int32) : Int32 :=
  (UInt32.ofNat (value (lowBytes 4 p.toUInt32.toNat).reverse)).toInt32

variable {p : Int32} {n : ℕ}

theorem java_reads_cpp (p : Int32) :
    SharedMemoryExample.readInt (ShareMemoryForCpp.intBytes p) = .ok (reversed p) := by
  have hlength : 4 ≤ (ShareMemoryForCpp.intBytes p).length := (length_lowBytes 4 _).ge
  have htake : (ShareMemoryForCpp.intBytes p).take 4 = ShareMemoryForCpp.intBytes p :=
    List.take_of_length_le (length_lowBytes 4 _).le
  rw [SharedMemoryExample.readInt_of_le hlength,SharedMemoryExample.getInt,htake]
  rfl

/-- The two programs read a file the other way around. -/
theorem cpp_reads_java {content : List UInt8} (h : 4 ≤ content.length) :
    ShareMemoryForCpp.readInt content = reversed (SharedMemoryExample.getInt content) := by
  have hlength : (content.take 4).reverse.length = 4 := by
    rw [List.length_reverse,List.length_take_of_le h]
  have hlt : value (content.take 4).reverse < 2^32 :=
    (value_lt _).trans_eq (by rw [hlength]; norm_num)
  have hbytes : lowBytes 4 (value (content.take 4).reverse) = (content.take 4).reverse := by
    have hlow := lowBytes_value (content.take 4).reverse
    rwa [hlength] at hlow
  have hnat : (UInt32.ofNat (value (content.take 4).reverse)).toNat =
      value (content.take 4).reverse := UInt32.toNat_ofNat_of_lt hlt
  rw [reversed,SharedMemoryExample.getInt,UInt32.toUInt32_toInt32,hnat,hbytes,List.reverse_reverse,
    ShareMemoryForCpp.readInt]

theorem reversed_far (hp : p.toInt = n) (hpos : 0 < n) (hn : n ≤ 1024) :
    (reversed p).toInt ≤ -65536 ∨ 65536 ≤ (reversed p).toInt := by
  rw [reversed,toUInt32_toNat hp,value_reverse_lowBytes (by omega),toInt_toInt32_ofNat (by omega)]
  split_ifs <;> omega

end Reversed

/-- The pointer file, the shared memory object of the C++ program and the memory file of the Java
program. -/
structure World where
  logPointerFile : Option (List UInt8)
  sharedMemory : ℤ → UInt8
  memoryFile : Option (List UInt8)

namespace World

def durable (w : World) : ShareMemoryForCpp.Durable := ⟨w.logPointerFile,w.sharedMemory⟩

def files (w : World) : SharedMemoryExample.Files := ⟨w.memoryFile,w.logPointerFile⟩

end World

inductive Run
  | cpp (data : ShareMemoryForCpp.CString)
  | java (data : SharedMemoryExample.JavaString)

def World.run (w : World) : Run → World
  | .cpp data =>
    let left := SharedMemoryLog.runMain w.durable data
    ⟨left.logPointerFile,left.sharedMemory,w.memoryFile⟩
  | .java data =>
    let left := MappedLog.run w.files data
    ⟨left.logPointerFile,w.sharedMemory,left.memoryFile⟩

theorem run_java (w : World) (data : SharedMemoryExample.JavaString) : w.run (.java data) =
    ⟨(MappedLog.run w.files data).logPointerFile,w.sharedMemory,
      (MappedLog.run w.files data).memoryFile⟩ := rfl

def absent : World := ⟨none,fun _ => 0,none⟩

def Run.cppBytes : Run → List UInt8
  | .cpp data => data.bytes
  | .java _ => []

variable {w : World} {log : List UInt8} {p : Int32}

/-- The C++ program has stored its pointer, its log holds, and the memory file is empty or zero. -/
structure HeldByCpp (w : World) (log : List UInt8) : Prop where
  pointer : ∃ p, w.logPointerFile = some (ShareMemoryForCpp.intBytes p) ∧ p.toInt = log.length
  holds : SharedMemoryLog.Holds w.durable log
  untouched : ∀ b ∈ w.memoryFile.getD [], b = 0
  fits : 0 < log.length ∧ log.length ≤ SharedMemoryLog.sharedMemorySize

theorem HeldByCpp.main (h : HeldByCpp w log) (data : SharedMemoryExample.JavaString) :
    SharedMemoryExample.main data w.files =
      (.error .illegalArgument,SharedMemoryExample.mapSharedMemory w.files) := by
  obtain ⟨p,hfile,hp⟩ := h.pointer
  have hfar := reversed_far hp h.fits.1 h.fits.2
  have hrecover : SharedMemoryExample.initializeOrRecoverLogPointer w.files = .ok (reversed p) := by
    rw [← java_reads_cpp]
    exact MappedRecovery.recover_of_some hfile
  have hposition : SharedMemoryExample.position (reversed p) = .error .illegalArgument := by
    refine if_neg fun hinside => ?_
    unfold SharedMemoryExample.memorySize at hinside
    omega
  unfold SharedMemoryExample.main SharedMemoryExample.copy
  rw [hrecover]
  simp only [hposition,bind,Except.bind]

theorem HeldByCpp.java (h : HeldByCpp w log) (data : SharedMemoryExample.JavaString) :
    HeldByCpp (w.run (.java data)) log := by
  have hrun : w.run (.java data) = ⟨w.logPointerFile,w.sharedMemory,
      (SharedMemoryExample.mapSharedMemory w.files).memoryFile⟩ := by
    have hleft : MappedLog.run w.files data = SharedMemoryExample.mapSharedMemory w.files :=
      congrArg Prod.snd (h.main data)
    rw [run_java,hleft]
    rfl
  rw [hrun]
  refine ⟨h.pointer,h.holds,fun b hb => ?_,h.fits⟩
  obtain hb | hb := List.mem_append.mp hb
  · exact h.untouched b hb
  · exact List.eq_of_mem_replicate hb

theorem HeldByCpp.cpp (h : HeldByCpp w log) (data : ShareMemoryForCpp.CString)
    (hfit : log.length+data.strlen ≤ SharedMemoryLog.sharedMemorySize) :
    HeldByCpp (w.run (.cpp data)) (log ++ data.bytes) := by
  have hlength : (log ++ data.bytes).length = log.length+data.strlen := List.length_append
  have hholds := h.holds.run hfit
  have hpos := h.fits.1
  refine ⟨⟨_,congrArg ShareMemoryForCpp.Durable.logPointerFile
    (SharedMemoryLog.runMain_eq w.durable data),?_⟩,hholds,h.untouched,by omega,by omega⟩
  have hpointer := hholds.pointer
  rwa [SharedMemoryLog.recovered_runMain] at hpointer

theorem heldByCpp_first (data : ShareMemoryForCpp.CString) (hpos : 0 < data.strlen)
    (hfit : data.strlen ≤ SharedMemoryLog.sharedMemorySize) :
    HeldByCpp (absent.run (.cpp data)) data.bytes := by
  have hholds : SharedMemoryLog.Holds (SharedMemoryLog.runMain SharedMemoryLog.empty data) data.bytes :=
    SharedMemoryLog.holds_empty.run ((Nat.zero_add _).trans_le hfit)
  refine ⟨⟨_,congrArg ShareMemoryForCpp.Durable.logPointerFile
    (SharedMemoryLog.runMain_eq SharedMemoryLog.empty data),?_⟩,hholds,by simp [World.run,absent],
    hpos,hfit⟩
  have hpointer := hholds.pointer
  rwa [SharedMemoryLog.recovered_runMain] at hpointer

theorem HeldByCpp.runs {runs : List Run} (h : HeldByCpp w log)
    (hfit : log.length+(runs.flatMap Run.cppBytes).length ≤ SharedMemoryLog.sharedMemorySize) :
    HeldByCpp (runs.foldl World.run w) (log ++ runs.flatMap Run.cppBytes) := by
  induction runs generalizing w log with
  | nil => simpa using h
  | cons r runs ih =>
    rw [List.flatMap_cons,List.length_append] at hfit
    rw [List.flatMap_cons,← List.append_assoc]
    cases r with
    | cpp data =>
      change log.length+(data.strlen+_) ≤ _ at hfit
      have hlength : (log ++ data.bytes).length = log.length+data.strlen := List.length_append
      exact ih (h.cpp data (by omega)) (by rw [Run.cppBytes,hlength]; omega)
    | java data => simpa [Run.cppBytes] using ih (h.java data) (by simpa [Run.cppBytes] using hfit)

/-- Once the C++ program has stored a message, the Java program is locked out: whatever runs of the
two follow, in any order, as long as the messages of the C++ program fit, each run of the Java
program throws, its memory stays zero, and the log of the C++ program is what it would be alone. -/
theorem java_locked_out (first : ShareMemoryForCpp.CString) (runs : List Run)
    (hfirst : 0 < first.strlen) (hfit : first.strlen+(runs.flatMap Run.cppBytes).length ≤
      SharedMemoryLog.sharedMemorySize) :
    SharedMemoryLog.Holds ((Run.cpp first :: runs).foldl World.run absent).durable
        (first.bytes ++ runs.flatMap Run.cppBytes) ∧
      (∀ b ∈ ((Run.cpp first :: runs).foldl World.run absent).memoryFile.getD [], b = 0) ∧
      ∀ data, (SharedMemoryExample.main data
        ((Run.cpp first :: runs).foldl World.run absent).files).1 = .error .illegalArgument := by
  have hheld := (heldByCpp_first first hfirst (by omega)).runs hfit
  exact ⟨hheld.holds,hheld.untouched,fun data => congrArg Prod.fst (hheld.main data)⟩

/-- The sample messages of the two programs, in turns. -/
theorem java_locked_out_hello : (SharedMemoryExample.main SharedMemoryExample.helloSharedMemory
    ([Run.cpp ShareMemoryForCpp.helloSharedMemory,.java SharedMemoryExample.helloSharedMemory,
      .cpp ShareMemoryForCpp.helloSharedMemory].foldl World.run absent).files).1 =
        .error .illegalArgument := by
  have h := java_locked_out ShareMemoryForCpp.helloSharedMemory
    [.java SharedMemoryExample.helloSharedMemory,.cpp ShareMemoryForCpp.helloSharedMemory]
    (by decide) (by decide)
  exact h.2.2 SharedMemoryExample.helloSharedMemory

theorem recovers_reversed (h : MappedLog.Holds w.files log) (hpos : 0 < log.length) :
    ∃ p : Int32, p.toInt = log.length ∧
      (ShareMemoryForCpp.initializeOrRecoverLogPointer w.durable).1 = reversed p := by
  obtain ⟨p,hrecover,hp⟩ := h.pointer
  refine ⟨p,hp,?_⟩
  obtain ⟨file,memory,memoryFile⟩ := w
  cases file with
  | none =>
    obtain rfl : 0 = p := Except.ok.inj hrecover
    have hzero : log.length = 0 := by simpa using hp.symm
    omega
  | some content =>
    change SharedMemoryExample.readInt content = .ok p at hrecover
    unfold SharedMemoryExample.readInt at hrecover
    split_ifs at hrecover with hle
    obtain rfl := Except.ok.inj hrecover
    exact cpp_reads_java hle

theorem files_runs (messages : List SharedMemoryExample.JavaString) (w : World) :
    ((messages.map Run.java).foldl World.run w).files = messages.foldl MappedLog.run w.files := by
  induction messages generalizing w with
  | nil => rfl
  | cons data messages ih => exact ih (w.run (.java data))

/-- Once the Java program has stored a message, the next run of the C++ program takes the length of its
log with the bytes reversed for the pointer and copies its own message there, wholly outside its
mapping. -/
theorem cpp_misled (messages : List SharedMemoryExample.JavaString)
    (hsingle : ∀ data ∈ messages, MappedLog.SingleByte data)
    (hsome : (MappedJournal.logAfter messages).content ≠ []) (data : ShareMemoryForCpp.CString)
    (hdata : data.strlen ≤ SharedMemoryLog.sharedMemorySize) :
    ∃ p : Int32, p.toInt = (MappedJournal.logAfter messages).content.length ∧
      .copy (reversed p) data ∈
        ShareMemoryForCpp.main data ((messages.map Run.java).foldl World.run absent).durable ∧
      ∀ e ∈ ShareMemoryForCpp.main data ((messages.map Run.java).foldl World.run absent).durable,
        ∀ a, e.Overwrites a → ¬ SharedMemoryBounds.Mapped a := by
  have hholds : MappedLog.Holds ((messages.map Run.java).foldl World.run absent).files
      (MappedJournal.logAfter messages).content := by
    rw [files_runs]
    exact MappedJournal.holds_logAfter hsingle
  have hpos := List.length_pos_iff.mpr hsome
  obtain ⟨p,hp,hread⟩ := recovers_reversed hholds hpos
  have hfar := reversed_far hp hpos (MappedJournal.logAfter messages).fits
  refine ⟨p,hp,?_,fun e he a ha => ?_⟩
  · simp [ShareMemoryForCpp.main,hread]
  · have hcopy := (SharedMemoryBounds.overwrites_iff data
      ((messages.map Run.java).foldl World.run absent).durable a).1 ⟨e,he,ha⟩
    rw [SharedMemoryBounds.InCopy,← SharedMemoryBounds.recovered_toInt,SharedMemoryLog.recovered,
      hread] at hcopy
    unfold SharedMemoryBounds.Mapped SharedMemoryLog.sharedMemorySize
    unfold SharedMemoryLog.sharedMemorySize at hdata
    omega

/-- The Java program has stored 21, which the C++ program reads as 21*2^24. -/
theorem cpp_misled_hello : .copy 352321536 ShareMemoryForCpp.helloSharedMemory ∈
      ShareMemoryForCpp.main ShareMemoryForCpp.helloSharedMemory
        (([SharedMemoryExample.helloSharedMemory].map Run.java).foldl World.run absent).durable ∧
    ¬ SharedMemoryBounds.Mapped 352321536 := by
  obtain ⟨p,hp,hcopied,houtside⟩ := cpp_misled [SharedMemoryExample.helloSharedMemory] (by decide)
    (by decide) ShareMemoryForCpp.helloSharedMemory (by decide)
  have hlength : (MappedJournal.logAfter [SharedMemoryExample.helloSharedMemory]).content.length = 21 := by
    decide
  rw [hlength] at hp
  obtain rfl : p = 21 := Int32.toInt_inj.mp hp
  have hreversed : reversed 21 = 352321536 := by decide
  rw [hreversed] at hcopied
  exact ⟨hcopied,houtside _ hcopied _ ⟨by decide,by decide⟩⟩

end SharedPointerFile
end Potimizer

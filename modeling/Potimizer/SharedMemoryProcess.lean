import Potimizer.SharedMemoryBounds

/-! The C++ shared memory program as a process: `shm_open`, `ftruncate`, `mmap` and `munmap` may fail,
it ends with an exit code, and it prints the string at the start of the mapping. The accesses to the
pointer file, whose result the program does not check, succeed. -/
namespace Potimizer
namespace SharedMemoryProcess

open ShareMemoryForCpp SharedMemoryBounds SharedMemoryLog

/-- The system calls whose result `main` checks, in their order. -/
inductive Call
  | shmOpen
  | ftruncate
  | mmap
  | munmap
  deriving DecidableEq

/-- What `main` writes to `std::cerr` when the call fails. -/
def Call.error : Call → String
  | .shmOpen => "Error opening shared memory object."
  | .ftruncate => "Error setting size of shared memory object."
  | .mmap => "Error mapping shared memory object."
  | .munmap => "Error unmapping shared memory object."

/-- How a process ends: its exit code, the error it reported, and what it did to what outlives
it. -/
structure Outcome where
  exitCode : ℕ
  error : Option String
  effects : List Effect

def Outcome.failed (call : Call) (effects : List Effect) : Outcome := ⟨1,some call.error,effects⟩

/-- A run with a message in which the given calls fail. -/
structure Process where
  data : CString
  fails : Call → Bool

def Process.main (p : Process) (d : Durable) : Outcome :=
  let (logPointer,created) := initializeOrRecoverLogPointer d
  if p.fails .shmOpen then .failed .shmOpen created
  else if p.fails .ftruncate then .failed .ftruncate created
  else if p.fails .mmap then .failed .mmap created
  else
    let effects := created ++ .copy logPointer p.data ::
      updateLogPointer (logPointer + Int32.ofNat p.data.strlen)
    if p.fails .munmap then .failed .munmap effects else ⟨0,none,effects⟩

def Process.mapped (p : Process) : Bool := !(p.fails .shmOpen || p.fails .ftruncate || p.fails .mmap)

def Process.run (d : Durable) (p : Process) : Durable := (p.main d).effects.foldl Durable.perform d

def Process.bytes (p : Process) : List UInt8 := if p.mapped then p.data.bytes else []

variable {d : Durable} {p : Process} {log : List UInt8}

/-- The exit code is 0 exactly if no call fails, and otherwise an error is reported. -/
theorem main_exitCode (p : Process) (d : Durable) :
    ((p.main d).exitCode = 0 ↔ ∀ call, p.fails call = false) ∧
      ((p.main d).error = none ↔ (p.main d).exitCode = 0) := by
  have hcalls : (∀ call, p.fails call = false) ↔ p.fails .shmOpen = false ∧
      p.fails .ftruncate = false ∧ p.fails .mmap = false ∧ p.fails .munmap = false := by
    constructor
    · exact fun h => ⟨h _,h _,h _,h _⟩
    · rintro ⟨hopen,htruncate,hmap,hunmap⟩ (_|_|_|_) <;> assumption
  rw [hcalls]
  unfold Process.main Outcome.failed
  cases p.fails .shmOpen <;> cases p.fails .ftruncate <;> cases p.fails .mmap <;>
    cases p.fails .munmap <;> simp

theorem run_of_mapped (h : p.mapped = true) (d : Durable) : Process.run d p = runMain d p.data := by
  obtain ⟨hopen,htruncate,hmap⟩ : p.fails .shmOpen = false ∧ p.fails .ftruncate = false ∧
      p.fails .mmap = false := by simpa [Process.mapped,and_assoc] using h
  unfold Process.run Process.main runMain ShareMemoryForCpp.main
  simp only [hopen,htruncate,hmap]
  cases p.fails .munmap <;> rfl

theorem run_of_unmapped (h : p.mapped = false) (d : Durable) :
    Process.run d p = (initializeOrRecoverLogPointer d).2.foldl Durable.perform d := by
  unfold Process.mapped at h
  unfold Process.run Process.main
  cases hopen : p.fails .shmOpen
  · cases htruncate : p.fails .ftruncate
    · cases hmap : p.fails .mmap
      · simp [hopen,htruncate,hmap] at h
      · simp [Outcome.failed]
    · simp [Outcome.failed]
  · simp [Outcome.failed]

theorem holds_unmapped (h : Holds d log) (hp : p.mapped = false) : Holds (Process.run d p) log := by
  obtain ⟨file,memory⟩ := d
  rw [run_of_unmapped hp]
  cases file with
  | none => exact ⟨h.pointer,h.written,h.rest⟩
  | some content => exact h

theorem holds_process (h : Holds d log) (hfit : log.length + p.bytes.length ≤ sharedMemorySize) :
    Holds (Process.run d p) (log ++ p.bytes) := by
  unfold Process.bytes at hfit ⊢
  cases hmapped : p.mapped with
  | true =>
    rw [hmapped] at hfit
    rw [run_of_mapped hmapped]
    exact h.run hfit
  | false => simpa using holds_unmapped h hmapped

/-- The string that `std::cout` prints from the start of the mapping, if it ends in the mapping. -/
def stringAtStart (memory : ℤ → UInt8) : Option (List UInt8) :=
  let bytes := (List.range sharedMemorySize).map fun (i : ℕ) => memory i
  if 0 ∈ bytes then some (bytes.takeWhile (· ≠ 0)) else none

theorem mapping_eq (h : Holds d log) (hfit : log.length ≤ sharedMemorySize) :
    ((List.range sharedMemorySize).map fun (i : ℕ) => d.sharedMemory i) =
      log ++ List.replicate (sharedMemorySize-log.length) 0 := by
  refine List.ext_getElem (by simp; omega) fun i hi _ => ?_
  rw [List.getElem_map,List.getElem_range,List.getElem_append]
  split_ifs with hlog
  · exact h.written i hlog
  · rw [List.getElem_replicate]
    exact h.rest i (by omega)

theorem stringAtStart_of_holds (h : Holds d log) (hfit : log.length ≤ sharedMemorySize)
    (hnul : 0 ∉ log) : stringAtStart d.sharedMemory =
      if log.length < sharedMemorySize then some log else none := by
  unfold stringAtStart
  simp only [mapping_eq h hfit]
  split_ifs with hzero hlt hlt
  · obtain ⟨n,hn⟩ : ∃ n, sharedMemorySize-log.length = n+1 := ⟨_,(Nat.succ_pred (by omega)).symm⟩
    have hall : ∀ b ∈ log, (b ≠ 0) := fun b hb hb0 => hnul (hb0 ▸ hb)
    rw [hn,List.replicate_succ,List.takeWhile_append_of_pos (by simpa using hall)]
    simp
  · have hnone : sharedMemorySize-log.length = 0 := by omega
    simp [hnone,hnul] at hzero
  · have hsome : sharedMemorySize-log.length ≠ 0 := by omega
    simp [hsome] at hzero
  · rfl

theorem nul_notMem_bytes (processes : List Process) : 0 ∉ processes.flatMap Process.bytes := by
  intro hzero
  obtain ⟨p,-,hp⟩ := List.mem_flatMap.mp hzero
  unfold Process.bytes at hp
  split_ifs at hp
  · exact p.data.noNul hp
  · simp at hp

/-- Whichever of the four calls fail, a run appends its message exactly if it got its mapping, so that
the runs that did form one log; and a run prints the whole log so far, not its own message, until the
log fills the mapping and the string has no end in it. -/
theorem processes_append (processes : List Process)
    (hfit : (processes.flatMap Process.bytes).length ≤ sharedMemorySize) :
    ∀ done, done <+: processes →
      Holds (done.foldl Process.run empty) (done.flatMap Process.bytes) ∧
        stringAtStart (done.foldl Process.run empty).sharedMemory =
          if (done.flatMap Process.bytes).length < sharedMemorySize
          then some (done.flatMap Process.bytes) else none := by
  have hlog : (∀ done, done <+: processes →
      Holds (done.foldl Process.run empty) (done.flatMap Process.bytes)) ↔
        ∀ p ∈ processes, True := by
    apply RunHistory.log_iff (L := Holds) holds_empty _ hfit
    exact fun d log p h hfit => iff_of_true (holds_process h hfit) trivial
  intro done hpre
  have hholds := hlog.2 (fun _ _ => trivial) done hpre
  obtain ⟨rest,rfl⟩ := hpre
  rw [List.flatMap_append,List.length_append] at hfit
  exact ⟨hholds,stringAtStart_of_holds hholds (by omega) (nul_notMem_bytes done)⟩

def sampleProcesses : List Process :=
  [⟨helloSharedMemory,fun call => call = .mmap⟩,⟨helloSharedMemory,fun call => call = .munmap⟩,
    ⟨helloSharedMemory,fun _ => false⟩]

theorem processes_append_sample :
    stringAtStart (sampleProcesses.foldl Process.run empty).sharedMemory =
      some (helloSharedMemory.bytes ++ helloSharedMemory.bytes) := by
  obtain ⟨-,hprints⟩ := processes_append sampleProcesses (by decide) _ List.prefix_rfl
  rw [hprints]
  decide

end SharedMemoryProcess
end Potimizer

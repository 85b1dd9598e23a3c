import Potimizer.SharedMemoryExample
import Potimizer.SharedMemoryLog
import Potimizer.StoredPointerLog

/-! Several processes of the C++ program, or of the Java program, on one pointer file and one
memory. Nothing in either program excludes the others, so that they append to the log exactly when
they happen to run one after the other. -/
namespace Potimizer
namespace ConcurrentLog

open StepMachine StoredPointerLog

theorem toInt_advance {p : Int32} {n : ℕ} (hp : 0 ≤ p.toInt)
    (h : p.toInt + n ≤ SharedMemoryLog.sharedMemorySize) :
    (p + Int32.ofNat n).toInt = p.toInt + n := by
  unfold SharedMemoryLog.sharedMemorySize at h
  exact ByteOrder.toInt_add_ofNat_of_lt hp (by omega)

section Cpp

open ShareMemoryForCpp SharedMemoryLog

def cppProgram : Program Durable Int32 CString where
  recover d :=
    let result := initializeOrRecoverLogPointer d
    (some result.1,result.2.foldl Durable.perform d)
  copy logPointer data d := (true,d.perform (.copy logPointer data))
  advance logPointer data d := (logPointer + Int32.ofNat data.strlen,d)
  store logPointer d := (updateLogPointer logPointer).foldl Durable.perform d

def cppView : View Durable Int32 CString UInt8 where
  pointer d := some (recovered d)
  offset := Int32.toInt
  memory := Durable.sharedMemory
  bytes := CString.bytes
  limit := sharedMemorySize

/-- A process alone does what a run of the program does. -/
theorem cppProgram_alone (data : CString) (d : Durable) : cppProgram.alone data d = runMain d data := by
  obtain ⟨file,memory⟩ := d
  cases file <;> rfl

theorem cppProgram_appends : Appends cppProgram cppView fun _ => True where
  recover _ := rfl
  recover_pointer d := by
    obtain ⟨file,memory⟩ := d
    cases file <;> rfl
  recover_memory d := by
    obtain ⟨file,memory⟩ := d
    cases file <;> rfl
  copy _ _ _ := rfl
  copy_written _ _ _ _ hi := memcpy_at hi
  copy_frame _ _ _ a ha := by
    obtain ha | ha := ha
    · exact memcpy_of_lt ha
    · exact memcpy_of_ge ha
  copy_pointer _ _ _ := rfl
  advance _ _ hfits _ := toInt_advance hfits.1 hfits.2
  advance_pointer _ h := h
  advance_memory _ := rfl
  store d := congrArg some (readInt_whole _)
  store_memory _ := rfl

end Cpp

section Java

open SharedMemoryExample

def javaProgram : Program Files Int32 JavaString where
  recover files := (initializeOrRecoverLogPointer files |>.toOption,files)
  copy logPointer data files :=
    match copy logPointer data (mapSharedMemory files) with
    | .ok copied => (true,copied)
    | .error _ => (false,mapSharedMemory files)
  advance _ data files := (nextPointer (lengthInt data) (mapLogPointer files),mapLogPointer files)
  store := storePointer

def javaView : View Files Int32 JavaString UInt8 where
  pointer files := (initializeOrRecoverLogPointer files).toOption
  offset := Int32.toInt
  memory files := byteAt (files.memoryFile.getD [])
  bytes := getBytes
  limit := memorySize

/-- A process alone does what a run of the program does to the files. -/
theorem javaProgram_alone (data : JavaString) (files : Files) :
    javaProgram.alone data files = (main data files).2 := by
  cases hrecover : initializeOrRecoverLogPointer files with
  | error e => simp [Program.alone,main,javaProgram,hrecover,Except.toOption]
  | ok logPointer =>
    cases hcopy : copy logPointer data (mapSharedMemory files) with
    | error e => simp [Program.alone,main,javaProgram,hrecover,hcopy,Except.toOption]
    | ok copied =>
      simp [Program.alone,main,javaProgram,hrecover,hcopy,Except.toOption,updateLogPointer]

variable {files : Files} {data : JavaString} {p : Int32}

theorem recovered_eq (h : javaView.pointer files = some p) :
    initializeOrRecoverLogPointer files = .ok p := by
  change (initializeOrRecoverLogPointer files).toOption = some p at h
  cases hrecover : initializeOrRecoverLogPointer files with
  | error e => simp [hrecover,Except.toOption] at h
  | ok n =>
    rw [hrecover] at h
    rw [Option.some.inj h]

def mapped (files : Files) : List UInt8 := extend memorySize (files.memoryFile.getD [])

theorem copy_eq (hfits : javaView.Fits p data) : javaProgram.copy p data files =
    (true,⟨some (written (mapped files) p.toInt.toNat (getBytes data)),files.logPointerFile⟩) := by
  have hcopy : copy p data (mapSharedMemory files) =
      .ok ⟨some (written (mapped files) p.toInt.toNat (getBytes data)),files.logPointerFile⟩ :=
    copy_of_le hfits.1 hfits.2 (mapSharedMemory files)
  simp [javaProgram,hcopy]

theorem mapped_length (hfits : javaView.Fits p data) : p.toInt.toNat ≤ (mapped files).length := by
  have hlength := length_extend memorySize (files.memoryFile.getD [])
  obtain ⟨hnonneg,hlimit⟩ := hfits
  change 0 ≤ p.toInt at hnonneg
  change p.toInt + (getBytes data).length ≤ memorySize at hlimit
  unfold mapped
  omega

theorem javaProgram_appends :
    Appends javaProgram javaView fun data => (getBytes data).length = data.length where
  recover _ := rfl
  recover_pointer _ := rfl
  recover_memory _ := rfl
  copy _ _ hfits := by rw [copy_eq hfits]
  copy_written {p data} files _ hfits i hi := by
    rw [copy_eq hfits]
    have hp : p.toInt = (p.toInt.toNat : ℤ) := (Int.toNat_of_nonneg hfits.1).symm
    change byteAt (written (mapped files) p.toInt.toNat (getBytes data)) (p.toInt + i) = _
    rw [hp]
    exact byteAt_written (mapped_length hfits) hi
  copy_frame {p data} files _ hfits a ha := by
    rw [copy_eq hfits]
    change byteAt (written (mapped files) p.toInt.toNat (getBytes data)) a =
      byteAt (files.memoryFile.getD []) a
    change a < p.toInt ∨ p.toInt + (getBytes data).length ≤ a at ha
    have hp : (p.toInt.toNat : ℤ) = p.toInt := Int.toNat_of_nonneg hfits.1
    rw [← byteAt_extend memorySize (files.memoryFile.getD [])]
    obtain ha | ha := ha
    · exact byteAt_written_of_lt (mapped_length hfits) (by omega)
    · exact byteAt_written_of_ge (mapped_length hfits) (by omega)
  copy_pointer files _ hfits := by
    rw [copy_eq hfits]
    rfl
  advance {p data} files hsingle hfits hp := by
    obtain ⟨hfile,hint⟩ := initializeOrRecoverLogPointer_mapLogPointer (recovered_eq hp)
    change (nextPointer (lengthInt data) (mapLogPointer files)).toInt =
      p.toInt + (getBytes data).length
    rw [nextPointer,hfile,Option.getD_some,hint,hsingle]
    exact toInt_advance hfits.1 (hsingle ▸ hfits.2)
  advance_pointer {p data} files hp := by
    obtain ⟨hfile,hint⟩ := initializeOrRecoverLogPointer_mapLogPointer (recovered_eq hp)
    change (initializeOrRecoverLogPointer (mapLogPointer files)).toOption = some p
    rw [initializeOrRecoverLogPointer,hfile]
    simp only [readInt_of_le (length_extend 4 _),hint]
    rfl
  advance_memory _ := rfl
  store {p} files := by
    change (readInt (putInt (files.logPointerFile.getD []) p)).toOption = some p
    rw [readInt_putInt]
    rfl
  store_memory _ := rfl

end Java

section Processes

open ShareMemoryForCpp SharedMemoryLog SharedMemoryExample

/-- Any number of processes of one of the programs, with messages that fit into the memory from the
stored pointer on, and any order of their steps: when all have ended, the messages are in disjoint
ranges and the pointer has moved by their length if no process recovered the pointer while another
was between its recovery and its store, and, when no message is empty, only then. A Java message has
to have as many bytes as 16-bit units. -/
theorem concurrent_runs_append :
    (∀ (P : Type) [Fintype P] [DecidableEq P] (message : P → CString) (start : Durable) (p₀ : Int32)
      (schedule : List P) (s : State Durable Int32 P), cppView.pointer start = some p₀ →
        Room cppView message p₀ → Runs cppProgram message start (fun _ _ => True) schedule s →
        Ended s →
          (Runs cppProgram message start Serial schedule s → Appended cppView message p₀ s) ∧
          ((∀ i, 0 < (message i).strlen) → Appended cppView message p₀ s →
            Runs cppProgram message start Serial schedule s)) ∧
    ∀ (P : Type) [Fintype P] [DecidableEq P] (message : P → JavaString) (start : Files) (p₀ : Int32)
      (schedule : List P) (s : State Files Int32 P),
        (∀ i, (getBytes (message i)).length = (message i).length) →
        javaView.pointer start = some p₀ → Room javaView message p₀ →
        Runs javaProgram message start (fun _ _ => True) schedule s → Ended s →
          (Runs javaProgram message start Serial schedule s → Appended javaView message p₀ s) ∧
          ((∀ i, 0 < (message i).length) → Appended javaView message p₀ s →
            Runs javaProgram message start Serial schedule s) := by
  refine ⟨fun P _ _ message start p₀ schedule s hstart hroom h hended => ?_,
    fun P _ _ message start p₀ schedule s hsingle hstart hroom h hended => ?_⟩
  · exact appended_iff_serial cppProgram_appends (fun _ => trivial) hroom hstart h hended
  · obtain ⟨happended,hserial⟩ :=
      appended_iff_serial javaProgram_appends hsingle hroom hstart h hended
    exact ⟨happended,fun hpos => hserial fun i => (hpos i).trans_eq (hsingle i).symm⟩

def noFiles : Files := ⟨none,none⟩

/-- Both processes recover the pointer before either stores it. -/
def race : List Bool := [false,true,false,true,false,true,false,true]

def oneByOne : List Bool := [false,false,false,false,true,true,true,true]

theorem ended_of_phases {σ : Type} {s : State σ Int32 Bool} {x y : Phase Int32}
    (h : (s.phase false,s.phase true) = (x,y)) (hx : x.ended = true) (hy : y.ended = true) :
    Ended s := by
  obtain ⟨rfl,rfl⟩ := Prod.mk.inj h
  exact Bool.forall_bool.mpr ⟨hx,hy⟩

/-- Two processes append one after the other, and do not append in a race. -/
theorem concurrent_runs_append_one_by_one :
    (∃ s, Runs cppProgram (fun _ : Bool => ShareMemoryForCpp.helloSharedMemory) empty Serial oneByOne
        s ∧ Appended cppView (fun _ => ShareMemoryForCpp.helloSharedMemory) 0 s) ∧
    ∃ s, Runs javaProgram (fun _ : Bool => SharedMemoryExample.helloSharedMemory) noFiles
        (fun _ _ => True) race s ∧
      ¬ Appended javaView (fun _ => SharedMemoryExample.helloSharedMemory) 0 s := by
  constructor
  · have hexec : ((machine cppProgram (fun _ : Bool => ShareMemoryForCpp.helloSharedMemory)
        empty).exec Serial ⟨empty,fun _ => .start⟩ oneByOne).map
          (fun s => (s.phase false,s.phase true)) = some (.finished 0,.finished 21) := by decide
    obtain ⟨s,hs,hobserve⟩ := Option.map_eq_some_iff.mp hexec
    have hroom : Room cppView (fun _ : Bool => ShareMemoryForCpp.helloSharedMemory) 0 := by
      unfold Room
      decide
    have hrun : Runs cppProgram (fun _ : Bool => ShareMemoryForCpp.helloSharedMemory) empty
        (fun _ _ => True) oneByOne s := Machine.exec_mono (fun _ _ _ => trivial) hs
    exact ⟨s,hs,(concurrent_runs_append.1 Bool _ empty 0 oneByOne s rfl hroom hrun
      (ended_of_phases hobserve rfl rfl)).1 hs⟩
  · have hexec : ((machine javaProgram (fun _ : Bool => SharedMemoryExample.helloSharedMemory)
        noFiles).exec (fun _ _ => True) ⟨noFiles,fun _ => .start⟩ race).map
          (fun s => (s.phase false,s.phase true)) = some (.finished 0,.finished 0) := by decide
    have hlost : ((machine javaProgram (fun _ : Bool => SharedMemoryExample.helloSharedMemory)
        noFiles).exec Serial ⟨noFiles,fun _ => .start⟩ race).isNone := by decide
    obtain ⟨s,hs,hobserve⟩ := Option.map_eq_some_iff.mp hexec
    have hroom : Room javaView (fun _ : Bool => SharedMemoryExample.helloSharedMemory) 0 := by
      unfold Room
      decide
    refine ⟨s,hs,fun happended => ?_⟩
    have hserial := (concurrent_runs_append.2 Bool _ noFiles 0 race s (by decide) rfl hroom hs
      (ended_of_phases hobserve rfl rfl)).2 (by decide) happended
    rw [Runs] at hserial
    simp [hserial] at hlost

/-- A run of two processes that all end, and that has not appended their messages. -/
def Loses {σ μ : Type} (program : Program σ Int32 μ) (view : View σ Int32 μ UInt8) (m : μ)
    (start : σ) (p₀ : Int32) (ok : State σ Int32 Bool → Bool → Prop) : Prop :=
  ∃ s, (machine program (fun _ => m) start).Reachable ok s ∧ Ended s ∧
    ¬ Appended view (fun _ => m) p₀ s

theorem loses_of_exec {σ μ : Type} {program : Program σ Int32 μ} {view : View σ Int32 μ UInt8}
    {m : μ} {start : σ} {p₀ p q : Int32} {ok : State σ Int32 Bool → Bool → Prop}
    [∀ s i, Decidable (ok s i)] (actions : List Bool)
    (hexec : ((machine program (fun _ => m) start).exec ok ⟨start,fun _ => .start⟩ actions).map
      (fun s => (s.phase false,s.phase true)) = some (.finished p,.finished q))
    (happart : view.Fits p m → view.Fits q m → ¬ view.Apart p m q m) :
    Loses program view m start p₀ ok := by
  obtain ⟨s,hs,hobserve⟩ := Machine.exists_reachable _ _ hexec
  obtain ⟨hfalse,htrue⟩ := Prod.mk.inj hobserve
  refine ⟨s,hs,ended_of_phases hobserve rfl rfl,?_⟩
  rintro ⟨place,hplace,hin,hdisjoint,-⟩
  obtain rfl := Phase.finished.inj ((hplace false).symm.trans hfalse)
  obtain rfl := Phase.finished.inj ((hplace true).symm.trans htrue)
  exact happart (hin false).1 (hin true).1 (hdisjoint false true (by decide))

def eAcute : JavaString := [0x00E9]

def lateFiles : Files := ⟨none,some (SharedMemoryExample.intBytes 1010)⟩

/-- Two processes of either program that both recover the pointer first write to one range. Also one
after the other they do not append where a message does not fit at the stored pointer (the C++ copy
leaves the memory, the Java copy throws), and where a Java message has more bytes than units. -/
theorem concurrent_runs_lose :
    Loses cppProgram cppView ShareMemoryForCpp.helloSharedMemory empty 0 (fun _ _ => True) ∧
      Loses javaProgram javaView SharedMemoryExample.helloSharedMemory noFiles 0
        (fun _ _ => True) ∧
      Loses cppProgram cppView ShareMemoryForCpp.helloSharedMemory
        ⟨some (ShareMemoryForCpp.intBytes 1010),fun _ => 0⟩ 1010 Serial ∧
      Loses javaProgram javaView SharedMemoryExample.helloSharedMemory lateFiles 1010 Serial ∧
      Loses javaProgram javaView eAcute noFiles 0 Serial := by
  refine ⟨?_,?_,?_,?_,?_⟩
  · exact loses_of_exec (p := 0) (q := 0) race (by decide) (by decide)
  · exact loses_of_exec (p := 0) (q := 0) race (by decide) (by decide)
  · exact loses_of_exec (p := 1010) (q := 1031) oneByOne (by decide) (by decide)
  · have hexec : ((machine javaProgram (fun _ : Bool => SharedMemoryExample.helloSharedMemory)
        lateFiles).exec Serial ⟨lateFiles,fun _ => .start⟩ [false,false,true,true]).map
          (fun s => (s.phase false,s.phase true)) = some (.failed,.failed) := by decide
    obtain ⟨s,hs,hobserve⟩ := Machine.exists_reachable _ _ hexec
    refine ⟨s,hs,ended_of_phases hobserve rfl rfl,?_⟩
    rintro ⟨place,hplace,-⟩
    cases (hplace false).symm.trans (congrArg Prod.fst hobserve)
  · exact loses_of_exec (p := 0) (q := 1) oneByOne (by decide) (by decide)

end Processes

end ConcurrentLog
end Potimizer

import Potimizer.MappedLog

/-! Histories of completed and killed runs of the Java shared memory program. A run that is killed
between the creation of the pointer file and its extension leaves a file that no later run can read
and none repairs; the pointer survives every other kill. -/
namespace Potimizer
namespace MappedRecovery

open MappedLog SharedMemoryExample UnicodeCodec

/-- What a run does to the files, one after the other. Opening a file creates it empty if it is
absent. -/
inductive Effect
  | openMemory
  | mapMemory
  | put (position : ℕ) (bytes : List UInt8)
  | openPointer
  | mapPointer
  | store (next : Int32)

def perform (files : Files) : Effect → Files
  | .openMemory => { files with memoryFile := some (files.memoryFile.getD []) }
  | .mapMemory => mapSharedMemory files
  | .put position bytes =>
    { files with memoryFile := some (written (files.memoryFile.getD []) position bytes) }
  | .openPointer => { files with logPointerFile := some (files.logPointerFile.getD []) }
  | .mapPointer => mapLogPointer files
  | .store next => storePointer next files

/-- The durable effects of a run, up to the exception if one ends it. -/
def effects (data : JavaString) (files : Files) : List Effect :=
  match initializeOrRecoverLogPointer files with
  | .error _ => []
  | .ok logPointer =>
    .openMemory :: .mapMemory ::
      match copy logPointer data (mapSharedMemory files) with
      | .error _ => []
      | .ok copied =>
        [.put logPointer.toInt.toNat (getBytes data),.openPointer,.mapPointer,
          .store (nextPointer (lengthInt data) (mapLogPointer copied))]

section Effects

variable {files : Files} {data : JavaString} {p : Int32}

theorem effects_of_error {e : Exception} (h : initializeOrRecoverLogPointer files = .error e) :
    effects data files = [] := by
  simp [effects,h]

theorem effects_of_not_fits (h : initializeOrRecoverLogPointer files = .ok p)
    (hfits : ¬ Fits p data) : effects data files = [.openMemory,.mapMemory] := by
  obtain ⟨e,he⟩ := copy_of_not_fits hfits (mapSharedMemory files)
  simp [effects,h,he]

theorem effects_of_fits (h : initializeOrRecoverLogPointer files = .ok p) (hfits : Fits p data) :
    effects data files = [.openMemory,.mapMemory,.put p.toInt.toNat (getBytes data),.openPointer,
      .mapPointer,.store (p + lengthInt data)] := by
  have hcopy := copy_of_le hfits.1 hfits.2 (mapSharedMemory files)
  obtain ⟨-,rfl⟩ := initializeOrRecoverLogPointer_mapLogPointer h
  unfold effects
  rw [h]
  simp only [hcopy]
  rfl

theorem foldl_effects (data : JavaString) (files : Files) :
    (effects data files).foldl perform files = (main data files).2 := by
  have hends := main_ends data files
  generalize main data files = ended at hends ⊢
  cases hends with
  | unread h =>
    rw [effects_of_error h]
    rfl
  | refused h hfits =>
    rw [effects_of_not_fits h hfits]
    rfl
  | appended h hfits =>
    rw [effects_of_fits h hfits]
    simp [perform,appended,mapSharedMemory,mapLogPointer,storePointer]

end Effects

/-- A run with a message, and the number of effects after which it is killed if it is. -/
structure Run where
  data : JavaString
  killedAfter : Option ℕ

def Run.performs (r : Run) (effects : List Effect) : List Effect :=
  match r.killedAfter with
  | none => effects
  | some n => effects.take n

/-- The files, with the value the last completed update stored, or an interrupted one after it. -/
structure World where
  files : Files
  stored : Int32

namespace World

def perform (w : World) (e : Effect) : World where
  files := MappedRecovery.perform w.files e
  stored := match e with
    | .store next => next
    | _ => w.stored

def run (w : World) (r : Run) : World := (r.performs (effects r.data w.files)).foldl perform w

end World

def start : World := ⟨absent,0⟩

def after (runs : List Run) : World := runs.foldl World.run start

/-- The next run's `initializeOrRecoverLogPointer` returns the value last stored. -/
def Recovers (w : World) : Prop := initializeOrRecoverLogPointer w.files = .ok w.stored

/-- The next run's `initializeOrRecoverLogPointer` throws. -/
def Wedged (w : World) : Prop := initializeOrRecoverLogPointer w.files = .error .eof

/-- The run finds no pointer file, its message fits at 0, and it is killed after its fourth effect:
it has created the file and not extended it. -/
def Torn (w : World) (r : Run) : Prop :=
  w.files.logPointerFile = none ∧ Fits 0 r.data ∧ r.killedAfter = some 4

section Run

variable {w : World} {r : Run}

theorem foldl_perform_files (w : World) (effects : List Effect) :
    (effects.foldl World.perform w).files = effects.foldl perform w.files := by
  induction effects generalizing w with
  | nil => rfl
  | cons e effects ih => exact ih (w.perform e)

/-- A run that is not killed is a run of `main`. -/
theorem run_completed (w : World) (data : JavaString) :
    (w.run ⟨data,none⟩).files = MappedLog.run w.files data :=
  (foldl_perform_files w _).trans (foldl_effects data w.files)

/-- How far a run came that could read the pointer: not to the creation of the pointer file, to it,
to the mapping, or through the update. -/
inductive Ends (w : World) (r : Run) (w' : World) : Prop
  | early (h : ¬ Torn w r) (hfile : w'.files.logPointerFile = w.files.logPointerFile)
      (hstored : w'.stored = w.stored)
  | created (h : Torn w r) (hfile : w'.files.logPointerFile = some [])
  | mapped (h : ¬ Torn w r)
      (hfile : w'.files.logPointerFile = some (extend 4 (w.files.logPointerFile.getD [])))
      (hstored : w'.stored = w.stored)
  | late (h : ¬ Torn w r) {content : List UInt8}
      (hfile : w'.files.logPointerFile = some (putInt content w'.stored))

theorem stored_eq_zero (h : Recovers w) (hnone : w.files.logPointerFile = none) : w.stored = 0 := by
  simpa [Recovers,initializeOrRecoverLogPointer,hnone,eq_comm] using h

theorem performs_cases (r : Run) (effects : List Effect) :
    (∃ n, n < effects.length ∧ r.killedAfter = some n ∧ r.performs effects = effects.take n) ∨
      r.performs effects = effects ∧ ∀ n, n < effects.length → r.killedAfter ≠ some n := by
  unfold Run.performs
  cases r.killedAfter with
  | none => exact .inr ⟨rfl,by simp⟩
  | some n =>
    by_cases hn : n < effects.length
    · exact .inl ⟨n,hn,rfl,rfl⟩
    · refine .inr ⟨List.take_of_length_le (by omega),fun m hm h => ?_⟩
      exact hn (Option.some.inj h ▸ hm)

theorem run_of_not_fits (h : Recovers w) (hfits : ¬ Fits w.stored r.data) :
    Ends w r (w.run r) := by
  have htorn : ¬ Torn w r := fun ht => hfits (stored_eq_zero h ht.1 ▸ ht.2.1)
  rw [World.run,effects_of_not_fits h hfits]
  obtain ⟨n,hn,-,hperforms⟩ | ⟨hperforms,-⟩ := performs_cases r [.openMemory,.mapMemory]
  · rw [hperforms]
    obtain _|_|n := n
    · exact .early htorn rfl rfl
    · exact .early htorn rfl rfl
    · simp only [List.length_cons,List.length_nil] at hn
      omega
  · rw [hperforms]
    exact .early htorn rfl rfl

theorem run_of_fits (h : Recovers w) (hfits : Fits w.stored r.data) : Ends w r (w.run r) := by
  rw [World.run,effects_of_fits h hfits]
  obtain ⟨n,hn,hkilled,hperforms⟩ | ⟨hperforms,hkilled⟩ := performs_cases r
    [.openMemory,.mapMemory,.put w.stored.toInt.toNat (getBytes r.data),.openPointer,.mapPointer,
      .store (w.stored + lengthInt r.data)]
  · have htorn : n ≠ 4 → ¬ Torn w r := by
      intro hne ht
      exact hne (Option.some.inj (hkilled.symm.trans ht.2.2))
    rw [hperforms]
    obtain _|_|_|_|_|_|n := n
    · exact .early (htorn (by omega)) rfl rfl
    · exact .early (htorn (by omega)) rfl rfl
    · exact .early (htorn (by omega)) rfl rfl
    · exact .early (htorn (by omega)) rfl rfl
    · -- the pointer file exists now, empty if this run has created it
      cases hfile : w.files.logPointerFile with
      | none =>
        refine .created ⟨hfile,stored_eq_zero h hfile ▸ hfits,hkilled⟩ ?_
        simp [World.perform,perform,mapSharedMemory,hfile]
      | some content =>
        refine .early (fun ht => by simp [ht.1] at hfile) ?_ rfl
        simp [World.perform,perform,mapSharedMemory,hfile]
    · refine .mapped (htorn (by omega)) ?_ rfl
      simp [World.perform,perform,mapSharedMemory,mapLogPointer]
    · simp only [List.length_cons,List.length_nil] at hn
      omega
  · rw [hperforms]
    exact .late (fun ht => hkilled 4 (by simp) ht.2.2) rfl

theorem run_ends (h : Recovers w) (r : Run) : Ends w r (w.run r) := by
  by_cases hfits : Fits w.stored r.data
  · exact run_of_fits h hfits
  · exact run_of_not_fits h hfits

theorem recover_congr {files files' : Files} (h : files'.logPointerFile = files.logPointerFile) :
    initializeOrRecoverLogPointer files' = initializeOrRecoverLogPointer files := by
  unfold initializeOrRecoverLogPointer
  rw [h]

theorem recover_of_some {files : Files} {content : List UInt8}
    (h : files.logPointerFile = some content) :
    initializeOrRecoverLogPointer files = readInt content := by
  unfold initializeOrRecoverLogPointer
  rw [h]

theorem Wedged.not_recovers (h : Wedged w) : ¬ Recovers w := by
  intro hrecovers
  cases h.symm.trans hrecovers

theorem Recovers.run (h : Recovers w) (hr : ¬ Torn w r) : Recovers (w.run r) := by
  cases run_ends h r with
  | early _ hfile hstored =>
    rw [Recovers,hstored,recover_congr hfile]
    exact h
  | created ht => exact absurd ht hr
  | mapped _ hfile hstored =>
    obtain ⟨-,hget⟩ := initializeOrRecoverLogPointer_mapLogPointer h
    rw [Recovers,hstored,recover_of_some hfile,readInt_of_le (length_extend 4 _),hget]
  | late _ hfile =>
    rw [Recovers,recover_of_some hfile]
    exact readInt_putInt _ _

theorem Recovers.wedged_run (h : Recovers w) (ht : Torn w r) : Wedged (w.run r) := by
  cases run_ends h r with
  | early hr => exact absurd ht hr
  | created _ hfile =>
    rw [Wedged,recover_of_some hfile]
    rfl
  | mapped hr => exact absurd ht hr
  | late hr => exact absurd ht hr

theorem Wedged.run (h : Wedged w) (r : Run) : Wedged (w.run r) := by
  have hnone : r.performs [] = [] := by
    cases hkilled : r.killedAfter <;> simp [Run.performs,hkilled]
  rw [World.run,effects_of_error h,hnone]
  exact h

theorem Wedged.runs (h : Wedged w) (later : List Run) : Wedged (later.foldl World.run w) := by
  induction later generalizing w with
  | nil => exact h
  | cons r later ih => exact ih (h.run r)

end Run

/-- After a history of completed and killed runs from absent files, the next run recovers the value
last stored exactly if no run of the history was torn. -/
theorem recovers_iff (runs : List Run) :
    Recovers (after runs) ↔
      ∀ before r, before ++ [r] <+: runs → ¬ Torn (after before) r := by
  change Recovers (runs.foldl World.run start) ↔
    RunHistory.Permitted World.run (fun w r => ¬ Torn w r) start runs
  apply RunHistory.holds_iff (P := Recovers)
  · exact (rfl : Recovers start)
  · exact fun w r h hr => h.run hr
  · exact fun w r h hr => h.wedged_run (not_not.mp hr)
  · exact fun w r h => h.run r
  · exact fun w h => h.not_recovers

/-- The first run is killed after it has created the pointer file; every later run throws. -/
theorem created_pointer_wedges : ∃ r : Run, r = ⟨helloSharedMemory,some 4⟩ ∧
    (after [r]).files.logPointerFile = some [] ∧ ¬ Recovers (after [r]) ∧
    ∀ later, Wedged (after (r :: later)) := by
  have hwedged : Wedged (after [⟨helloSharedMemory,some 4⟩]) := rfl
  exact ⟨_,rfl,rfl,hwedged.not_recovers,fun later => hwedged.runs later⟩

end MappedRecovery
end Potimizer

import Potimizer.RunHistory
import Potimizer.ShareMemoryForCpp

/-! Histories of completed and killed runs of the C++ shared memory program: the pointer survives
exactly the kills that do not fall between the truncation of the pointer file and its rewriting. -/
namespace Potimizer
namespace CrashRecovery

open ShareMemoryForCpp

inductive Run
  | completed
  | killed (after : ℕ)

def Run.performs (r : Run) (effects : List Effect) : List Effect :=
  match r with
  | .completed => effects
  | .killed after => effects.take after

/-- The durable state, with the value the last completed update stored and the value an interrupted
one was storing. -/
structure World where
  durable : Durable
  stored : Int32
  storing : Option Int32

namespace World

def perform (w : World) (e : Effect) : World where
  durable := w.durable.perform e
  stored := match e with
    | .write logPointer => logPointer
    | _ => w.stored
  storing := match e with
    | .truncate logPointer => some logPointer
    | .write _ => none
    | _ => w.storing

def effects (w : World) (r : Run) : List Effect := r.performs (main helloSharedMemory w.durable)

def run (w : World) (r : Run) : World := (w.effects r).foldl perform w

/-- What the next run's `initializeOrRecoverLogPointer` returns. -/
def recovered (w : World) : Int32 := (initializeOrRecoverLogPointer w.durable).1

end World

def start (memory : ℤ → UInt8) : World := ⟨⟨none,memory⟩,0,none⟩

def after (memory : ℤ → UInt8) (runs : List Run) : World := runs.foldl World.run (start memory)

/-- The next run starts with the value last stored or being stored, and overwrites nothing below
the one last stored. -/
structure Consistent (w : World) : Prop where
  recovered : w.recovered = w.stored ∨ w.storing = some w.recovered
  kept : ∀ e ∈ main helloSharedMemory w.durable, ∀ a, e.Overwrites a → w.stored.toInt ≤ a

/-- The run is not killed between the truncation and the write, unless the stored pointer is 0 or
the one that would replace it is. -/
def Untorn (w : World) (r : Run) : Prop := ∀ logPointer,
  (w.effects r).getLast? = some (.truncate logPointer) →
    w.stored = 0 ∨ w.storing = none ∧ w.stored + Int32.ofNat helloSharedMemory.strlen = 0

/-- What the runs leave in the pointer file: nothing yet, the value last stored, or the empty file of
a harmless interruption. -/
inductive Intact (w : World) : Prop
  | absent (hfile : w.durable.logPointerFile = none) (hstored : w.stored = 0)
      (hstoring : w.storing = none)
  | whole (hfile : w.durable.logPointerFile = some (intBytes w.stored)) (hstoring : w.storing = none)
  | torn {logPointer} (hfile : w.durable.logPointerFile = some [])
      (hstoring : w.storing = some logPointer)
      (h : w.stored = 0 ∨ logPointer = 0 ∧ w.stored.toInt ≤ 0)

/-- How far a run came: not to its update, into it, or through it. -/
inductive Ends (w : World) (next : Int32) (effects : List Effect) (w' : World) : Prop
  | early (hlast : ∀ logPointer, effects.getLast? ≠ some (.truncate logPointer))
      (hfile : w'.durable.logPointerFile = w.durable.logPointerFile ∨
        w.durable.logPointerFile = none ∧ w'.durable.logPointerFile = some (intBytes 0))
      (hstored : w'.stored = w.stored) (hstoring : w'.storing = w.storing)
  | torn (hlast : effects.getLast? = some (.truncate next))
      (hfile : w'.durable.logPointerFile = some []) (hstored : w'.stored = w.stored)
      (hstoring : w'.storing = some next)
  | late (hlast : ∀ logPointer, effects.getLast? ≠ some (.truncate logPointer))
      (hfile : w'.durable.logPointerFile = some (intBytes next)) (hstored : w'.stored = next)
      (hstoring : w'.storing = none)

def World.next (w : World) : Int32 := w.recovered + Int32.ofNat helloSharedMemory.strlen

theorem main_of_absent {w : World} (h : w.durable.logPointerFile = none) :
    main helloSharedMemory w.durable =
      [.create,.copy w.recovered helloSharedMemory,.truncate w.next,.write w.next] := by
  simp [main,World.next,World.recovered,initializeOrRecoverLogPointer,updateLogPointer,h]

theorem main_of_present {w : World} {content : List UInt8}
    (h : w.durable.logPointerFile = some content) : main helloSharedMemory w.durable =
      [.copy w.recovered helloSharedMemory,.truncate w.next,.write w.next] := by
  simp [main,World.next,World.recovered,initializeOrRecoverLogPointer,updateLogPointer,h]

theorem performs_of_length_le {effects : List Effect} {n : ℕ} (h : effects.length ≤ n) :
    (Run.killed n).performs effects = Run.completed.performs effects :=
  List.take_of_length_le h

theorem run_ends (w : World) (r : Run) : Ends w w.next (w.effects r) (w.run r) := by
  cases hfile : w.durable.logPointerFile with
  | none =>
    rw [World.run,World.effects,main_of_absent hfile]
    obtain _|⟨_|_|_|_|n⟩ := r
    · exact .late (by simp [Run.performs]) rfl rfl rfl
    · exact .early (by simp [Run.performs]) (.inl rfl) rfl rfl
    · exact .early (by simp [Run.performs]) (.inr ⟨hfile,rfl⟩) rfl rfl
    · exact .early (by simp [Run.performs]) (.inr ⟨hfile,rfl⟩) rfl rfl
    · exact .torn rfl rfl rfl rfl
    · rw [performs_of_length_le (by simp)]
      exact .late (by simp [Run.performs]) rfl rfl rfl
  | some content =>
    rw [World.run,World.effects,main_of_present hfile]
    obtain _|⟨_|_|_|n⟩ := r
    · exact .late (by simp [Run.performs]) rfl rfl rfl
    · exact .early (by simp [Run.performs]) (.inl rfl) rfl rfl
    · exact .early (by simp [Run.performs]) (.inl rfl) rfl rfl
    · exact .torn rfl rfl rfl rfl
    · rw [performs_of_length_le (by simp)]
      exact .late (by simp [Run.performs]) rfl rfl rfl

theorem recovered_of_present {w : World} {content : List UInt8}
    (h : w.durable.logPointerFile = some content) : w.recovered = readInt content := by
  simp [World.recovered,initializeOrRecoverLogPointer,h]

theorem recovered_of_absent {w : World} (h : w.durable.logPointerFile = none) :
    w.recovered = 0 := by
  simp [World.recovered,initializeOrRecoverLogPointer,h]

theorem Intact.recovered {w : World} (h : Intact w) :
    w.recovered = w.stored ∨ w.recovered = 0 ∧ w.storing = some 0 ∧ w.stored.toInt ≤ 0 := by
  cases h with
  | absent hfile hstored hstoring => exact .inl ((recovered_of_absent hfile).trans hstored.symm)
  | whole hfile hstoring => exact .inl ((recovered_of_present hfile).trans (readInt_whole _))
  | torn hfile hstoring h =>
    have hzero : w.recovered = 0 := recovered_of_present hfile
    obtain hstored | ⟨rfl,hstored⟩ := h
    · exact .inl (hzero.trans hstored.symm)
    · exact .inr ⟨hzero,hstoring,hstored⟩

theorem overwrites_recovered {w : World} {e : Effect} {a : ℤ}
    (he : e ∈ main helloSharedMemory w.durable) (ha : e.Overwrites a) : w.recovered.toInt ≤ a := by
  have hmem : e ∈ [Effect.create,.copy w.recovered helloSharedMemory,.truncate w.next,
      .write w.next] := by
    cases hfile : w.durable.logPointerFile with
    | none => exact main_of_absent hfile ▸ he
    | some content =>
      rw [main_of_present hfile] at he
      exact List.mem_cons_of_mem _ he
  simp only [List.mem_cons,List.not_mem_nil,or_false] at hmem
  obtain rfl | rfl | rfl | rfl := hmem
  · exact ha.elim
  · exact ha.1
  · exact ha.elim
  · exact ha.elim

theorem Intact.consistent {w : World} (h : Intact w) : Consistent w := by
  refine ⟨?_,fun e he a ha => ?_⟩
  · obtain hstored | ⟨hzero,hstoring,-⟩ := h.recovered
    · exact .inl hstored
    · exact .inr (hzero ▸ hstoring)
  · have hle := overwrites_recovered he ha
    obtain hstored | ⟨hzero,-,hstored⟩ := h.recovered
    · exact hstored ▸ hle
    · rw [hzero] at hle
      exact hstored.trans hle

theorem toInt_nonpos_of_add_eq_zero {logPointer : Int32}
    (h : logPointer + Int32.ofNat helloSharedMemory.strlen = 0) : logPointer.toInt ≤ 0 := by
  rw [← Int32.eq_sub_iff_add_eq] at h
  rw [h]
  decide

theorem Intact.next_eq_zero {w : World} (h : Intact w) (hstoring : w.storing = none)
    (hstored : w.stored + Int32.ofNat helloSharedMemory.strlen = 0) : w.next = 0 := by
  obtain hrecovered | ⟨-,hstoring₀,-⟩ := h.recovered
  · rw [World.next,hrecovered,hstored]
  · simp [hstoring] at hstoring₀

theorem Intact.of_next_eq_zero {w : World} (h : Intact w) (hnext : w.next = 0) :
    w.stored = 0 ∨ w.storing = none ∧ w.stored + Int32.ofNat helloSharedMemory.strlen = 0 := by
  obtain hrecovered | ⟨hrecovered,-,-⟩ := h.recovered
  · rw [World.next,hrecovered] at hnext
    cases h with
    | absent hfile hstored hstoring => exact .inl hstored
    | whole hfile hstoring => exact .inr ⟨hstoring,hnext⟩
    | torn hfile hstoring h =>
      exact .inl (hrecovered.symm.trans (recovered_of_present hfile))
  · rw [World.next,hrecovered] at hnext
    exact absurd hnext (by decide)

theorem Intact.run {w : World} (h : Intact w) {r : Run} (hr : Untorn w r) : Intact (w.run r) := by
  cases run_ends w r with
  | early hlast hfile hstored hstoring =>
    obtain hsame | ⟨hnone,hcreated⟩ := hfile
    · cases h with
      | absent hfile₀ hstored₀ hstoring₀ =>
        exact .absent (hsame.trans hfile₀) (hstored.trans hstored₀) (hstoring.trans hstoring₀)
      | whole hfile₀ hstoring₀ =>
        exact .whole (hstored ▸ hsame.trans hfile₀) (hstoring.trans hstoring₀)
      | torn hfile₀ hstoring₀ h =>
        exact .torn (hsame.trans hfile₀) (hstoring.trans hstoring₀) (hstored ▸ h)
    · cases h with
      | absent hfile₀ hstored₀ hstoring₀ =>
        refine .whole ?_ (hstoring.trans hstoring₀)
        rw [hcreated,hstored,hstored₀]
      | whole hfile₀ hstoring₀ => simp [hnone] at hfile₀
      | torn hfile₀ hstoring₀ h => simp [hnone] at hfile₀
  | torn hlast hfile hstored hstoring =>
    refine .torn hfile hstoring ?_
    rw [hstored]
    obtain hzero | ⟨hstoring₀,hnext⟩ := hr _ hlast
    · exact .inl hzero
    · exact .inr ⟨h.next_eq_zero hstoring₀ hnext,toInt_nonpos_of_add_eq_zero hnext⟩
  | late hlast hfile hstored hstoring => exact .whole (hstored ▸ hfile) hstoring

/-- After a run from an intact world, what the next run recovers is right exactly if this one was
not torn. -/
theorem Intact.run_iff {w : World} (h : Intact w) (r : Run) :
    Consistent (w.run r) ↔ Untorn w r := by
  refine ⟨fun hc => ?_,fun hr => (h.run hr).consistent⟩
  cases run_ends w r with
  | early hlast hfile hstored hstoring => exact fun p hp => absurd hp (hlast p)
  | late hlast hfile hstored hstoring => exact fun p hp => absurd hp (hlast p)
  | torn hlast hfile hstored hstoring =>
    intro _ _
    have hzero : (w.run r).recovered = 0 := recovered_of_present hfile
    obtain hc | hc := hc.recovered
    · exact .inl (hstored.symm.trans (hc.symm.trans hzero))
    · exact h.of_next_eq_zero (by simpa [hzero,hstoring] using hc)

/-- What a consistent world has below the pointer last stored, a run leaves as it is. -/
theorem Consistent.run_sharedMemory {w : World} (h : Consistent w) (r : Run) {a : ℤ}
    (ha : a < w.stored.toInt) :
    (w.run r).durable.sharedMemory a = w.durable.sharedMemory a := by
  have hkept : ∀ e ∈ w.effects r, ¬ e.Overwrites a := by
    intro e he hover
    have hmain : e ∈ main helloSharedMemory w.durable := by
      cases r with
      | completed => exact he
      | killed n => exact List.mem_of_mem_take he
    exact absurd (h.kept e hmain a hover) (by omega)
  rw [World.run]
  generalize w.effects r = effects at hkept
  clear h ha
  induction effects generalizing w with
  | nil => rfl
  | cons e effects ih =>
    rw [List.foldl_cons,ih fun e' he' => hkept e' (List.mem_cons_of_mem _ he')]
    exact perform_sharedMemory (hkept e List.mem_cons_self)

/-- At every point of a history the next run recovers a pointer last stored or being stored and
overwrites nothing below the one last stored, exactly if no run of the history was torn. -/
theorem consistent_iff (memory : ℤ → UInt8) (runs : List Run) :
    (∀ before, before <+: runs → Consistent (after memory before)) ↔
      ∀ before r, before ++ [r] <+: runs → Untorn (after memory before) r := by
  apply RunHistory.throughout_iff (I := Intact)
  · exact .absent rfl rfl rfl
  · exact fun w h => h.consistent
  · exact fun w r h hr => h.run hr
  · exact fun w r h hc => (h.run_iff r).1 hc

/-- A complete run stores 21; the next one is killed with the pointer file truncated, and the one
after it recovers 0 and overwrites the message. -/
theorem torn_pointer_lost : ∃ w, w = after (fun _ => 0) [.completed,.killed 2] ∧
    w.stored = 21 ∧ w.storing = some 42 ∧ w.recovered = 0 ∧ ¬ Consistent w ∧
      ∃ e ∈ main helloSharedMemory w.durable, e.Overwrites 0 := by
  refine ⟨_,rfl,by decide,by decide,by decide,fun h => ?_,
    .copy 0 helloSharedMemory,List.mem_cons_self,by decide,by decide⟩
  have hrecovered := h.recovered
  revert hrecovered
  decide

end CrashRecovery
end Potimizer

import Mathlib.Algebra.BigOperators.Group.Finset.Basic
import Potimizer.StepMachine

/-! Processes that append to one memory through a stored pointer, each by four steps: recover the
pointer, copy a message there, compute the advanced pointer, store it. The steps of the processes
interleave in any order. The messages are appended if no process recovers the pointer while another
is between its recovery and its store; if none is empty, only then. -/
namespace Potimizer
namespace StoredPointerLog

open StepMachine

/-- The steps of a process on the shared state `σ`, with pointers of type `π` and messages of type
`μ`. A recovery without a pointer or a copy that is refused ends the process. -/
structure Program (σ π μ : Type) where
  recover : σ → Option π × σ
  copy : π → μ → σ → Bool × σ
  advance : π → μ → σ → π × σ
  store : π → σ → σ

def Program.alone {σ π μ : Type} (program : Program σ π μ) (m : μ) (s : σ) : σ :=
  match program.recover s with
  | (none,s) => s
  | (some p,s) =>
    match program.copy p m s with
    | (false,s) => s
    | (true,s) =>
      let (next,s) := program.advance p m s
      program.store next s

inductive Phase (π : Type)
  | start
  | recovered (p : π)
  | copied (p : π)
  | advanced (p next : π)
  | finished (p : π)
  | failed
  deriving DecidableEq

structure State (σ π P : Type) where
  shared : σ
  phase : P → Phase π

variable {σ π μ β P : Type}

namespace Phase

variable {phase : Phase π} {p : π}

def place : Phase π → Option π
  | recovered p => some p
  | copied p => some p
  | advanced p _ => some p
  | finished p => some p
  | _ => none

/-- The pointer at which the process has copied its message. -/
def written : Phase π → Option π
  | copied p => some p
  | advanced p _ => some p
  | finished p => some p
  | _ => none

/-- The process is between its recovery and its store. -/
def inFlight : Phase π → Bool
  | recovered _ => true
  | copied _ => true
  | advanced _ _ => true
  | _ => false

def isFinished : Phase π → Bool
  | finished _ => true
  | _ => false

def ended : Phase π → Bool
  | finished _ => true
  | failed => true
  | _ => false

end Phase

variable [DecidableEq P]

def move (program : Program σ π μ) (message : P → μ) (s : State σ π P) (i : P) :
    Option (State σ π P) :=
  let goto (phase : Phase π) (shared : σ) : State σ π P := ⟨shared,Function.update s.phase i phase⟩
  match s.phase i with
  | .start =>
    let result := program.recover s.shared
    some (goto (result.1.elim .failed .recovered) result.2)
  | .recovered p =>
    let result := program.copy p (message i) s.shared
    some (goto (if result.1 then .copied p else .failed) result.2)
  | .copied p =>
    let result := program.advance p (message i) s.shared
    some (goto (.advanced p result.1) result.2)
  | .advanced p next => some (goto (.finished p) (program.store next s.shared))
  | .finished _ => none
  | .failed => none

def machine (program : Program σ π μ) (message : P → μ) (start : σ) : Machine (State σ π P) P where
  init := ⟨start,fun _ => .start⟩
  step := move program message

/-- A process recovers the pointer only while no other is between its recovery and its store. -/
def Serial (s : State σ π P) (i : P) : Prop :=
  s.phase i = .start → ∀ j, (s.phase j).inFlight = false

instance [Fintype P] [DecidableEq π] (s : State σ π P) (i : P) : Decidable (Serial s i) :=
  inferInstanceAs (Decidable (_ → _))

def Ended (s : State σ π P) : Prop := ∀ i, (s.phase i).ended = true

/-- The processes take the steps of the schedule, each of them permitted, and come to the state
`s`. -/
def Runs (program : Program σ π μ) (message : P → μ) (start : σ) (ok : State σ π P → P → Prop)
    [∀ s i, Decidable (ok s i)] (schedule : List P) (s : State σ π P) : Prop :=
  (machine program message start).exec ok ⟨start,fun _ => .start⟩ schedule = some s

section Moves

variable {program : Program σ π μ} {message : P → μ} {start : σ} {s s' : State σ π P} {i j : P}

inductive Moves (program : Program σ π μ) (message : P → μ) (s : State σ π P) (i : P) :
    State σ π P → Prop
  | recover {p} (hi : s.phase i = .start) (h : (program.recover s.shared).1 = some p) :
      Moves program message s i
        ⟨(program.recover s.shared).2,Function.update s.phase i (.recovered p)⟩
  | recoverFails (hi : s.phase i = .start) (h : (program.recover s.shared).1 = none) :
      Moves program message s i ⟨(program.recover s.shared).2,Function.update s.phase i .failed⟩
  | copy {p} (hi : s.phase i = .recovered p)
      (h : (program.copy p (message i) s.shared).1 = true) :
      Moves program message s i
        ⟨(program.copy p (message i) s.shared).2,Function.update s.phase i (.copied p)⟩
  | copyFails {p} (hi : s.phase i = .recovered p)
      (h : (program.copy p (message i) s.shared).1 = false) :
      Moves program message s i
        ⟨(program.copy p (message i) s.shared).2,Function.update s.phase i .failed⟩
  | advance {p} (hi : s.phase i = .copied p) :
      Moves program message s i ⟨(program.advance p (message i) s.shared).2,
        Function.update s.phase i (.advanced p (program.advance p (message i) s.shared).1)⟩
  | store {p next} (hi : s.phase i = .advanced p next) :
      Moves program message s i
        ⟨program.store next s.shared,Function.update s.phase i (.finished p)⟩

theorem move_cases (h : (machine program message start).step s i = some s') :
    Moves program message s i s' := by
  change move program message s i = some s' at h
  unfold move at h
  cases hi : s.phase i with
  | start =>
    cases hrecover : (program.recover s.shared).1 with
    | none =>
      simp only [hi,hrecover,Option.elim_none,Option.some.injEq] at h
      exact h ▸ .recoverFails hi hrecover
    | some p =>
      simp only [hi,hrecover,Option.elim_some,Option.some.injEq] at h
      exact h ▸ .recover hi hrecover
  | recovered p =>
    cases hcopy : (program.copy p (message i) s.shared).1 with
    | false =>
      simp only [hi,hcopy,Bool.false_eq_true,if_false,Option.some.injEq] at h
      exact h ▸ .copyFails hi hcopy
    | true =>
      simp only [hi,hcopy,if_true,Option.some.injEq] at h
      exact h ▸ .copy hi hcopy
  | copied p =>
    simp only [hi,Option.some.injEq] at h
    exact h ▸ .advance hi
  | advanced p next =>
    simp only [hi,Option.some.injEq] at h
    exact h ▸ .store hi
  | finished p => simp [hi] at h
  | failed => simp [hi] at h

end Moves

/-- What is observed of the shared state: the stored pointer, the memory by the offset from its
start, and its size. -/
structure View (σ π μ β : Type) where
  pointer : σ → Option π
  offset : π → ℤ
  memory : σ → ℤ → β
  bytes : μ → List β
  limit : ℕ

namespace View

variable (view : View σ π μ β)

def length (m : μ) : ℕ := (view.bytes m).length

def Fits (p : π) (m : μ) : Prop := 0 ≤ view.offset p ∧ view.offset p + view.length m ≤ view.limit

def Written (shared : σ) (p : π) (m : μ) : Prop :=
  ∀ i (h : i < (view.bytes m).length), view.memory shared (view.offset p + i) = (view.bytes m)[i]

def Apart (p : π) (m : μ) (p' : π) (m' : μ) : Prop :=
  view.offset p + view.length m ≤ view.offset p' ∨ view.offset p' + view.length m' ≤ view.offset p

instance (p : π) (m : μ) : Decidable (view.Fits p m) := inferInstanceAs (Decidable (_ ∧ _))

instance (p : π) (m : μ) (p' : π) (m' : μ) : Decidable (view.Apart p m p' m') :=
  inferInstanceAs (Decidable (_ ∨ _))

variable {view} {shared shared' : σ} {p : π} {m : μ}

theorem Written.frame (h : view.Written shared p m)
    (hframe : ∀ a, view.offset p ≤ a → a < view.offset p + view.length m →
      view.memory shared' a = view.memory shared a) : view.Written shared' p m := by
  intro i hi
  rw [hframe _ (by omega) (by unfold View.length; omega)]
  exact h i hi

end View

/-- Each step does its part for the admissible messages: a copy that fits writes the message and
nothing else, and the pointer that is stored is the one recovered, advanced by the length, as long
as it is still the stored one when it is advanced. -/
structure Appends (program : Program σ π μ) (view : View σ π μ β) (Admissible : μ → Prop) :
    Prop where
  recover : ∀ s, (program.recover s).1 = view.pointer s
  recover_pointer : ∀ s, view.pointer (program.recover s).2 = view.pointer s
  recover_memory : ∀ s, view.memory (program.recover s).2 = view.memory s
  copy : ∀ {p m} s, Admissible m → view.Fits p m → (program.copy p m s).1 = true
  copy_written : ∀ {p m} s, Admissible m → view.Fits p m →
    view.Written (program.copy p m s).2 p m
  copy_frame : ∀ {p m} s, Admissible m → view.Fits p m → ∀ a,
    a < view.offset p ∨ view.offset p + view.length m ≤ a →
      view.memory (program.copy p m s).2 a = view.memory s a
  copy_pointer : ∀ {p m} s, Admissible m → view.Fits p m →
    view.pointer (program.copy p m s).2 = view.pointer s
  advance : ∀ {p m} s, Admissible m → view.Fits p m → view.pointer s = some p →
    view.offset (program.advance p m s).1 = view.offset p + view.length m
  advance_pointer : ∀ {p m} s, view.pointer s = some p →
    view.pointer (program.advance p m s).2 = some p
  advance_memory : ∀ {p m} s, view.memory (program.advance p m s).2 = view.memory s
  store : ∀ {p} s, view.pointer (program.store p s) = some p
  store_memory : ∀ {p} s, view.memory (program.store p s) = view.memory s

section Lengths

variable [Fintype P] {length : P → ℕ} {phase : P → Phase π} {i : P} {next : Phase π}

def Phase.finishedLength (n : ℕ) (phase : Phase π) : ℕ := if phase.isFinished then n else 0

@[simp] theorem Phase.finishedLength_finished (n : ℕ) (p : π) :
    (finished p).finishedLength n = n := rfl

theorem Phase.finishedLength_of_not {n : ℕ} {phase : Phase π} (h : phase.isFinished = false) :
    phase.finishedLength n = 0 := by
  simp [finishedLength,h]

def finishedLength (length : P → ℕ) (phase : P → Phase π) : ℕ :=
  ∑ i, (phase i).finishedLength (length i)

theorem finishedLength_update (length : P → ℕ) (phase : P → Phase π) (i : P) (next : Phase π) :
    finishedLength length (Function.update phase i next) + (phase i).finishedLength (length i) =
      finishedLength length phase + next.finishedLength (length i) := by
  have hnew : (fun j => (Function.update phase i next j).finishedLength (length j)) =
      Function.update (fun j => (phase j).finishedLength (length j)) i
        (next.finishedLength (length i)) := by
    funext j
    by_cases hj : j = i
    · subst hj
      simp
    · simp [hj]
  rw [finishedLength,hnew,Finset.sum_update_of_mem (Finset.mem_univ i),finishedLength,
    Finset.sum_eq_sum_sdiff_singleton_add (Finset.mem_univ i)
      fun j => (phase j).finishedLength (length j)]
  omega

theorem finishedLength_update_of_not (length : P → ℕ) (hi : (phase i).isFinished = false)
    (hnext : next.isFinished = false) :
    finishedLength length (Function.update phase i next) = finishedLength length phase := by
  simpa [Phase.finishedLength_of_not,hi,hnext] using finishedLength_update length phase i next

omit [DecidableEq P] in
theorem finishedLength_le : finishedLength length phase ≤ ∑ i, length i := by
  refine Finset.sum_le_sum fun i _ => ?_
  unfold Phase.finishedLength
  split_ifs <;> omega

end Lengths

section Serial

variable [Fintype P] {program : Program σ π μ} {view : View σ π μ β} {Admissible : μ → Prop}
  {message : P → μ} {p₀ p q : π} {s s' : State σ π P} {i j : P}

/-- What holds while the processes follow one another from the stored pointer `p₀`. -/
structure Appending (view : View σ π μ β) (message : P → μ) (p₀ : π) (s : State σ π P) : Prop where
  alone : ∀ {i j}, (s.phase i).inFlight → (s.phase j).inFlight → i = j
  pointer : ∃ p, view.pointer s.shared = some p ∧ view.offset p =
    view.offset p₀ + finishedLength (fun i => view.length (message i)) s.phase
  current : ∀ {i p}, (s.phase i).inFlight → (s.phase i).place = some p →
    view.pointer s.shared = some p
  next : ∀ {i p q}, s.phase i = .advanced p q →
    view.offset q = view.offset p + view.length (message i)
  written : ∀ {i p}, (s.phase i).written = some p → view.Written s.shared p (message i)
  inside : ∀ {i p}, s.phase i = .finished p → view.offset p₀ ≤ view.offset p ∧
    view.offset p + view.length (message i) ≤
      view.offset p₀ + finishedLength (fun i => view.length (message i)) s.phase
  apart : ∀ {i j p q}, i ≠ j → s.phase i = .finished p → s.phase j = .finished q →
    view.Apart p (message i) q (message j)
  succeeds : ∀ i, s.phase i ≠ .failed

omit [DecidableEq P] in
theorem Appending.init {start : σ} (hstart : view.pointer start = some p₀) :
    Appending view message p₀ (⟨start,fun _ => .start⟩ : State σ π P) where
  alone h := by simp [Phase.inFlight] at h
  pointer := ⟨p₀,hstart,by simp [finishedLength,Phase.finishedLength,Phase.isFinished]⟩
  current h := by simp [Phase.inFlight] at h
  next h := by simp at h
  written h := by simp [Phase.written] at h
  inside h := by simp at h
  apart _ h := by simp at h
  succeeds _ := by simp

omit [Fintype P] in
theorem update_cases {phase : P → Phase π} {next x : Phase π}
    (h : Function.update phase i next j = x) : j = i ∧ next = x ∨ j ≠ i ∧ phase j = x := by
  by_cases hj : j = i
  · subst hj
    exact .inl ⟨rfl,by simpa using h⟩
  · exact .inr ⟨hj,by simpa [hj] using h⟩

theorem finishedLength_finish (length : P → ℕ) {phase : P → Phase π} (p : π)
    (hi : (phase i).isFinished = false) :
    finishedLength length (Function.update phase i (.finished p)) =
      finishedLength length phase + length i := by
  simpa [Phase.finishedLength_of_not,hi] using
    finishedLength_update length phase i (.finished p)

theorem finishedLength_add_le (length : P → ℕ) {phase : P → Phase π} (p : π)
    (hi : (phase i).isFinished = false) :
    finishedLength length phase + length i ≤ ∑ i, length i := by
  rw [← finishedLength_finish length p hi]
  exact finishedLength_le

def Room (view : View σ π μ β) (message : P → μ) (p₀ : π) : Prop :=
  0 ≤ view.offset p₀ ∧ view.offset p₀ + ∑ i, (view.length (message i) : ℤ) ≤ view.limit

theorem Phase.finished_of_written {phase : Phase π} (h : phase.written = some p)
    (hflight : phase.inFlight = false) : phase = .finished p := by
  cases phase with
  | finished q =>
    obtain rfl : q = p := Option.some.inj h
    rfl
  | start => cases h
  | failed => cases h
  | _ => cases hflight

theorem Phase.not_finished {phase : Phase π} (h : phase.inFlight) : phase.isFinished = false := by
  cases phase <;> first | rfl | cases h

namespace Appending

omit [DecidableEq P] in
theorem others (h : Appending view message p₀ s) (hi : (s.phase i).inFlight) (j : P) (hj : j ≠ i) :
    (s.phase j).inFlight = false :=
  Bool.eq_false_iff.mpr fun hflight => hj (h.alone hflight hi)

omit [DecidableEq P] in
theorem offset_eq (h : Appending view message p₀ s) (hi : (s.phase i).inFlight)
    (hp : (s.phase i).place = some p) : view.offset p =
      view.offset p₀ + finishedLength (fun i => view.length (message i)) s.phase := by
  obtain ⟨q,hq,hoffset⟩ := h.pointer
  obtain rfl : p = q := Option.some.inj ((h.current hi hp).symm.trans hq)
  exact hoffset

omit [DecidableEq P] in
theorem before (h : Appending view message p₀ s) (hi : (s.phase i).inFlight)
    (hp : (s.phase i).place = some p) (hj : s.phase j = .finished q) :
    view.offset q + view.length (message j) ≤ view.offset p := by
  rw [h.offset_eq hi hp]
  exact (h.inside hj).2

theorem finish_inFlight (h : Appending view message p₀ s) (hi : (s.phase i).inFlight) (p : π)
    (j : P) : (Function.update s.phase i (.finished p) j).inFlight = false := by
  by_cases hj : j = i
  · subst hj
    simp [Phase.inFlight]
  · simpa [hj] using h.others hi j hj

theorem fits (h : Appending view message p₀ s) (hroom : Room view message p₀)
    (hi : (s.phase i).inFlight) (hp : (s.phase i).place = some p) : view.Fits p (message i) := by
  have hoffset := h.offset_eq hi hp
  have hle := finishedLength_add_le (fun i => view.length (message i)) p
    (Phase.not_finished hi)
  obtain ⟨hnonneg,hlimit⟩ := hroom
  rw [← Nat.cast_sum] at hlimit
  exact ⟨by omega,by omega⟩

theorem move {shared : σ} {next : Phase π} (h : Appending view message p₀ s)
    (hi : (s.phase i).isFinished = false) (hothers : ∀ j, j ≠ i → (s.phase j).inFlight = false)
    (hnext : next.isFinished = false) (hfailed : next ≠ .failed)
    (hpointer : view.pointer shared = view.pointer s.shared)
    (hcurrent : ∀ p, next.place = some p → view.pointer s.shared = some p)
    (hadvanced : ∀ p q, next = .advanced p q →
      view.offset q = view.offset p + view.length (message i))
    (hwritten : ∀ p, next.written = some p → view.Written shared p (message i))
    (hkept : ∀ j p, s.phase j = .finished p → view.Written shared p (message j)) :
    Appending view message p₀ ⟨shared,Function.update s.phase i next⟩ := by
  have hlength := finishedLength_update_of_not (fun i => view.length (message i)) hi hnext
  have hflight : ∀ {j}, ((Function.update s.phase i next) j).inFlight → j = i := by
    intro j hj
    by_contra hne
    simp [hne,hothers j hne] at hj
  have hfinished : ∀ {j p}, Function.update s.phase i next j = .finished p →
      s.phase j = .finished p := by
    intro j p hj
    obtain ⟨rfl,rfl⟩ | ⟨-,hj⟩ := update_cases hj
    · cases hnext
    · exact hj
  refine ⟨fun hj hk => (hflight hj).trans (hflight hk).symm,?_,fun {j p} hj hp => ?_,
    fun {j p q} hj => ?_,fun {j p} hj => ?_,fun hj => ?_,
    fun hne hj hk => h.apart hne (hfinished hj) (hfinished hk),fun j hj => ?_⟩
  · rw [hlength,hpointer]
    exact h.pointer
  · obtain rfl := hflight hj
    rw [hpointer]
    exact hcurrent p (by simpa using hp)
  · obtain ⟨rfl,rfl⟩ | ⟨-,hj⟩ := update_cases hj
    · exact hadvanced p q rfl
    · exact h.next hj
  · by_cases hne : j = i
    · subst hne
      exact hwritten p (by simpa using hj)
    · exact hkept j p (Phase.finished_of_written (by simpa [hne] using hj) (hothers j hne))
  · rw [hlength]
    exact h.inside (hfinished hj)
  · obtain ⟨rfl,rfl⟩ | ⟨-,hj⟩ := update_cases hj
    · exact hfailed rfl
    · exact h.succeeds j hj

theorem recover (h : Appending view message p₀ s) (happends : Appends program view Admissible)
    (hserial : ∀ j, (s.phase j).inFlight = false) (hi : s.phase i = .start)
    (hp : (program.recover s.shared).1 = some p) :
    Appending view message p₀
      ⟨(program.recover s.shared).2,Function.update s.phase i (.recovered p)⟩ := by
  refine h.move (by rw [hi]; rfl) (fun j _ => hserial j) rfl (by simp)
    (happends.recover_pointer _) (fun p' hp' => ?_) (by simp) (by simp [Phase.written])
    fun j q hj => ?_
  · obtain rfl : p = p' := Option.some.inj hp'
    rw [← happends.recover,hp]
  · refine (h.written (by rw [hj]; rfl)).frame fun a _ _ => ?_
    rw [happends.recover_memory]

theorem copy (h : Appending view message p₀ s) (happends : Appends program view Admissible)
    (hadmissible : Admissible (message i)) (hroom : Room view message p₀)
    (hi : s.phase i = .recovered p) :
    Appending view message p₀
      ⟨(program.copy p (message i) s.shared).2,Function.update s.phase i (.copied p)⟩ := by
  have hflight : (s.phase i).inFlight := by rw [hi]; rfl
  have hplace : (s.phase i).place = some p := by rw [hi]; rfl
  have hfits := h.fits hroom hflight hplace
  refine h.move (by rw [hi]; rfl) (h.others hflight) rfl (by simp)
    (happends.copy_pointer _ hadmissible hfits)
    (fun p' hp' => ?_) (by simp) (fun p' hp' => ?_) fun j q hj => ?_
  · obtain rfl : p = p' := Option.some.inj hp'
    exact h.current hflight hplace
  · obtain rfl : p = p' := Option.some.inj hp'
    exact happends.copy_written _ hadmissible hfits
  · have hbefore := h.before hflight hplace hj
    refine (h.written (by rw [hj]; rfl)).frame fun a _ ha => ?_
    exact happends.copy_frame _ hadmissible hfits a (.inl (by omega))

theorem advance (h : Appending view message p₀ s) (happends : Appends program view Admissible)
    (hadmissible : Admissible (message i)) (hroom : Room view message p₀)
    (hi : s.phase i = .copied p) :
    Appending view message p₀ ⟨(program.advance p (message i) s.shared).2,
      Function.update s.phase i (.advanced p (program.advance p (message i) s.shared).1)⟩ := by
  have hflight : (s.phase i).inFlight := by rw [hi]; rfl
  have hplace : (s.phase i).place = some p := by rw [hi]; rfl
  have hpointer := h.current hflight hplace
  have hkept : ∀ j q, (s.phase j).written = some q →
      view.Written (program.advance p (message i) s.shared).2 q (message j) := by
    intro j q hj
    refine (h.written hj).frame fun a _ _ => ?_
    rw [happends.advance_memory]
  refine h.move (by rw [hi]; rfl) (h.others hflight) rfl (by simp) ?_ (fun p' hp' => ?_)
    (fun p' q hq => ?_) (fun p' hp' => ?_) fun j q hj => hkept j q (by rw [hj]; rfl)
  · rw [happends.advance_pointer _ hpointer,hpointer]
  · obtain rfl : p = p' := Option.some.inj hp'
    exact hpointer
  · obtain ⟨rfl,rfl⟩ := Phase.advanced.inj hq
    exact happends.advance _ hadmissible (h.fits hroom hflight hplace) hpointer
  · obtain rfl : p = p' := Option.some.inj hp'
    exact hkept i p (by rw [hi]; rfl)

theorem store (h : Appending view message p₀ s) (happends : Appends program view Admissible)
    (hi : s.phase i = .advanced p q) :
    Appending view message p₀
      ⟨program.store q s.shared,Function.update s.phase i (.finished p)⟩ := by
  have hflight : (s.phase i).inFlight := by rw [hi]; rfl
  have hplace : (s.phase i).place = some p := by rw [hi]; rfl
  have hoffset := h.offset_eq hflight hplace
  have hlength := finishedLength_finish (fun i => view.length (message i)) p
    (Phase.not_finished hflight)
  have hnone := h.finish_inFlight hflight p
  refine ⟨fun {j _} hj _ => ?_,⟨q,happends.store _,?_⟩,fun {j _} hj _ => ?_,fun {j _ _} hj => ?_,
    fun {j r} hj => ?_,fun {j r} hj => ?_,fun {j k r r'} hne hj hk => ?_,fun j hj => ?_⟩
  · exact absurd ((hnone j).symm.trans hj) Bool.false_ne_true
  · rw [h.next hi,hlength]
    push_cast
    omega
  · exact absurd ((hnone j).symm.trans hj) Bool.false_ne_true
  · exact absurd ((hnone j).symm.trans (congrArg Phase.inFlight hj)) Bool.false_ne_true
  · have hold : (s.phase j).written = some r := by
      by_cases hne : j = i
      · subst hne
        simpa [hi,Phase.written] using hj
      · simpa [hne] using hj
    refine (h.written hold).frame fun a _ _ => ?_
    rw [happends.store_memory]
  · rw [hlength]
    push_cast
    obtain ⟨rfl,heq⟩ | ⟨-,hold⟩ := update_cases hj
    · obtain rfl := Phase.finished.inj heq
      exact ⟨by omega,by omega⟩
    · obtain ⟨hge,hle⟩ := h.inside hold
      exact ⟨hge,by omega⟩
  · obtain ⟨rfl,heq⟩ | ⟨-,holdj⟩ := update_cases hj
    · obtain rfl := Phase.finished.inj heq
      obtain ⟨rfl,-⟩ | ⟨-,holdk⟩ := update_cases hk
      · exact absurd rfl hne
      · exact .inr (h.before hflight hplace holdk)
    · obtain ⟨rfl,heq⟩ | ⟨-,holdk⟩ := update_cases hk
      · obtain rfl := Phase.finished.inj heq
        exact .inl (h.before hflight hplace holdj)
      · exact h.apart hne holdj holdk
  · obtain ⟨rfl,heq⟩ | ⟨-,hj⟩ := update_cases hj
    · cases heq
    · exact h.succeeds j hj

end Appending

variable {start : σ}

/-- Processes that recover the pointer one after the other append. -/
theorem appending_of_serial (happends : Appends program view Admissible)
    (hadmissible : ∀ i, Admissible (message i)) (hroom : Room view message p₀)
    (hstart : view.pointer start = some p₀)
    (h : (machine program message start).Reachable Serial s) : Appending view message p₀ s := by
  apply h.invariant (I := Appending view message p₀) (Appending.init hstart)
  intro s i s' _ ih hserial hs
  cases move_cases hs with
  | recover hi hp => exact ih.recover happends (hserial hi) hi hp
  | recoverFails hi hp =>
    obtain ⟨p,hpointer,-⟩ := ih.pointer
    rw [happends.recover,hpointer] at hp
    cases hp
  | copy hi hcopy => exact ih.copy happends (hadmissible i) hroom hi
  | copyFails hi hcopy =>
    have hfits := ih.fits hroom (by rw [hi]; rfl) (by rw [hi]; rfl)
    rw [happends.copy _ (hadmissible i) hfits] at hcopy
    cases hcopy
  | advance hi => exact ih.advance happends (hadmissible i) hroom hi
  | store hi => exact ih.store happends hi

/-- Every message is in the memory, no two overlap, and the stored pointer has moved by their
length. -/
def Appended (view : View σ π μ β) (message : P → μ) (p₀ : π) (s : State σ π P) : Prop :=
  ∃ place : P → π, (∀ i, s.phase i = .finished (place i)) ∧
    (∀ i, view.Fits (place i) (message i) ∧ view.Written s.shared (place i) (message i)) ∧
    (∀ i j, i ≠ j → view.Apart (place i) (message i) (place j) (message j)) ∧
    ∃ p, view.pointer s.shared = some p ∧
      view.offset p = view.offset p₀ + ∑ i, (view.length (message i) : ℤ)

omit [DecidableEq P] in
theorem Appending.appended (h : Appending view message p₀ s) (hroom : Room view message p₀)
    (hended : Ended s) : Appended view message p₀ s := by
  have hfinished : ∀ i, ∃ p, s.phase i = .finished p := by
    intro i
    have hi := hended i
    cases hphase : s.phase i with
    | finished p => exact ⟨p,rfl⟩
    | failed => exact absurd hphase (h.succeeds i)
    | _ => simp [hphase,Phase.ended] at hi
  choose place hplace using hfinished
  have htotal : finishedLength (fun i => view.length (message i)) s.phase =
      ∑ i, view.length (message i) := by
    refine Finset.sum_congr rfl fun i _ => ?_
    rw [hplace i,Phase.finishedLength_finished]
  obtain ⟨hnonneg,hlimit⟩ := hroom
  rw [← Nat.cast_sum] at hlimit
  refine ⟨place,hplace,fun i => ⟨?_,h.written (by rw [hplace i]; rfl)⟩,
    fun i j hij => h.apart hij (hplace i) (hplace j),?_⟩
  · obtain ⟨hge,hle⟩ := h.inside (hplace i)
    rw [htotal] at hle
    exact ⟨by omega,by omega⟩
  · obtain ⟨p,hp,hoffset⟩ := h.pointer
    exact ⟨p,hp,by rw [hoffset,htotal,Nat.cast_sum]⟩

end Serial

section Overlapping

variable {program : Program σ π μ} {view : View σ π μ β} {Admissible : μ → Prop}
  {message : P → μ} {start : σ} {p₀ p : π} {s s' : State σ π P} {i j : P}

/-- Two processes have recovered one pointer, or one has failed. -/
inductive Overlapping (s : State σ π P) : Prop
  | failed (i : P) (hi : s.phase i = .failed)
  | shared (i j : P) (p : π) (hij : i ≠ j) (hi : (s.phase i).place = some p)
      (hj : (s.phase j).place = some p)

theorem Moves.place (h : Moves program message s i s') (hj : (s.phase j).place = some p) :
    (s'.phase j).place = some p ∨ s'.phase j = .failed := by
  by_cases hji : j = i
  · subst hji
    cases h with
    | recover hi h => simp [hi,Phase.place] at hj
    | recoverFails hi h => exact .inr (by simp)
    | copy hi h => exact .inl (by simpa [hi,Phase.place] using hj)
    | copyFails hi h => exact .inr (by simp)
    | advance hi => exact .inl (by simpa [hi,Phase.place] using hj)
    | store hi => exact .inl (by simpa [hi,Phase.place] using hj)
  · left
    cases h <;> simpa [hji] using hj

theorem Moves.failed (h : Moves program message s i s') (hj : s.phase j = .failed) :
    s'.phase j = .failed := by
  have hji : j ≠ i := by
    rintro rfl
    cases h <;> simp_all
  cases h <;> simpa [hji] using hj

theorem Overlapping.step (hs : Overlapping s) (h : Moves program message s i s') :
    Overlapping s' := by
  cases hs with
  | failed i hi => exact .failed i (h.failed hi)
  | shared i j p hij hi hj =>
    obtain hi | hi := h.place hi
    · obtain hj | hj := h.place hj
      · exact .shared i j p hij hi hj
      · exact .failed j hj
    · exact .failed i hi

omit [DecidableEq P] in
/-- Messages that are not empty do not both fit apart at one pointer. -/
theorem Overlapping.not_appended [Fintype P] (hs : Overlapping s)
    (hmessage : ∀ i, 0 < view.length (message i)) : ¬ Appended view message p₀ s := by
  rintro ⟨place,hplace,-,hapart,-⟩
  cases hs with
  | failed i hi =>
    rw [hplace i] at hi
    cases hi
  | shared i j p hij hi hj =>
    rw [hplace i] at hi
    rw [hplace j] at hj
    obtain rfl : place i = p := Option.some.inj hi
    have heq : place j = place i := Option.some.inj hj
    have hposi := hmessage i
    have hposj := hmessage j
    obtain hle | hle := hapart i j hij
    · rw [heq] at hle
      omega
    · rw [heq] at hle
      omega

/-- A process that recovers the pointer while another is in flight recovers the same one. -/
theorem overlapping_of_not_serial [Fintype P] (happends : Appends program view Admissible)
    (h : Appending view message p₀ s) (hserial : ¬ Serial s i)
    (hs : Moves program message s i s') : Overlapping s' := by
  simp only [Serial,Classical.not_imp,not_forall,Bool.not_eq_false] at hserial
  obtain ⟨hi,j,hj⟩ := hserial
  have hji : j ≠ i := by
    rintro rfl
    simp [hi,Phase.inFlight] at hj
  obtain ⟨p,hp⟩ : ∃ p, (s.phase j).place = some p := by
    cases hphase : s.phase j <;> simp [hphase,Phase.inFlight] at hj <;> exact ⟨_,rfl⟩
  have hpointer := h.current hj hp
  cases hs with
  | @recover q hi' hq =>
    rw [happends.recover,hpointer] at hq
    obtain rfl : p = q := Option.some.inj hq
    exact .shared i j p hji.symm (by simp [Phase.place]) (by simpa [hji] using hp)
  | recoverFails hi' hq =>
    rw [happends.recover,hpointer] at hq
    cases hq
  | copy hi' => simp [hi] at hi'
  | copyFails hi' => simp [hi] at hi'
  | advance hi' => simp [hi] at hi'
  | store hi' => simp [hi] at hi'

omit [DecidableEq P] in
theorem Overlapping.reaches [DecidableEq P] (hs : Overlapping s)
    (hrun : (machine program message start).Reaches (fun _ _ => True) s s') : Overlapping s' := by
  induction hrun with
  | refl => exact hs
  | tail _ hnext ih =>
    obtain ⟨i,-,hstep⟩ := hnext
    exact ih.step (move_cases hstep)

/-- Where the messages fit from the stored pointer on, processes that have ended have appended them
if they recovered the pointer one after the other, and, when no message is empty, only then. -/
theorem appended_iff_serial [Fintype P] [DecidableEq π] (happends : Appends program view Admissible)
    (hadmissible : ∀ i, Admissible (message i)) (hroom : Room view message p₀)
    (hstart : view.pointer start = some p₀) {schedule : List P}
    (h : Runs program message start (fun _ _ => True) schedule s) (hended : Ended s) :
    (Runs program message start Serial schedule s → Appended view message p₀ s) ∧
      ((∀ i, 0 < view.length (message i)) → Appended view message p₀ s →
        Runs program message start Serial schedule s) := by
  refine ⟨fun hserial => ?_,fun hmessage happended => ?_⟩
  · have happending := appending_of_serial happends hadmissible hroom hstart
      (Machine.reachable_of_exec .init hserial)
    exact happending.appended hroom hended
  · obtain hserial | ⟨u,v,i,hu,hi,hv,hrun⟩ := Machine.exec_or_leaves Serial h
    · exact hserial
    · -- the first recovery that meets another process, up to which the run appends
      have happending := appending_of_serial happends hadmissible hroom hstart hu
      have hover := overlapping_of_not_serial happends happending hi (move_cases hv)
      exact absurd happended ((hover.reaches hrun).not_appended hmessage)

end Overlapping

end StoredPointerLog
end Potimizer

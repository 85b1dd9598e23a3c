import Potimizer.AggregatorMachine

/-! What every run of the aggregator keeps about its threads: only the call on top of a stack
executes the aggregator's own code, the monitor counts the calls inside it, and the history names
every call once. -/
namespace Potimizer
namespace AggregatorMachine

open StepMachine ReentrantMonitor

section Stacks

/-- How far a call has come: before its lookup, after a missed lookup, after its put. -/
inductive Stage
  | looking
  | missed
  | registered
  deriving DecidableEq

def Pc.stage {T R : Type} : Pc T R → Stage
  | .get => .looking
  | .put => .missed
  | _ => .registered

inductive Advance {T R Tid : Type} (history : List (Event T R Tid)) (k : T) (c : CallId) :
    Stage → Stage → Prop
  | stay {stage} : Advance history k c stage stage
  | miss (h : .get c k c ∈ history) : Advance history k c .looking .missed
  | put {o} (h : .put k c o ∈ history) : Advance history k c .missed .registered

/-- What a step does to its thread's stack, where `New` is known of a call that begins. -/
inductive Restack {T R Tid : Type} (New : Frame T R → Prop) (history : List (Event T R Tid))
    (stack : List (Frame T R)) : List (Frame T R) → Prop
  | push {f} (h : canSend stack) (hf : New f) : Restack New history stack (f :: stack)
  | move {k c pc pc' rest} (h : stack = ⟨k,c,pc⟩ :: rest)
      (hpc : Advance history k c pc.stage pc'.stage) :
      Restack New history stack (⟨k,c,pc'⟩ :: rest)
  | pop {f rest} (h : stack = f :: rest) : Restack New history stack rest

variable {T R Tid : Type} {f g : Frame T R} {stack stack' : List (Frame T R)}
  {New : Frame T R → Prop} {history : List (Event T R Tid)}

theorem Restack.mem (h : Restack New history stack stack') (hg : g ∈ stack') :
    New g ∨ ∃ pc, ⟨g.request,g.call,pc⟩ ∈ stack ∧
      Advance history g.request g.call pc.stage g.pc.stage := by
  cases h with
  | push h hf =>
    obtain rfl | hg := List.mem_cons.mp hg
    · exact .inl hf
    · exact .inr ⟨g.pc,hg,.stay⟩
  | @move k c pc pc' rest h hpc =>
    obtain rfl | hg := List.mem_cons.mp hg
    · exact .inr ⟨pc,by simp [h],hpc⟩
    · exact .inr ⟨g.pc,by simp [h,hg],.stay⟩
  | pop h => exact .inr ⟨g.pc,by simp [h,hg],.stay⟩

theorem Advance.registered {k : T} {c : CallId} {stage stage' : Stage}
    (h : Advance history k c stage stage') (hstage : stage = .registered) :
    stage' = .registered := by
  subst hstage
  cases h
  rfl

theorem Advance.looking {k : T} {c : CallId} {stage stage' : Stage}
    (h : Advance history k c stage stage') (hstage : stage' = .looking) : stage = .looking := by
  subst hstage
  cases h
  rfl

theorem Pc.stage_of_callsOut {pc : Pc T R} (h : pc.callsOut = true) : pc.stage = .registered := by
  cases pc <;> first | rfl | cases h

/-- A call that is not on top of its stack waits in foreign code. -/
def Suspended (stack : List (Frame T R)) : Prop := ∀ g ∈ stack.tail, g.pc.callsOut = true

theorem Restack.suspended (h : Restack New history stack stack') (hs : Suspended stack) :
    Suspended stack' := by
  cases h with
  | push h hf =>
    cases stack with
    | nil => simp [Suspended]
    | cons f rest =>
      rintro g (_|⟨_,hg⟩)
      · exact h
      · exact hs g hg
  | move h hpc =>
    subst h
    exact hs
  | pop h =>
    subst h
    exact fun g hg => hs g (List.mem_of_mem_tail hg)

/-- Only the call on top of a stack executes the aggregator's code. -/
theorem Suspended.top (hs : Suspended stack) (hf : f ∈ stack) (hpc : f.pc.callsOut = false) :
    ∃ rest, stack = f :: rest := by
  cases stack with
  | nil => simp at hf
  | cons g rest =>
    obtain rfl | hf := List.mem_cons.mp hf
    · exact ⟨rest,rfl⟩
    · simp [hs f hf] at hpc

def Pc.inside : Pc T R → Bool
  | .get => false
  | .put => false
  | .acquire => false
  | _ => true

def inside (stack : List (Frame T R)) : ℕ := stack.countP (·.pc.inside)

@[simp] theorem inside_nil : inside ([] : List (Frame T R)) = 0 := rfl

@[simp] theorem inside_cons : inside (f :: stack) = inside stack + if f.pc.inside then 1 else 0 :=
  List.countP_cons

theorem inside_pos (hf : f ∈ stack) (hpc : f.pc.inside = true) : 0 < inside stack :=
  List.countP_pos_iff.mpr ⟨f,hf,hpc⟩

theorem Fails.inside {t : Tid} {a : Action T R Tid} {pc : Pc T R} (h : Fails t a pc) :
    pc.inside = true := by
  cases h <;> rfl

end Stacks

variable {T R Tid : Type} {s s' : State T R Tid} {t u : Tid} {f g : Frame T R}
  {stack : List (Frame T R)}

theorem mem_top (ht : s.threads t = f :: stack) : f ∈ s.threads t := ht ▸ List.mem_cons_self

variable [DecidableEq Tid]

/-- The monitor knows which calls are inside it. -/
def MonitorCounts (s : State T R Tid) : Prop := ∀ t, s.monitor.entries t = inside (s.threads t)

theorem MonitorCounts.update {monitor : Monitor Tid} (hs : MonitorCounts s)
    (ht : monitor.entries t = inside stack)
    (hother : ∀ u, t ≠ u → monitor.entries u = s.monitor.entries u) (u : Tid) :
    monitor.entries u = inside (Function.update s.threads t stack u) := by
  by_cases hu : u = t
  · subst hu
    simpa using ht
  · simpa [hu] using (hother u (Ne.symm hu)).trans (hs u)

theorem MonitorCounts.exit (hs : MonitorCounts s) (ht : s.monitor.entries t = inside stack + 1)
    (u : Tid) : s.monitor.exit.entries u = inside (Function.update s.threads t stack u) := by
  have hpos : 0 < s.monitor.entries t := by simp [ht]
  refine hs.update ?_ (fun u hu => ?_) u
  · have hexit := Monitor.entries_exit (u := t) hpos
    simp only [if_true] at hexit
    omega
  · simpa [hu] using Monitor.entries_exit (u := u) hpos

/-- The monitor excludes: calls inside it are on one thread. -/
theorem MonitorCounts.exclusive (hs : MonitorCounts s) (hf : f ∈ s.threads t)
    (hg : g ∈ s.threads u) (hfi : f.pc.inside = true) (hgi : g.pc.inside = true) : t = u :=
  Monitor.entries_exclusive ((hs t).symm ▸ inside_pos hf hfi) ((hs u).symm ▸ inside_pos hg hgi)

theorem mem_push (hg : g ∈ Function.update s.threads t (f :: s.threads t) u) :
    g = f ∧ u = t ∨ g ∈ s.threads u := by
  by_cases hu : u = t
  · subst hu
    simpa using hg
  · exact .inr (by simpa [hu] using hg)

theorem mem_move {f' : Frame T R} (hg : g ∈ Function.update s.threads t (f' :: stack) u) :
    g = f' ∧ u = t ∨ g ∈ stack ∧ u = t ∨ g ∈ s.threads u ∧ u ≠ t := by
  by_cases hu : u = t
  · subst hu
    simpa using hg
  · exact .inr (.inr ⟨by simpa [hu] using hg,hu⟩)

theorem mem_moved {f' : Frame T R} (ht : s.threads t = f :: stack)
    (hg : g ∈ Function.update s.threads t (f' :: stack) u) :
    g = f' ∧ u = t ∨ g ∈ s.threads u := by
  obtain htop | ⟨hrest,rfl⟩ | ⟨hother,-⟩ := mem_move hg
  · exact .inl htop
  · exact .inr (by simp [ht,hrest])
  · exact .inr hother

theorem mem_popped (ht : s.threads t = f :: stack) (hg : g ∈ Function.update s.threads t stack u) :
    g ∈ s.threads u := by
  by_cases hu : u = t
  · subst hu
    exact ht ▸ List.mem_cons_of_mem _ (by simpa using hg)
  · simpa [hu] using hg

theorem mem_moved_iff {f' : Frame T R} (ht : s.threads t = f :: stack) (hf : g ≠ f)
    (hf' : g ≠ f') : g ∈ Function.update s.threads t (f' :: stack) u ↔ g ∈ s.threads u := by
  by_cases hu : u = t
  · subst hu
    simp [ht,hf,hf']
  · simp [hu]

theorem mem_popped_iff (ht : s.threads t = f :: stack) (hf : g ≠ f) :
    g ∈ Function.update s.threads t stack u ↔ g ∈ s.threads u := by
  by_cases hu : u = t
  · subst hu
    simp [ht,hf]
  · simp [hu]

theorem mem_push_iff (hf : g ≠ f) :
    g ∈ Function.update s.threads t (f :: s.threads t) u ↔ g ∈ s.threads u := by
  by_cases hu : u = t
  · subst hu
    simp [hf]
  · simp [hu]

theorem mem_of_push {f' : Frame T R} (hf : f ∈ s.threads u) :
    f ∈ Function.update s.threads t (f' :: s.threads t) u := by
  by_cases hu : u = t
  · subst hu
    simp [hf]
  · simpa [hu] using hf

theorem mem_of_move (f' : Frame T R) (ht : s.threads t = g :: stack) (hf : f ∈ s.threads u) :
    f = g ∧ u = t ∨ f ∈ Function.update s.threads t (f' :: stack) u := by
  by_cases hu : u = t
  · subst hu
    obtain rfl | hf := List.mem_cons.mp (ht ▸ hf)
    · exact .inl ⟨rfl,rfl⟩
    · exact .inr (by simp [hf])
  · exact .inr (by simpa [hu] using hf)

theorem mem_of_pop (ht : s.threads t = g :: stack) (hf : f ∈ s.threads u) :
    f = g ∧ u = t ∨ f ∈ Function.update s.threads t stack u := by
  by_cases hu : u = t
  · subst hu
    obtain rfl | hf := List.mem_cons.mp (ht ▸ hf)
    · exact .inl ⟨rfl,rfl⟩
    · exact .inr (by simpa using hf)
  · exact .inr (by simpa [hu] using hf)

variable [DecidableEq T] {a : Action T R Tid} {k k' : T} {c : CallId}
  {ok : State T R Tid → Action T R Tid → Prop}

theorem Silent.stage {pc pc' : Pc T R} {monitor : Monitor Tid} (h : Silent s t pc pc' monitor) :
    pc.stage = .registered ∧ pc'.stage = .registered := by
  cases h <;> exact ⟨rfl,rfl⟩

omit [DecidableEq Tid] [DecidableEq T] in
theorem Fails.thread {t : Tid} (h : Fails t a f.pc) : a.thread = t ∧ f.pc ≠ .get := by
  generalize f.pc = pc at h
  cases h <;> simp [Action.thread]

theorem Step.restack (h : Step s a s') : ∃ stack,
    Restack (fun f => f.call = s.calls ∧ f.pc = .get ∧ .send a.thread f.call f.request ∈ s'.history)
      s'.history (s.threads a.thread) stack ∧
        s'.threads = Function.update s.threads a.thread stack := by
  cases h with
  | send h => exact ⟨_,.push h ⟨rfl,rfl,List.mem_cons_self⟩,rfl⟩
  | hit ht h => exact ⟨_,.pop ht,rfl⟩
  | miss ht h => exact ⟨_,.move ht (by exact .miss List.mem_cons_self),rfl⟩
  | put ht => exact ⟨_,.move ht (by exact .put List.mem_cons_self),rfl⟩
  | silent ht h =>
    refine ⟨_,.move ht ?_,rfl⟩
    rw [h.stage.1,h.stage.2]
    exact .stay
  | apply ht => exact ⟨_,.move ht (by exact .stay),rfl⟩
  | applyReturn ht => exact ⟨_,.move ht (by exact .stay),rfl⟩
  | remove ht hrequest hresponse h => exact ⟨_,.move ht (by exact .stay),rfl⟩
  | complete ht => exact ⟨_,.move ht (by exact .stay),rfl⟩
  | release ht => exact ⟨_,.pop ht,rfl⟩
  | fail ht h =>
    obtain ⟨rfl,-⟩ := h.thread
    exact ⟨_,.pop ht,rfl⟩

theorem reachable_suspended (h : (machine T R Tid).Reachable ok s) :
    ∀ t, Suspended (s.threads t) := by
  apply h.invariant (I := fun s => ∀ t, Suspended (s.threads t))
  · simp [machine,Suspended]
  · intro s a s' _ ih _ hs u
    obtain ⟨stack,hstack,hthreads⟩ := (step_cases hs).restack
    generalize a.thread = t at hstack hthreads
    rw [hthreads]
    by_cases hu : u = t
    · subst hu
      simpa using hstack.suspended (ih u)
    · simpa [hu] using ih u

theorem Silent.inside {pc pc' : Pc T R} {monitor : Monitor Tid} (h : Silent s t pc pc' monitor) :
    pc'.inside = true ∧ (s.monitor.enter t = some monitor ∧ pc = .acquire ∨
      monitor = s.monitor ∧ pc.inside = true) := by
  cases h with
  | acquire h => exact ⟨rfl,.inl ⟨h,rfl⟩⟩
  | _ => exact ⟨rfl,.inr ⟨rfl,rfl⟩⟩

theorem Step.monitorCounts (h : Step s a s') (hs : MonitorCounts s) : MonitorCounts s' := by
  have hcount : ∀ {t stack}, s.threads t = stack → s.monitor.entries t = inside stack := by
    rintro t _ rfl
    exact hs t
  cases h with
  | @send t k h => exact hs.update (by simpa [Pc.inside] using hs t) fun _ _ => rfl
  | hit ht h => exact hs.update (by simpa [Pc.inside] using hcount ht) fun _ _ => rfl
  | miss ht h => exact hs.update (by simpa [Pc.inside] using hcount ht) fun _ _ => rfl
  | put ht => exact hs.update (by simpa [Pc.inside] using hcount ht) fun _ _ => rfl
  | @silent a k c pc pc' monitor rest ht h =>
    obtain ⟨hpc',⟨hm,rfl⟩ | ⟨rfl,hpc⟩⟩ := h.inside
    · have hentries : s.monitor.entries a.thread = inside rest := by simpa [Pc.inside] using hcount ht
      refine hs.update ?_ fun u hu => ?_
      · simp [hpc',hentries,Monitor.entries_enter hm]
      · simp [Monitor.entries_enter hm,hu]
    · exact hs.update (by simpa [hpc,hpc'] using hcount ht) fun _ _ => rfl
  | apply ht => exact hs.update (by simpa [Pc.inside] using hcount ht) fun _ _ => rfl
  | applyReturn ht => exact hs.update (by simpa [Pc.inside] using hcount ht) fun _ _ => rfl
  | remove ht hrequest hresponse h =>
    exact hs.update (by simpa [Pc.inside] using hcount ht) fun _ _ => rfl
  | complete ht => exact hs.update (by simpa [Pc.inside] using hcount ht) fun _ _ => rfl
  | @release t k c rest ht =>
    have hentries : s.monitor.entries t = inside rest + 1 := by simpa [Pc.inside] using hcount ht
    exact hs.exit hentries
  | @fail a t f rest ht h =>
    have hentries : s.monitor.entries t = inside rest + 1 := by simpa [h.inside] using hcount ht
    exact hs.exit hentries

theorem reachable_monitorCounts (h : (machine T R Tid).Reachable ok s) : MonitorCounts s :=
  h.invariant (fun _ => rfl) fun _ _ _ _ ih _ hs => (step_cases hs).monitorCounts ih

theorem Step.history_mono (h : Step s a s') {e : Event T R Tid} (he : e ∈ s.history) :
    e ∈ s'.history := by
  cases h <;> simp [he]

/-- Every call in progress was made by its thread, and no two calls have one name. -/
structure Named (s : State T R Tid) : Prop where
  sent : ∀ t, ∀ f ∈ s.threads t, .send t f.call f.request ∈ s.history
  fresh : ∀ {t c k}, .send t c k ∈ s.history → c < s.calls
  unique : ∀ {t u c k k'}, .send t c k ∈ s.history → .send u c k' ∈ s.history → t = u ∧ k = k'

theorem Step.sent (h : Step s a s') (hs : Named s) (t : Tid) :
    ∀ f ∈ s'.threads t, .send t f.call f.request ∈ s'.history := by
  intro f hf
  obtain ⟨stack,hstack,hthreads⟩ := h.restack
  generalize a.thread = u at hstack hthreads
  rw [hthreads] at hf
  by_cases ht : t = u
  · subst ht
    obtain ⟨-,-,hnew⟩ | ⟨pc,hold,-⟩ := hstack.mem (by simpa using hf)
    · exact hnew
    · have hsent := hs.sent t _ hold
      exact h.history_mono hsent
  · exact h.history_mono (hs.sent t f (by simpa [ht] using hf))

/-- A call in progress has just begun, or was in progress and may have advanced. -/
theorem Step.frame_cases (h : Step s a s') (hg : g ∈ s'.threads u) :
    g.call = s.calls ∧ g.pc = .get ∨ ∃ pc, ⟨g.request,g.call,pc⟩ ∈ s.threads u ∧
      Advance s'.history g.request g.call pc.stage g.pc.stage := by
  obtain ⟨stack,hstack,hthreads⟩ := h.restack
  generalize a.thread = t at hstack hthreads
  rw [hthreads] at hg
  by_cases hu : u = t
  · subst hu
    obtain ⟨hcall,hpc,-⟩ | hold := hstack.mem (by simpa using hg)
    · exact .inl ⟨hcall,hpc⟩
    · exact .inr hold
  · exact .inr ⟨g.pc,by simpa [hu] using hg,.stay⟩

theorem Step.named (h : Step s a s') (hs : Named s) : Named s' := by
  refine ⟨h.sent hs,?_,?_⟩
  · cases h with
    | send h =>
      rintro t c k (_|⟨_,hc⟩)
      · exact Nat.lt_succ_self _
      · exact Nat.lt_succ_of_lt (hs.fresh hc)
    | _ => simpa using @hs.fresh
  · cases h with
    | send h =>
      rintro t u c k k' (_|⟨_,hc⟩) (_|⟨_,hc'⟩)
      · exact ⟨rfl,rfl⟩
      · exact absurd (hs.fresh hc') (lt_irrefl _)
      · exact absurd (hs.fresh hc) (lt_irrefl _)
      · exact hs.unique hc hc'
    | _ => simpa using @hs.unique

theorem reachable_named (h : (machine T R Tid).Reachable ok s) : Named s :=
  h.invariant ⟨by simp [machine],by simp [machine],by simp [machine]⟩
    fun _ _ _ _ ih _ hs => (step_cases hs).named ih

def Distinct (s : State T R Tid) : Prop := ∀ t, ((s.threads t).map Frame.call).Nodup

theorem Step.distinct (h : Step s a s') (hs : Distinct s) (hn : Named s) : Distinct s' := by
  intro u
  obtain ⟨stack,hstack,hthreads⟩ := h.restack
  generalize a.thread = t at hstack hthreads
  rw [hthreads]
  by_cases hu : u = t
  · subst hu
    have hold := hs u
    rw [Function.update_self]
    cases hstack with
    | push h hf =>
      refine List.nodup_cons.mpr ⟨fun hmem => ?_,hold⟩
      obtain ⟨g,hg,hcall⟩ := List.mem_map.mp hmem
      have hlt := hn.fresh (hn.sent u g hg)
      exact absurd (hcall.trans hf.1) hlt.ne
    | move h hpc => simpa [h] using hold
    | pop h =>
      rw [h] at hold
      exact (List.nodup_cons.mp hold).2
  · simpa [hu] using hs u

theorem reachable_distinct (h : (machine T R Tid).Reachable ok s) : Distinct s :=
  h.invariant (fun _ => List.nodup_nil) fun _ _ _ hr ih _ hs =>
    (step_cases hs).distinct ih (reachable_named hr)

end AggregatorMachine
end Potimizer

import Potimizer.AggregatorProgress
import Potimizer.AggregatorSnapshots

/-! The dependent actions of a future run while its batch is being distributed. A call they make finds
the monitor re-entrant: if its lookup misses, a nested batch lists again every request of the outer
snapshot that still waits for its response. -/
namespace Potimizer
namespace AggregatorMachine

open StepMachine ReentrantMonitor

variable {T R Tid : Type} [DecidableEq T] [DecidableEq Tid] {s s' s₀ s₁ s₂ : State T R Tid}
  {t u : Tid} {a : Action T R Tid} {k : T} {c call : CallId} {request : T} {requestList l : List T}
  {i : ℕ} {f g : Frame T R} {below nested stack rest : List (Frame T R)} {e : Event T R Tid}
  {past history : List (Event T R Tid)} {New : Frame T R → Prop}
  {ok : State T R Tid → Action T R Tid → Prop}

section Positions

theorem Step.history_suffix (h : Step s a s') : s.history <:+ s'.history := by
  cases h with
  | hit ht h => exact (List.suffix_cons _ _).trans (List.suffix_cons _ _)
  | silent ht h => exact List.suffix_rfl
  | _ => exact List.suffix_cons _ _

theorem history_suffix (hrun : (machine T R Tid).Reaches ok s s') : s.history <:+ s'.history := by
  induction hrun with
  | refl => exact List.suffix_rfl
  | tail _ hnext ih =>
    obtain ⟨a,-,hstep⟩ := hnext
    exact ih.trans (step_cases hstep).history_suffix

/-- The event was recorded on the way from `s₁` to `s`, when the history was `past`. -/
def Recorded (s₁ s : State T R Tid) (e : Event T R Tid) (past : List (Event T R Tid)) : Prop :=
  s₁.history <:+ past ∧ e :: past <:+ s.history

omit [DecidableEq T] [DecidableEq Tid] in
theorem exists_recorded (hsince : s₁.history <:+ s.history) (he : e ∈ s.history)
    (hnew : e ∉ s₁.history) : ∃ past, Recorded s₁ s e past := by
  obtain ⟨recent,hrecent⟩ := hsince
  rw [← hrecent] at he
  obtain ⟨newer,older,rfl⟩ :=
    List.append_of_mem ((List.mem_append.mp he).resolve_right hnew)
  exact ⟨older ++ s₁.history,List.suffix_append _ _,newer,by simpa using hrecent⟩

theorem Recorded.step (he : Recorded s₁ s e past) (h : Step s a s') : Recorded s₁ s' e past :=
  ⟨he.1,he.2.trans h.history_suffix⟩

theorem Step.recorded_apply (h : Step s a s') (hl : Recorded s₁ s' (.apply l) past) :
    Recorded s₁ s (.apply l) past ∨
      past = s.history ∧ ∃ k c rest, s.threads a.thread = ⟨k,c,.apply l⟩ :: rest := by
  obtain ⟨hsince,hl⟩ := hl
  cases h with
  | @apply t k c requestList rest ht =>
    obtain heq | hl := List.suffix_cons_iff.mp hl
    · obtain ⟨⟨rfl⟩,rfl⟩ := List.cons.inj heq
      exact .inr ⟨rfl,k,c,rest,ht⟩
    · exact .inl ⟨hsince,hl⟩
  | silent ht h => exact .inl ⟨hsince,hl⟩
  | _ =>
    left
    simpa [Recorded,List.suffix_cons_iff,hsince] using hl

theorem Step.recorded_miss (h : Step s a s') (hreg : Registered s)
    (hl : Recorded s₁ s' (.get call request call) past) :
    Recorded s₁ s (.get call request call) past ∨ past = s.history ∧ ∃ rest,
      s.threads a.thread = ⟨request,call,.get⟩ :: rest ∧
        s'.threads a.thread = ⟨request,call,.put⟩ :: rest ∧
          s'.history = .get call request call :: s.history := by
  obtain ⟨hsince,hl⟩ := hl
  cases h with
  | @miss t k c rest ht h =>
    obtain heq | hl := List.suffix_cons_iff.mp hl
    · obtain ⟨⟨rfl⟩,rfl⟩ := List.cons.inj heq
      exact .inr ⟨rfl,rest,ht,by simp [Action.thread],rfl⟩
    · exact .inl ⟨hsince,hl⟩
  | @hit t k c rest future ht h =>
    have hne : c ≠ future := by
      rintro rfl
      obtain ⟨⟨o,ho⟩,-⟩ := hreg.cached h
      exact hreg.unput t _ (mem_top ht) (by simp [Pc.stage]) k o ho
    left
    obtain heq | hl := List.suffix_cons_iff.mp hl
    · cases (List.cons.inj heq).1
    · obtain heq | hl := List.suffix_cons_iff.mp hl
      · cases (List.cons.inj heq).1
        exact absurd rfl hne
      · exact ⟨hsince,hl⟩
  | silent ht h => exact .inl ⟨hsince,hl⟩
  | _ =>
    left
    simpa [Recorded,List.suffix_cons_iff,hsince] using hl

omit [DecidableEq Tid] in
theorem Waiting.of_suffix (h : Waiting s₀ history k) (hsince : s₀.history <:+ past)
    (hpast : past <:+ history) : Waiting s₀ past k :=
  le_antisymm (hpast.sublist.countP_le.trans h.le) hsince.sublist.countP_le

end Positions

/-- The batch function was passed `k` on the way from `s₁` to `s` while it was waiting. -/
def Resent (s₀ s₁ s : State T R Tid) (k : T) : Prop :=
  ∃ l past, Recorded s₁ s (.apply l) past ∧ k ∈ l ∧ Waiting s₀ past k

/-- On the way from `s₁` to `s` a lookup of the thread missed while `k` was waiting. -/
def MissedWhileWaiting (s₀ s₁ s : State T R Tid) (t : Tid) (k : T) : Prop :=
  ∃ call request past, Recorded s₁ s (.get call request call) past ∧
    .send t call request ∈ s.history ∧ Waiting s₀ past k

/-- While the stack of the thread is `below`, the call on top of it does not go on. -/
def Suspends (t : Tid) (below : List (Frame T R)) (s : State T R Tid) (a : Action T R Tid) : Prop :=
  s.threads t = below → a.thread = t → a.isSend = true

/-- The dependent actions of the request at `i`, or some of them, run from `s₁` to `s₂`: the call that
took the snapshot `requestList` in the state `s₀` is inside `complete` on top of the stack of its
thread, first and last, and does not go on in between, so that the calls made by the actions, at any
depth, run above it and end. -/
structure DependentAction (s₀ s₁ s₂ : State T R Tid) (t : Tid) (requestList : List T) (i : ℕ) :
    Prop where
  distributes : (machine T R Tid).Reaches (fun _ _ => True) s₀ s₁
  completing : ∃ k c responses rest, SnapshotTaken t k c requestList s₀ ∧
    s₁.threads t = ⟨k,c,.completing requestList responses i⟩ :: rest
  acts : (machine T R Tid).Reaches (Suspends t (s₁.threads t)) s₁ s₂
  ended : s₂.threads t = s₁.threads t

section Acting

omit [DecidableEq T] [DecidableEq Tid] in
/-- A stack keeps its lower part while a call above it goes on, and the calls above it are its own. -/
theorem Restack.above (h : Restack New history (nested ++ below) stack)
    (hgrows : nested = [] → below.length < stack.length) : ∃ nested', stack = nested' ++ below ∧
      ∀ g ∈ nested', New g ∨ ∃ f ∈ nested, f.call = g.call := by
  cases nested with
  | nil =>
    have hlength := hgrows rfl
    cases h with
    | @push f h hf =>
      refine ⟨[f],rfl,fun g hg => .inl ?_⟩
      obtain rfl := List.mem_singleton.mp hg
      exact hf
    | move h hpc =>
      simp only [List.nil_append] at h
      simp [h] at hlength
    | pop h =>
      simp only [List.nil_append] at h
      simp [h] at hlength
  | cons f nested =>
    cases h with
    | @push new h hnew =>
      refine ⟨new :: f :: nested,rfl,fun g hg => ?_⟩
      obtain rfl | hg := List.mem_cons.mp hg
      · exact .inl hnew
      · exact .inr ⟨g,hg,rfl⟩
    | @move k c pc pc' rest h hpc =>
      obtain ⟨rfl,rfl⟩ := List.cons.inj h
      refine ⟨⟨k,c,pc'⟩ :: nested,rfl,fun g hg => .inr ?_⟩
      obtain rfl | hg := List.mem_cons.mp hg
      · exact ⟨_,List.mem_cons_self,rfl⟩
      · exact ⟨g,List.mem_cons_of_mem _ hg,rfl⟩
    | pop h =>
      obtain ⟨rfl,rfl⟩ := List.cons.inj h
      exact ⟨nested,rfl,fun g hg => .inr ⟨g,List.mem_cons_of_mem _ hg,rfl⟩⟩

/-- The calls above the suspended one look up after `s₁`. -/
structure Acting (s₁ : State T R Tid) (t : Tid) (s : State T R Tid) : Prop where
  since : s₁.history <:+ s.history
  stack : ∃ nested, s.threads t = nested ++ s₁.threads t ∧
    ∀ g ∈ nested, ∀ k c, .get g.call k c ∉ s₁.history

theorem Acting.step (hs : Acting s₁ t s) (hlooked : Looked s) (hn : Named s)
    (hok : Suspends t (s₁.threads t) s a) (hstep : (machine T R Tid).step s a = some s') :
    Acting s₁ t s' := by
  have h := step_cases hstep
  obtain ⟨nested,hnested,hcalls⟩ := hs.stack
  refine ⟨hs.since.trans h.history_suffix,?_⟩
  obtain ⟨stack,hstack,hthreads⟩ := h.restack
  by_cases ht : a.thread = t
  · rw [ht,hnested] at hstack
    have hstack' : s'.threads t = stack := by simp [hthreads,ht]
    have hgrows : nested = [] → (s₁.threads t).length < stack.length := by
      rintro rfl
      have hsend := hok hnested ht
      cases a with
      | send u k =>
        obtain rfl : u = t := ht
        rw [← hstack',step_send hstep]
        simp [hnested]
      | _ => cases hsend
    obtain ⟨nested',rfl,hmem⟩ := hstack.above hgrows
    refine ⟨nested',hstack',fun g hg k c hget => ?_⟩
    obtain ⟨hnew,-⟩ | ⟨f,hf,hcall⟩ := hmem g hg
    · obtain ⟨u,hsent⟩ := hlooked.sent (hs.since.subset hget)
      exact absurd (hn.fresh hsent) (by simp [hnew])
    · exact hcalls f hf k c (hcall ▸ hget)
  · exact ⟨nested,by simpa [hthreads,Ne.symm ht] using hnested,hcalls⟩

omit [DecidableEq T] [DecidableEq Tid] in
theorem Acting.inside (hs : Acting s₁ t s) {responses : List R}
    (houter : s₁.threads t = ⟨k,c,.completing requestList responses i⟩ :: rest) :
    ⟨k,c,.completing requestList responses i⟩ ∈ s.threads t := by
  obtain ⟨nested,hnested,-⟩ := hs.stack
  rw [hnested,houter]
  exact List.mem_append_right _ List.mem_cons_self

theorem Resent.step (hk : Resent s₀ s₁ s k) (h : Step s a s') : Resent s₀ s₁ s' k := by
  obtain ⟨l,past,hl,hmem,hwaiting⟩ := hk
  exact ⟨l,past,hl.step h,hmem,hwaiting⟩

theorem MissedWhileWaiting.step (hk : MissedWhileWaiting s₀ s₁ s t k) (h : Step s a s') :
    MissedWhileWaiting s₀ s₁ s' t k := by
  obtain ⟨call,request,past,hmiss,hsent,hwaiting⟩ := hk
  exact ⟨call,request,past,hmiss.step h,h.history_mono hsent,hwaiting⟩

/-- A batch that passes a waiting request while the actions run belongs to a call of theirs, which has
missed its lookup while the request was waiting. -/
theorem Step.missed_of_resent {k₀ : T} {responses : List R} (h : Step s a s')
    (hs : Acting s₁ t s) (hr : (machine T R Tid).Reachable (fun _ _ => True) s)
    (houter : s₁.threads t = ⟨k₀,c,.completing requestList responses i⟩ :: rest)
    (hbefore : s₀.history <:+ s₁.history)
    (hold : Resent s₀ s₁ s k → MissedWhileWaiting s₀ s₁ s t k) (hk : Resent s₀ s₁ s' k) :
    MissedWhileWaiting s₀ s₁ s' t k := by
  obtain ⟨l,past,hl,hmem,hwaiting⟩ := hk
  obtain hl | ⟨rfl,k',c',rest',ht⟩ := h.recorded_apply hl
  · exact (hold ⟨l,past,hl,hmem,hwaiting⟩).step h
  · have hthread : a.thread = t :=
      (reachable_monitorCounts hr).exclusive (mem_top ht) (hs.inside houter) rfl rfl
    obtain ⟨nested,hnested,hcalls⟩ := hs.stack
    rw [hthread] at ht
    rw [ht,houter] at hnested
    cases nested with
    | nil => cases (List.cons.inj hnested).1
    | cons g nested =>
      obtain ⟨rfl,-⟩ := List.cons.inj hnested
      have hmiss := (reachable_looked hr).missed t _ (mem_top ht) (by simp [Pc.stage])
      have hsent := (reachable_named hr).sent t _ (mem_top ht)
      obtain ⟨past,hpast⟩ :=
        exists_recorded hs.since hmiss (hcalls _ List.mem_cons_self k' c')
      refine MissedWhileWaiting.step ⟨c',k',past,hpast,hsent,?_⟩ h
      exact hwaiting.of_suffix (hbefore.trans hpast.1) ((List.suffix_cons _ _).trans hpast.2)

/-- The call has missed its lookup and not yet called the batch function. -/
def Pc.willApply : Pc T R → Bool
  | .put => true
  | .acquire => true
  | .isEmpty => true
  | .keySet => true
  | .snapshot _ => true
  | .apply _ => true
  | _ => false

omit [DecidableEq T] in
theorem Pc.callsOut_of_willApply {pc : Pc T R} (h : pc.willApply = true) : pc.callsOut = false := by
  cases pc <;> first | rfl | cases h

theorem Silent.willApply {pc pc' : Pc T R} {monitor : Monitor Tid} (h : Silent s t pc pc' monitor)
    (hk : k ∈ s.cache) (hpc : pc.willApply = true) : pc'.willApply = true := by
  cases h with
  | empty h =>
    have hkeys := AList.mem_keys.mp hk
    rw [h] at hkeys
    cases hkeys
  | loopEnd h => cases hpc
  | absent hrequest hresponse h => cases hpc
  | completed => cases hpc
  | _ => rfl

omit [DecidableEq T] [DecidableEq Tid] in
theorem Fails.not_willApply {pc : Pc T R} (h : Fails t a pc) : pc.willApply = false := by
  cases h <;> rfl

/-- A waiting request will be passed by the call on top of the stack of the thread. -/
def Pledged (s₀ s : State T R Tid) (t : Tid) (k : T) : Prop :=
  Waiting s₀ s.history k ∧ ∃ f rest, s.threads t = f :: rest ∧ f.pc.willApply = true

theorem Step.removals_eq (h : Step s a s') : removals k s'.history = removals k s.history ∨
    ∃ k₁ c requestList responses i rest,
      s.threads a.thread = ⟨k₁,c,.loop requestList responses i⟩ :: rest := by
  cases h with
  | remove ht hrequest hresponse h => exact .inr ⟨_,_,_,_,_,_,ht⟩
  | _ => exact .inl (by simp [removals])

theorem Pledged.step (hs : Pledged s₀ s t k) (hr : (machine T R Tid).Reachable (fun _ _ => True) s)
    (hinside : f ∈ s.threads t ∧ f.pc.inside = true) (htracked : Tracked s₀ k c s)
    (hrecollected : Recollected s₀ k s) (hsince : s₁.history <:+ s.history) (h : Step s a s') :
    Resent s₀ s₁ s' k ∨ Pledged s₀ s' t k := by
  obtain ⟨hwaiting,⟨k₁,c₁,pc⟩,rest,ht,hpc⟩ := hs
  have hkeeps : removals k s'.history = removals k s.history := by
    obtain hkeeps | ⟨k₂,c₂,l,rs,j,rest₂,hloop⟩ := h.removals_eq
    · exact hkeeps
    · -- only the thread removes while it is inside the monitor, and its top call does not
      have hthread := (reachable_monitorCounts hr).exclusive (mem_top hloop) hinside.1 rfl hinside.2
      rw [hthread,ht] at hloop
      obtain ⟨⟨-,-,rfl⟩,-⟩ := List.cons.inj hloop
      cases hpc
  have hwaits : Waiting s₀ s'.history k := hkeeps.trans hwaiting
  by_cases hthread : a.thread = t
  · have hmoved : ∀ {pc' stack}, s'.threads = Function.update s.threads t stack →
        stack = ⟨k₁,c₁,pc'⟩ :: rest → pc'.willApply = true → Pledged s₀ s' t k := by
      rintro pc' stack hthreads rfl hpc'
      exact ⟨hwaits,⟨k₁,c₁,pc'⟩,rest,by simp [hthreads],hpc'⟩
    cases id h with
    | @send t' k' hsend =>
      obtain rfl : t' = t := hthread
      rw [ht] at hsend
      exact absurd ((Pc.callsOut_of_willApply hpc).symm.trans hsend) Bool.false_ne_true
    | put ht' =>
      obtain rfl := hthread
      obtain ⟨⟨rfl,rfl,rfl⟩,rfl⟩ := List.cons.inj (ht.symm.trans ht')
      exact .inr (hmoved rfl rfl rfl)
    | silent ht' hsilent =>
      obtain rfl := hthread
      obtain ⟨⟨rfl,rfl,rfl⟩,rfl⟩ := List.cons.inj (ht.symm.trans ht')
      exact .inr (hmoved rfl rfl (hsilent.willApply (htracked.kept hwaiting.le) hpc))
    | apply ht' =>
      obtain rfl := hthread
      obtain ⟨⟨rfl,rfl,rfl⟩,rfl⟩ := List.cons.inj (ht.symm.trans ht')
      have hmem := hrecollected hwaiting.le _ _ (mem_top ht') _ rfl
      exact .inl ⟨_,s.history,⟨hsince,List.suffix_rfl⟩,hmem,hwaiting⟩
    | fail ht' hfails =>
      obtain ⟨rfl,-⟩ := hfails.thread
      obtain rfl := hthread
      obtain ⟨rfl,rfl⟩ := List.cons.inj (ht.symm.trans ht')
      exact absurd hpc (by simp [hfails.not_willApply])
    | hit ht' | miss ht' | applyReturn ht' | remove ht' | complete ht' | release ht' =>
      obtain rfl := hthread
      obtain ⟨⟨rfl,rfl,rfl⟩,rfl⟩ := List.cons.inj (ht.symm.trans ht')
      cases hpc
  · obtain ⟨stack,-,hthreads⟩ := h.restack
    exact .inr ⟨hwaits,_,rest,by simpa [hthreads,Ne.symm hthread] using ht,hpc⟩

theorem Step.resent_or_pledged (h : Step s a s')
    (hr : (machine T R Tid).Reachable (fun _ _ => True) s)
    (hinside : f ∈ s.threads t ∧ f.pc.inside = true) (htracked : Tracked s₀ k c s)
    (hrecollected : Recollected s₀ k s) (hsince : s₁.history <:+ s.history)
    (hold : MissedWhileWaiting s₀ s₁ s t k → Resent s₀ s₁ s k ∨ Pledged s₀ s t k)
    (hk : MissedWhileWaiting s₀ s₁ s' t k) : Resent s₀ s₁ s' k ∨ Pledged s₀ s' t k := by
  have hn := reachable_named hr
  have hn' := h.named hn
  obtain ⟨call,request,past,hmiss,hsent,hwaiting⟩ := hk
  obtain hmiss | ⟨rfl,rest,ht,ht',hhistory⟩ := h.recorded_miss (reachable_registered hr) hmiss
  · have hget : .get call request call ∈ s.history := hmiss.2.subset List.mem_cons_self
    obtain ⟨u,hu⟩ := (reachable_looked hr).sent hget
    obtain ⟨rfl,-⟩ := hn'.unique (h.history_mono hu) hsent
    obtain hresent | hpledged := hold ⟨call,request,past,hmiss,hu,hwaiting⟩
    · exact .inl (hresent.step h)
    · exact hpledged.step hr hinside htracked hrecollected hsince h
  · obtain ⟨rfl,-⟩ := hn'.unique (h.history_mono (hn.sent a.thread _ (mem_top ht))) hsent
    refine .inr ⟨?_,⟨request,call,.put⟩,rest,ht',rfl⟩
    rw [hhistory]
    simpa [Waiting,removals] using hwaiting

end Acting

namespace DependentAction

variable (h : DependentAction s₀ s₁ s₂ t requestList i)

include h

theorem resent_iff (hk : k ∈ requestList) :
    Resent s₀ s₁ s₂ k ↔ MissedWhileWaiting s₀ s₁ s₂ t k := by
  obtain ⟨k₀,c₀,responses,rest,hsnapshot,houter⟩ := h.completing
  have hs₁ := hsnapshot.reachable.trans h.distributes
  have hbefore := history_suffix h.distributes
  obtain ⟨c,htracked,hrecollected⟩ := hsnapshot.followed h.distributes hk
  have hnone : ¬ Resent s₀ s₁ s₁ k ∧ ¬ MissedWhileWaiting s₀ s₁ s₁ t k := by
    have hlonger : ∀ {e past}, ¬ Recorded s₁ s₁ e past := fun hrecorded => by
      have hlength := (hrecorded.2.trans hrecorded.1).length_le
      simp at hlength
    exact ⟨fun ⟨_,_,hl,_⟩ => hlonger hl,fun ⟨_,_,_,hl,_⟩ => hlonger hl⟩
  have hall : Acting s₁ t s₂ ∧ Tracked s₀ k c s₂ ∧ Recollected s₀ k s₂ ∧
      (Resent s₀ s₁ s₂ k → MissedWhileWaiting s₀ s₁ s₂ t k) ∧
      (MissedWhileWaiting s₀ s₁ s₂ t k → Resent s₀ s₁ s₂ k ∨ Pledged s₀ s₂ t k) := by
    apply h.acts.invariant (fun _ _ _ => trivial) hs₁ (I := fun s => Acting s₁ t s ∧
      Tracked s₀ k c s ∧ Recollected s₀ k s ∧
        (Resent s₀ s₁ s k → MissedWhileWaiting s₀ s₁ s t k) ∧
        (MissedWhileWaiting s₀ s₁ s t k → Resent s₀ s₁ s k ∨ Pledged s₀ s t k))
    · exact ⟨⟨List.suffix_rfl,[],rfl,by simp⟩,htracked,hrecollected,
        fun hresent => absurd hresent hnone.1,fun hmissed => absurd hmissed hnone.2⟩
    · rintro s a s' hr ⟨hacting,htracked,hrecollected,hmissed,hresent⟩ hok hs
      have hstep := step_cases hs
      have hinside := hacting.inside houter
      exact ⟨hacting.step (reachable_looked hr) (reachable_named hr) hok hs,
        htracked.step (reachable_registered hr) hstep,hrecollected.step htracked hstep,
        hstep.missed_of_resent hacting hr houter hbefore hmissed,
        hstep.resent_or_pledged hr ⟨hinside,rfl⟩ htracked hrecollected hacting.since hresent⟩
  obtain ⟨-,-,-,hmissed,hresent⟩ := hall
  refine ⟨hmissed,fun hk => (hresent hk).resolve_right ?_⟩
  -- at the end the outer call is on top again, which passes nothing
  rintro ⟨-,f,rest',htop,hf⟩
  rw [h.ended,houter] at htop
  obtain ⟨rfl,-⟩ := List.cons.inj htop
  cases hf

end DependentAction

/-- While the dependent actions of the request at `i` run, no later request of the snapshot that still
waits for its response is passed to the batch function again exactly if no call of theirs misses its
lookup while such a request waits. -/
theorem nested_batch_resends_iff (h : DependentAction s₀ s₁ s₂ t requestList i) :
    (∀ k ∈ requestList.drop (i+1), ¬ Resent s₀ s₁ s₂ k) ↔
      ∀ k ∈ requestList.drop (i+1), ¬ MissedWhileWaiting s₀ s₁ s₂ t k :=
  forall₂_congr fun _ hk => not_congr (h.resent_iff (List.mem_of_mem_drop hk))

/-- Two clients register 7 and 8 before the batch of the first collects the keys. -/
def sharedKeys : List (Action ℕ ℕ Bool) :=
  [.send false 7,.run false,.run false,.send true 8,.run true,.run true,
    .run false,.run false,.run false]

def sharedSnapshot : List (Action ℕ ℕ Bool) := sharedKeys ++ [.snapshot false [7,8]]

def sharedCompleting : List (Action ℕ ℕ Bool) :=
  sharedSnapshot ++ [.run false,.applyReturn false [70,80],.run false,.run false]

/-- A dependent action sends 9, whose batch runs before 8 is distributed. -/
def nestedCall : List (Action ℕ ℕ Bool) :=
  [.send false 9,.run false,.run false,.run false,.run false,.run false,.snapshot false [8,9],
    .run false,.applyReturn false [81,90],.run false,.run false,.run false,.run false,.run false,
    .run false,.run false,.run false]

/-- A dependent action sends 8, which it finds in the cache. -/
def cachedCall : List (Action ℕ ℕ Bool) := [.send false 8,.run false]

def sharedStack : List (Frame ℕ ℕ) := [⟨7,0,.completing [7,8] [70,80] 0⟩]

instance (below : List (Frame ℕ ℕ)) (s : State ℕ ℕ Bool) (a : Action ℕ ℕ Bool) :
    Decidable (Suspends false below s a) :=
  inferInstanceAs (Decidable (_ → _ → _))

theorem dependentAction_of_exec {s : State ℕ ℕ Bool} {actions : List (Action ℕ ℕ Bool)}
    (hexec : (machine ℕ ℕ Bool).exec (Suspends false sharedStack) (after sharedCompleting) actions =
      some s) (hended : s.threads false = sharedStack) :
    DependentAction (after sharedSnapshot) (after sharedCompleting) s false [7,8] 0 := by
  have hkeys : (machine ℕ ℕ Bool).Reachable (fun _ _ => True) (after sharedKeys) :=
    Machine.reachable_after (by decide)
  have htaken : (machine ℕ ℕ Bool).step (after sharedKeys) (.snapshot false [7,8]) =
      some (after sharedSnapshot) := Machine.step_after (by decide)
  have htop : (after sharedSnapshot).threads false = [⟨7,0,.apply [7,8]⟩] := by decide
  have hstack : (after sharedCompleting).threads false = sharedStack := by decide
  refine ⟨Machine.reaches_after (by decide),⟨7,0,[70,80],[],⟨⟨_,hkeys,htaken⟩,[],htop⟩,hstack⟩,?_,
    hended.trans hstack.symm⟩
  rw [hstack]
  exact Machine.reaches_of_exec hexec

/-- The action that sends 8 while it waits misses no lookup, so that no nested batch passes 8. -/
theorem nested_batch_resends_iff_shared : ∃ s : State ℕ ℕ Bool,
    DependentAction (after sharedSnapshot) (after sharedCompleting) s false [7,8] 0 ∧
      Waiting (after sharedSnapshot) s.history 8 ∧ .return 2 8 1 ∈ s.history ∧
      ∀ k ∈ [7,8].drop 1, ¬ Resent (after sharedSnapshot) (after sharedCompleting) s k := by
  have hexec : ((machine ℕ ℕ Bool).exec (Suspends false sharedStack) (after sharedCompleting)
      cachedCall).map (fun s => (s.threads false,s.history)) = some (sharedStack,
        .return 2 8 1 :: .get 2 8 1 :: .send false 2 8 :: (after sharedCompleting).history) := by decide
  obtain ⟨s,hs,hobserve⟩ := Option.map_eq_some_iff.mp hexec
  obtain ⟨hended,hhistory⟩ := Prod.mk.inj hobserve
  have haction := dependentAction_of_exec hs hended
  refine ⟨s,haction,?_,by simp [hhistory],(nested_batch_resends_iff haction).mpr ?_⟩
  · rw [hhistory]
    decide
  · rintro k - ⟨call,request,past,⟨hsince,hmiss⟩,-⟩
    rw [hhistory] at hmiss
    have hlength := hsince.length_le
    obtain heq | hmiss := List.suffix_cons_iff.mp hmiss
    · cases heq
    · obtain heq | hmiss := List.suffix_cons_iff.mp hmiss
      · obtain ⟨⟨rfl,-,hcall⟩,-⟩ := List.cons.inj heq
      · obtain heq | hmiss := List.suffix_cons_iff.mp hmiss
        · cases heq
        · have hshorter := hmiss.length_le
          simp only [List.length_cons] at hshorter
          omega

/-- The backend is sent 8 a second time while its first response is being distributed. -/
theorem nested_batch_resends_waiting : ∃ s : State ℕ ℕ Bool,
    DependentAction (after sharedSnapshot) (after sharedCompleting) s false [7,8] 0 ∧
      ¬ ∀ k ∈ [7,8].drop 1, ¬ Resent (after sharedSnapshot) (after sharedCompleting) s k := by
  have hexec : ((machine ℕ ℕ Bool).exec (Suspends false sharedStack) (after sharedCompleting)
      nestedCall).map (fun s => (s.threads false,s.history)) = some (sharedStack,
        [.return 2 9 2,.complete 2 90,.remove 9 2,.complete 1 81,.remove 8 1,.applied [8,9] [81,90]] ++
          .apply [8,9] :: ([.put 9 2 none,.get 2 9 2,.send false 2 9] ++
            (after sharedCompleting).history)) := by decide
  obtain ⟨s,hs,hobserve⟩ := Option.map_eq_some_iff.mp hexec
  obtain ⟨hended,hhistory⟩ := Prod.mk.inj hobserve
  refine ⟨s,dependentAction_of_exec hs hended,fun hnot => hnot 8 (by decide) ?_⟩
  refine ⟨[8,9],[.put 9 2 none,.get 2 9 2,.send false 2 9] ++ (after sharedCompleting).history,
    ⟨List.suffix_append _ _,?_⟩,by decide,by decide⟩
  rw [hhistory]
  exact List.suffix_append _ _

end AggregatorMachine
end Potimizer

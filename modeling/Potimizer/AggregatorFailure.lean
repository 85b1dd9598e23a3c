import Potimizer.AggregatorSnapshots

/-! A batch that leaves by an exception. The requests it has not distributed stay in the cache with
futures that no call is going to complete, unless a nested batch has served them. -/
namespace Potimizer
namespace AggregatorMachine

open StepMachine ReentrantMonitor

variable {T R Tid : Type} [DecidableEq T] [DecidableEq Tid] {s s' s₀ : State T R Tid} {t u : Tid}
  {a : Action T R Tid} {k : T} {c call : CallId} {requestList : List T} {i : ℕ} {f g : Frame T R}
  {rest : List (Frame T R)} {pc pc' : Pc T R}

/-- The requests of its batch that a call has looked up for distribution. -/
def Pc.distributed : Pc T R → List T
  | .loop requestList _ i => requestList.take i
  | .complete requestList _ i _ _ => requestList.take (i+1)
  | .completing requestList _ i => requestList.take (i+1)
  | _ => []

omit [DecidableEq T] in
theorem mem_take_succ (h : k ∈ requestList.take (i+1)) :
    k ∈ requestList.take i ∨ requestList[i]? = some k := by
  rw [List.take_add_one] at h
  simpa using h

theorem Silent.distributed {monitor : Monitor Tid} (h : Silent s t pc pc' monitor)
    (hk : k ∈ pc'.distributed) : k ∈ pc.distributed ∨ s.cache.lookup k = none := by
  cases h with
  | @absent requestList responses i request response hrequest hresponse h =>
    obtain hk | hk := mem_take_succ hk
    · exact .inl hk
    · obtain rfl : request = k := Option.some.inj (hrequest.symm.trans hk)
      exact .inr h
  | completed => exact .inl hk
  | _ => simp [Pc.distributed] at hk

/-- What the call has distributed is not mapped to `c`. -/
def Distributed (call : CallId) (k : T) (c : CallId) (s : State T R Tid) : Prop :=
  ∀ u, ∀ f ∈ s.threads u, f.call = call → k ∈ f.pc.distributed → s.cache.lookup k ≠ some c

theorem Distributed.step (hs : Distributed call k c s) (htracked : Tracked s₀ k c s)
    (hreg : Registered s) (h : Step s a s') : Distributed call k c s' := by
  intro u f hf hcall hk
  obtain ⟨o,ho⟩ := htracked.put
  have hold : ∀ {u}, ∀ f ∈ s.threads u, f.call = call → k ∈ f.pc.distributed →
      s'.cache.lookup k ≠ some c :=
    fun f hf hcall hk => h.unmapped hreg ho (hs _ f hf hcall hk)
  have hmoved : ∀ {t k₁ c₁ pc pc' rest}, s.threads t = ⟨k₁,c₁,pc⟩ :: rest →
      (k ∈ pc'.distributed → k ∈ pc.distributed ∨ s'.cache.lookup k = none) →
      f ∈ Function.update s.threads t (⟨k₁,c₁,pc'⟩ :: rest) u → s'.cache.lookup k ≠ some c := by
    intro t k₁ c₁ pc pc' rest ht hpc hf
    obtain ⟨rfl,rfl⟩ | hf := mem_moved ht hf
    · obtain hk | hnone := hpc hk
      · exact hold _ (mem_top ht) hcall hk
      · simp [hnone]
    · exact hold f hf hcall hk
  cases id h with
  | send h =>
    obtain ⟨rfl,rfl⟩ | hf := mem_push hf
    · simp [Pc.distributed] at hk
    · exact hold f hf hcall hk
  | hit ht h => exact hold f (mem_popped ht hf) hcall hk
  | miss ht h => exact hmoved ht (by simp [Pc.distributed]) hf
  | put ht => exact hmoved ht (by simp [Pc.distributed]) hf
  | silent ht hsilent => exact hmoved ht hsilent.distributed hf
  | apply ht => exact hmoved ht (by simp [Pc.distributed]) hf
  | applyReturn ht => exact hmoved ht (by simp [Pc.distributed]) hf
  | @remove t k₁ c₁ requestList responses i rest request response future ht hrequest hresponse h =>
    refine hmoved ht (fun hk => ?_) hf
    obtain hk | hk := mem_take_succ hk
    · exact .inl hk
    · obtain rfl : request = k := Option.some.inj (hrequest.symm.trans hk)
      exact .inr (by simp)
  | complete ht =>
    refine hmoved ht ?_ hf
    exact .inl
  | release ht => exact hold f (mem_popped ht hf) hcall hk
  | fail ht h => exact hold f (mem_popped ht hf) hcall hk

theorem SnapshotTaken.distributed {k₀ : T} (h : SnapshotTaken t k₀ call requestList s₀) :
    Distributed call k c s₀ := by
  intro u f hf hcall hk
  obtain ⟨rest,ht⟩ := h.top
  have hsent := (reachable_named h.reachable).sent
  obtain ⟨rfl,-⟩ := (reachable_named h.reachable).unique (hsent u f hf)
    (hcall ▸ hsent t _ (mem_top ht))
  have hdistinct := reachable_distinct h.reachable u
  rw [ht] at hf hdistinct
  obtain rfl | hf := List.mem_cons.mp hf
  · simp [Pc.distributed] at hk
  · exact absurd (List.mem_map.mpr ⟨f,hf,hcall⟩) (List.nodup_cons.mp hdistinct).1

/-- The batch stops at the request `i`: the batch function throws, or has too few responses. -/
inductive StopsAt (t : Tid) (requestList : List T) : Action T R Tid → Pc T R → ℕ → Prop
  | batch : StopsAt t requestList (.applyThrow t) (.applying requestList) 0
  | short {responses i} (hi : i < requestList.length) (hresponses : responses.length ≤ i) :
      StopsAt t requestList (.run t) (.loop requestList responses i) i

omit [DecidableEq T] [DecidableEq Tid] in
theorem StopsAt.fails (h : StopsAt t requestList a pc i) : Fails t a pc := by
  cases h with
  | batch => exact .batch
  | short hi hresponses =>
    exact .short (List.getElem?_eq_getElem hi) (List.getElem?_eq_none hresponses)

omit [DecidableEq T] [DecidableEq Tid] in
theorem StopsAt.distributed (h : StopsAt t requestList a pc i) :
    pc.distributed = requestList.take i := by
  cases h <;> rfl

theorem StopsAt.step (h : StopsAt t requestList a pc i) (ht : s.threads t = ⟨k,call,pc⟩ :: rest)
    (hstep : (machine T R Tid).step s a = some s') : s' = s.unwind t ⟨k,call,pc⟩ rest := by
  change AggregatorMachine.step s a = some s' at hstep
  cases h with
  | batch => simpa [AggregatorMachine.step,ht,eq_comm] using hstep
  | short hi hresponses =>
    simpa [AggregatorMachine.step,ht,runFrame,List.getElem?_eq_getElem hi,
      List.getElem?_eq_none hresponses,eq_comm] using hstep

/-- The call that took the snapshot `requestList` in the state `s₀` stops at the request `i` in the
state `s` and leaves by an exception, in the step that leads to `s'`. -/
def FailedBatch (s₀ s s' : State T R Tid) (requestList : List T) (i : ℕ) : Prop :=
  ∃ t k call a pc rest, SnapshotTaken t k call requestList s₀ ∧
    (machine T R Tid).Reaches (fun _ _ => True) s₀ s ∧ s.threads t = ⟨k,call,pc⟩ :: rest ∧
    StopsAt t requestList a pc i ∧ (machine T R Tid).step s a = some s'

/-- Each future that was mapped to a request of the snapshot is completed, or its key is out of the
cache. -/
def Settled (s₀ s : State T R Tid) (requestList : List T) : Prop :=
  ∀ k ∈ requestList, ∀ c, s₀.cache.lookup k = some c → (∃ r, s.futures c = some r) ∨ k ∉ s.cache

/-- A put that raced with the one of the snapshot's future has replaced the future. -/
def Replaced (s₀ : State T R Tid) (history : List (Event T R Tid)) (k : T) : Prop :=
  ∃ c c', s₀.cache.lookup k = some c ∧ .put k c' (some c) ∈ history

/-- The last of the puts and removals of the request is a removal. -/
def RemovedLast (k : T) : List (Event T R Tid) → Prop
  | [] => False
  | .put k' _ _ :: history => k' ≠ k ∧ RemovedLast k history
  | .remove k' _ :: history => k' = k ∨ RemovedLast k history
  | _ :: history => RemovedLast k history

theorem Step.removedLast (h : Step s a s')
    (hs : RemovedLast k s.history ∨ (∀ c o, .put k c o ∉ s.history) ↔ k ∉ s.cache) :
    RemovedLast k s'.history ∨ (∀ c o, .put k c o ∉ s'.history) ↔ k ∉ s'.cache := by
  cases h with
  | @put t k₁ c₁ rest ht =>
    by_cases hk : k₁ = k
    · subst hk
      refine iff_of_false ?_ (by simp)
      rintro (hlast | hnone)
      · exact hlast.1 rfl
      · exact hnone _ _ List.mem_cons_self
    · simpa [RemovedLast,hk,Ne.symm hk] using hs
  | @remove t k₁ c₁ requestList responses i rest request response future ht hrequest hresponse h =>
    by_cases hk : request = k
    · subst hk
      simp [RemovedLast]
    · simpa [RemovedLast,hk,Ne.symm hk] using hs
  | _ => simpa [RemovedLast] using hs

theorem removedLast_iff {ok : State T R Tid → Action T R Tid → Prop} {o : Option CallId}
    (h : (machine T R Tid).Reachable ok s) (hput : .put k c o ∈ s.history) :
    RemovedLast k s.history ↔ k ∉ s.cache := by
  have hs : RemovedLast k s.history ∨ (∀ c o, .put k c o ∉ s.history) ↔ k ∉ s.cache := by
    apply h.invariant (I := fun s => RemovedLast k s.history ∨ (∀ c o, .put k c o ∉ s.history) ↔
      k ∉ s.cache)
    · simp [machine]
    · exact fun s a s' _ ih _ hs => (step_cases hs).removedLast ih
  rw [← hs]
  exact ⟨.inl,fun h => h.resolve_right fun hnone => hnone c o hput⟩

namespace FailedBatch

theorem reachable (h : FailedBatch s₀ s s' requestList i) :
    (machine T R Tid).Reachable (fun _ _ => True) s := by
  obtain ⟨t,k,call,a,pc,rest,hsnapshot,hrun,-⟩ := h
  exact hsnapshot.reachable.trans hrun

theorem mapped (h : FailedBatch s₀ s s' requestList i) (hk : k ∈ requestList) :
    ∃ c, s₀.cache.lookup k = some c := by
  obtain ⟨t,k₀,call,a,pc,rest,hsnapshot,-⟩ := h
  exact hsnapshot.mapped hk

theorem tracked (h : FailedBatch s₀ s s' requestList i) (hl : s₀.cache.lookup k = some c) :
    Tracked s₀ k c s := by
  obtain ⟨t,k₀,call,a,pc,rest,hsnapshot,hrun,-⟩ := h
  exact Tracked.run hsnapshot.reachable hrun hl

theorem settled_iff (h : FailedBatch s₀ s s' requestList i) :
    Settled s₀ s' requestList ↔ Settled s₀ s requestList := by
  obtain ⟨t,k₀,call,a,pc,rest,-,-,ht,hstops,hstep⟩ := h
  obtain rfl := hstops.step ht hstep
  exact Iff.rfl

/-- The call that fails is the only one inside the monitor, and it is not completing a future: what
was removed is completed. -/
theorem completed (h : FailedBatch s₀ s s' requestList i) (hr : .remove k c ∈ s.history) :
    ∃ r, s.futures c = some r := by
  have hs := h.reachable
  obtain ⟨t,k₀,call,a,pc,rest,-,-,ht,hstops,-⟩ := h
  obtain ⟨r,hcomplete⟩ | ⟨u,f,hf,hcompletes⟩ := reachable_delivers hs k c hr
  · exact ⟨r,((reachable_delivered hs).futures c r).mpr hcomplete⟩
  · obtain ⟨l,rs,j,r,hpc⟩ := id hcompletes
    obtain rfl := (reachable_monitorCounts hs).exclusive hf (mem_top ht) (by simp [hpc,Pc.inside])
      hstops.fails.inside
    obtain ⟨rest',hrest⟩ := (reachable_suspended hs u).top hf (by simp [hpc,Pc.callsOut])
    obtain ⟨rfl,-⟩ := List.cons.inj (ht.symm.trans hrest)
    exact absurd hcompletes hstops.fails.not_completes

theorem distributed (h : FailedBatch s₀ s s' requestList i) (hl : s₀.cache.lookup k = some c)
    (hk : k ∈ requestList.take i) : s.cache.lookup k ≠ some c := by
  obtain ⟨t,k₀,call,a,pc,rest,hsnapshot,hrun,ht,hstops,-⟩ := h
  have hboth : Tracked s₀ k c s ∧ Distributed call k c s := by
    apply hrun.invariant (fun _ _ => id) hsnapshot.reachable
      (I := fun s => Tracked s₀ k c s ∧ Distributed call k c s)
    · exact ⟨.init (reachable_registered hsnapshot.reachable) hl,hsnapshot.distributed⟩
    · exact fun s a s' hr ih _ hs => ⟨ih.1.step (reachable_registered hr) (step_cases hs),
        ih.2.step ih.1 (reachable_registered hr) (step_cases hs)⟩
  exact hboth.2 t _ (mem_top ht) rfl (hstops.distributed ▸ hk)

theorem removed {r : R} (h : FailedBatch s₀ s s' requestList i) (hl : s₀.cache.lookup k = some c)
    (hr : s.futures c = some r) : .remove k c ∈ s.history := by
  have hregistered := reachable_registered h.reachable
  have hdelivered := reachable_delivered h.reachable
  obtain ⟨k',hremove,-⟩ := hdelivered.completed ((hdelivered.futures c r).mp hr)
  obtain ⟨o,ho⟩ := (h.tracked hl).put
  obtain ⟨o',ho'⟩ := hregistered.removed hremove
  obtain rfl := hregistered.request_unique (reachable_named h.reachable) ho ho'
  exact hremove

end FailedBatch

/-- A failed batch leaves its snapshot settled exactly if, before the exception, nested batches have
removed every request it had not distributed, and every request whose future a racing put replaced
was removed after its last put. -/
theorem failed_batch_settled_iff (h : FailedBatch s₀ s s' requestList i) :
    Settled s₀ s' requestList ↔ (∀ k ∈ requestList.drop i, ¬ Waiting s₀ s.history k) ∧
      ∀ k ∈ requestList, Replaced s₀ s.history k → RemovedLast k s.history := by
  rw [h.settled_iff]
  constructor
  · intro hsettled
    refine ⟨fun k hk hwaiting => ?_,?_⟩
    · have hmem := List.mem_of_mem_drop hk
      obtain ⟨c,hc⟩ := h.mapped hmem
      obtain ⟨r,hr⟩ | hnot := hsettled k hmem c hc
      · have hlt := (h.tracked hc).removed (h.removed hc hr)
        exact absurd hwaiting hlt.ne'
      · exact hnot ((h.tracked hc).kept hwaiting.le)
    · rintro k hk ⟨c,c',hc,hput⟩
      rw [removedLast_iff h.reachable hput]
      obtain ⟨r,hr⟩ | hnot := hsettled k hk c hc
      · exact absurd (h.removed hc hr) ((reachable_lost h.reachable k c' c hput).kept k)
      · exact hnot
  · rintro ⟨hserved,hreplaced⟩ k hk c hc
    have htracked := h.tracked hc
    obtain ⟨o,ho⟩ := htracked.put
    obtain hl | hr | ⟨c',hput⟩ := reachable_accounted h.reachable k c o ho
    · -- a future that is still mapped was neither distributed nor served by a nested batch
      rw [← List.take_append_drop i requestList] at hk
      obtain hk | hk := List.mem_append.mp hk
      · exact absurd hl (h.distributed hc hk)
      · exact absurd hl (htracked.gone (lt_of_le_of_ne htracked.grows (Ne.symm (hserved k hk))))
    · exact .inl (h.completed hr)
    · exact .inr ((removedLast_iff h.reachable hput).mp (hreplaced k hk ⟨c,c',hc,hput⟩))

def lonelyKey : List (Action ℕ ℕ Bool) :=
  [.send false 7,.run false,.run false,.run false,.run false,.run false]

def lonelySnapshot : List (Action ℕ ℕ Bool) := lonelyKey ++ [.snapshot false [7]]

def lonelyApplying : List (Action ℕ ℕ Bool) := lonelySnapshot ++ [.run false]

def lonelyThrow : List (Action ℕ ℕ Bool) := lonelyApplying ++ [.applyThrow false]

def laterSends : List (Action ℕ ℕ Bool) :=
  [.send true 7,.run true,.send true 9,.run true,.run true,.run true,.run true,.run true,
    .snapshot true [7,9],.run true,.applyThrow true]

theorem failedBatch_lonely :
    FailedBatch (after lonelySnapshot) (after lonelyApplying) (after lonelyThrow) [7] 0 := by
  have hkey : (machine ℕ ℕ Bool).Reachable (fun _ _ => True) (after lonelyKey) :=
    Machine.reachable_after (by decide)
  have htaken : (machine ℕ ℕ Bool).step (after lonelyKey) (.snapshot false [7]) =
      some (after lonelySnapshot) := Machine.step_after (by decide)
  have htop : (after lonelySnapshot).threads false = [⟨7,0,.apply [7]⟩] := by decide
  have hrun : (machine ℕ ℕ Bool).Reaches (fun _ _ => True) (after lonelySnapshot)
      (after lonelyApplying) := Machine.reaches_after (by decide)
  have happlying : (after lonelyApplying).threads false = [⟨7,0,.applying [7]⟩] := by decide
  have hthrow : (machine ℕ ℕ Bool).step (after lonelyApplying) (.applyThrow false) =
      some (after lonelyThrow) := Machine.step_after (by decide)
  exact ⟨false,7,0,_,_,[],⟨⟨_,hkey,htaken⟩,[],htop⟩,hrun,happlying,.batch,hthrow⟩

theorem failed_batch_settled_iff_lonely :
    Settled (after lonelySnapshot) (after lonelyThrow) [7] ↔
      (∀ k ∈ [7].drop 0, ¬ Waiting (after lonelySnapshot) (after lonelyApplying).history k) ∧
        ∀ k ∈ [7], Replaced (after lonelySnapshot) (after lonelyApplying).history k →
          RemovedLast k (after lonelyApplying).history :=
  failed_batch_settled_iff failedBatch_lonely

/-- The future of 7 is not completed and stays in the cache: a later call for 7 returns it without a
batch, a batch for 9 sends 7 again, and when no call is in progress it is still not completed. -/
theorem failed_batch_strands : ∃ s₀ s s' later : State ℕ ℕ Bool,
    FailedBatch s₀ s s' [7] 0 ∧ ¬ Settled s₀ s' [7] ∧
      (machine ℕ ℕ Bool).Reaches (fun _ _ => True) s' later ∧ Quiescent later ∧
      .return 1 7 0 ∈ later.history ∧ .apply [7,9] ∈ later.history ∧ later.futures 0 = none := by
  have hcached : (after lonelySnapshot).cache.lookup 7 = some 0 := by decide
  have hunsettled : (after lonelyThrow).futures 0 = none ∧ 7 ∈ (after lonelyThrow).cache := by decide
  have hlater : (machine ℕ ℕ Bool).Reaches (fun _ _ => True) (after lonelyThrow)
      (after (lonelyThrow ++ laterSends)) := Machine.reaches_after (by decide)
  have hquiescent : ∀ t, (after (lonelyThrow ++ laterSends)).threads t = [] := by decide
  refine ⟨_,_,_,_,failedBatch_lonely,fun hsettled => ?_,hlater,hquiescent,by decide,by decide,
    by decide⟩
  obtain ⟨r,hr⟩ | hnot := hsettled 7 (by decide) 0 hcached
  · simp [hunsettled.1] at hr
  · exact hnot hunsettled.2

end AggregatorMachine
end Potimizer

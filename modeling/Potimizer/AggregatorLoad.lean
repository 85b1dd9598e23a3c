import Potimizer.AggregatorDelivery

/-! The load on the backend when every batch is answered and no foreign code calls back: what was
sent and not yet removed is the part of the current batch that is still to be distributed. -/
namespace Potimizer
namespace AggregatorMachine

open StepMachine ReentrantMonitor

section Counts

variable {T R Tid : Type} [DecidableEq T] {history : List (Event T R Tid)} {k : T}

def batches (k : T) (history : List (Event T R Tid)) : ℕ :=
  history.countP fun e => match e with
    | .apply requestList => k ∈ requestList
    | _ => false

theorem batches_apply {requestList : List T} : batches k (.apply requestList :: history) =
    batches k history + if k ∈ requestList then 1 else 0 := by
  simp [batches,List.countP_cons]

def sends (k : T) (history : List (Event T R Tid)) : ℕ :=
  history.countP fun e => match e with
    | .send _ _ k' => k' = k
    | _ => false

def removedFutures (k : T) (history : List (Event T R Tid)) : List CallId :=
  history.filterMap fun e => match e with
    | .remove k' c => if k' = k then some c else none
    | _ => none

def sentCalls (k : T) (history : List (Event T R Tid)) : List CallId :=
  history.filterMap fun e => match e with
    | .send _ c k' => if k' = k then some c else none
    | _ => none

theorem length_removedFutures : (removedFutures k history).length = removals k history := by
  induction history with
  | nil => rfl
  | cons e history ih =>
    cases e with
    | remove k' c =>
      by_cases hk : k' = k
      · simpa [removedFutures,removals,hk] using ih
      · simpa [removedFutures,removals,hk] using ih
    | _ => exact ih

theorem length_sentCalls : (sentCalls k history).length = sends k history := by
  induction history with
  | nil => rfl
  | cons e history ih =>
    cases e with
    | send t c k' =>
      by_cases hk : k' = k
      · simpa [sentCalls,sends,hk] using ih
      · simpa [sentCalls,sends,hk] using ih
    | _ => exact ih

theorem mem_removedFutures {c : CallId} :
    c ∈ removedFutures k history ↔ .remove k c ∈ history := by
  constructor
  · intro hc
    obtain ⟨e,he,hec⟩ := List.mem_filterMap.mp hc
    cases e with
    | remove k' c' =>
      obtain ⟨rfl,rfl⟩ : k' = k ∧ c' = c := by simpa using hec
      exact he
    | _ => simp at hec
  · exact fun hc => List.mem_filterMap.mpr ⟨.remove k c,hc,by simp⟩

theorem mem_sentCalls_of_mem {c : CallId} {t : Tid} (h : .send t c k ∈ history) :
    c ∈ sentCalls k history :=
  List.mem_filterMap.mpr ⟨.send t c k,h,by simp⟩

/-- Only clients call: a thread with a call in progress makes no other. -/
def ClientSends (s : State T R Tid) : Action T R Tid → Prop
  | .send t _ => (s.threads t).isEmpty
  | _ => True

instance (s : State T R Tid) : ∀ a, Decidable (ClientSends s a)
  | .send t _ => inferInstanceAs (Decidable ((s.threads t).isEmpty = true))
  | .run _ => .isTrue trivial
  | .snapshot _ _ => .isTrue trivial
  | .applyReturn _ _ => .isTrue trivial
  | .applyThrow _ => .isTrue trivial

/-- The requests passed to the batch function that are still to be looked up and removed. -/
def Pc.outstanding : Pc T R → List T
  | .applying requestList => requestList
  | .loop requestList _ i => requestList.drop i
  | .complete requestList _ i _ _ => requestList.drop (i+1)
  | .completing requestList _ i => requestList.drop (i+1)
  | _ => []

def Pc.inBatch : Pc T R → Bool
  | .applying _ => true
  | .loop _ _ _ => true
  | .complete _ _ _ _ _ => true
  | .completing _ _ _ => true
  | _ => false

def Pc.pending : Pc T R → List T
  | .apply requestList => requestList
  | pc => pc.outstanding

end Counts

variable {T R Tid : Type} {s s' : State T R Tid} {t u : Tid} {a : Action T R Tid} {k : T}
  {c : CallId} {f g : Frame T R} {stack rest : List (Frame T R)} {pc pc' : Pc T R}
  {ok : State T R Tid → Action T R Tid → Prop}

theorem Pc.pending_eq_nil (h : pc.inside = false) : pc.pending = [] := by
  cases pc <;> first | rfl | cases h

def outs (stack : List (Frame T R)) : List T := stack.flatMap (·.pc.outstanding)

@[simp] theorem outs_cons : outs (f :: stack) = f.pc.outstanding ++ outs stack := rfl

theorem outs_eq_nil (h : ∀ f ∈ stack, f.pc.inBatch = false) : outs stack = [] := by
  refine List.flatMap_eq_nil_iff.mpr fun f hf => ?_
  have hf := h f hf
  cases hpc : f.pc <;> first | rfl | simp [hpc,Pc.inBatch] at hf

theorem Pc.inBatch_inside (h : pc.inside = false) : pc.inBatch = false := by
  cases pc <;> first | rfl | cases h

/-- The requests the thread inside the monitor has still to serve. -/
def outstanding (s : State T R Tid) : List T :=
  match s.monitor with
  | .free => []
  | .held t _ => outs (s.threads t)

theorem outstanding_eq_nil (h : ∀ t, ∀ f ∈ s.threads t, f.pc.inBatch = false) :
    outstanding s = [] := by
  unfold outstanding
  cases s.monitor with
  | free => rfl
  | held t again => exact outs_eq_nil (h t)

def Single (s : State T R Tid) : Prop := ∀ t, (s.threads t).length ≤ 1

theorem Single.rest_eq_nil (hs : Single s) (ht : s.threads t = f :: rest) : rest = [] := by
  have hlength := hs t
  simpa [ht] using hlength

/-- The requests listed and not yet removed are distinct and in the cache. -/
def Listed (cache : AList fun _ : T => CallId) (requestList : List T) : Prop :=
  requestList.Nodup ∧ ∀ k ∈ requestList, k ∈ cache

theorem Listed.nil {cache : AList fun _ : T => CallId} : Listed cache [] := by
  simp [Listed]

theorem Listed.sublist {cache : AList fun _ : T => CallId} {l l' : List T} (h : Listed cache l)
    (hl : l'.Sublist l) : Listed cache l' :=
  ⟨h.1.sublist hl,fun k hk => h.2 k (hl.subset hk)⟩

section

variable [DecidableEq Tid]

theorem Single.update (hs : Single s) (hlength : stack.length ≤ 1) (u : Tid) :
    (Function.update s.threads t stack u).length ≤ 1 := by
  by_cases hu : u = t
  · subst hu
    simpa using hlength
  · simpa [hu] using hs u

theorem inside_eq_zero (hm : MonitorCounts s) (h : s.monitor = .free) (hf : f ∈ s.threads t) :
    f.pc.inside = false := by
  have hzero : inside (s.threads t) = 0 := by simpa [h] using (hm t).symm
  by_contra hin
  exact absurd (inside_pos hf (by simpa using hin)) (by omega)

theorem outstanding_of_inside (hm : MonitorCounts s) (hf : f ∈ s.threads t)
    (hin : f.pc.inside = true) : outstanding s = outs (s.threads t) := by
  cases hmonitor : s.monitor with
  | free => simp [inside_eq_zero hm hmonitor hf] at hin
  | held owner again =>
    have howner : 0 < s.monitor.entries t := (hm t).symm ▸ inside_pos hf hin
    have hself : 0 < s.monitor.entries owner := by simp [hmonitor,Monitor.entries]
    obtain rfl := Monitor.entries_exclusive howner hself
    simp [outstanding,hmonitor]

theorem outstanding_update (hmonitor : s'.monitor = s.monitor)
    (hthreads : s'.threads = Function.update s.threads t stack)
    (houts : outs stack = outs (s.threads t)) : outstanding s' = outstanding s := by
  unfold outstanding
  rw [hmonitor,hthreads]
  cases s.monitor with
  | free => rfl
  | held owner again =>
    by_cases howner : owner = t
    · subst howner
      simpa using houts
    · simp [howner]

end

variable [DecidableEq T]

theorem Listed.insert {cache : AList fun _ : T => CallId} {l : List T} (h : Listed cache l) :
    Listed (cache.insert k c) l :=
  ⟨h.1,fun k' hk => (AList.mem_insert cache).mpr (.inr (h.2 k' hk))⟩

theorem Listed.erase {cache : AList fun _ : T => CallId} {l : List T} {i : ℕ}
    (h : Listed cache (l.drop i)) (hk : l[i]? = some k) : Listed (cache.erase k) (l.drop (i+1)) := by
  obtain ⟨hi,rfl⟩ := List.getElem?_eq_some_iff.mp hk
  rw [List.drop_eq_getElem_cons hi] at h
  obtain ⟨hnot,hnodup⟩ := List.nodup_cons.mp h.1
  refine ⟨hnodup,fun k hk => AList.mem_erase.mpr ⟨?_,h.2 k (List.mem_cons_of_mem _ hk)⟩⟩
  rintro rfl
  exact hnot hk

variable [DecidableEq Tid]

theorem Step.single (h : Step s a s') (hs : Single s) (hok : ClientSends s a) : Single s' := by
  cases h with
  | @send t k h =>
    have hempty : s.threads t = [] := List.isEmpty_iff.mp hok
    exact hs.update (by simp [hempty])
  | hit ht h => exact hs.update (by simp [hs.rest_eq_nil ht])
  | miss ht h => exact hs.update (by simp [hs.rest_eq_nil ht])
  | put ht => exact hs.update (by simp [hs.rest_eq_nil ht])
  | silent ht h => exact hs.update (by simp [hs.rest_eq_nil ht])
  | apply ht => exact hs.update (by simp [hs.rest_eq_nil ht])
  | applyReturn ht => exact hs.update (by simp [hs.rest_eq_nil ht])
  | remove ht hrequest hresponse h => exact hs.update (by simp [hs.rest_eq_nil ht])
  | complete ht => exact hs.update (by simp [hs.rest_eq_nil ht])
  | release ht => exact hs.update (by simp [hs.rest_eq_nil ht])
  | fail ht h => exact hs.update (by simp [hs.rest_eq_nil ht])

theorem Silent.listed {monitor : Monitor Tid} (h : Silent s t pc pc' monitor)
    (hs : Listed s.cache pc.pending) : Listed s.cache pc'.pending := by
  cases h with
  | snapshot h => exact ⟨h.1,h.2.2⟩
  | absent hrequest hresponse h => exact hs.sublist (List.drop_sublist_drop_left _ (Nat.le_succ _))
  | completed => exact hs
  | _ => exact Listed.nil

def Pending (s : State T R Tid) : Prop := ∀ t, ∀ f ∈ s.threads t, Listed s.cache f.pc.pending

theorem Step.pending (h : Step s a s') (hs : Pending s) (hm : MonitorCounts s) (hsingle : Single s) :
    Pending s' := by
  intro u g hg
  have hmoved : ∀ {t f f' rest}, s.threads t = f :: rest →
      (∀ l, Listed s.cache l → Listed s'.cache l) →
      (Listed s.cache f.pc.pending → Listed s'.cache f'.pc.pending) →
      g ∈ Function.update s.threads t (f' :: rest) u → Listed s'.cache g.pc.pending := by
    intro t f f' rest ht hcache hf hg
    obtain ⟨rfl,rfl⟩ | hg := mem_moved ht hg
    · exact hf (hs u f (mem_top ht))
    · exact hcache _ (hs u g hg)
  cases h with
  | send h =>
    obtain ⟨rfl,rfl⟩ | hg := mem_push hg
    · exact Listed.nil
    · exact hs u g hg
  | hit ht h => exact hs u g (mem_popped ht hg)
  | miss ht h => exact hmoved ht (fun _ => id) (fun _ => Listed.nil) hg
  | put ht => exact hmoved ht (fun _ => Listed.insert) (fun _ => Listed.nil) hg
  | silent ht h =>
    refine hmoved ht (fun _ => id) ?_ hg
    exact h.listed
  | apply ht =>
    refine hmoved ht (fun _ => id) ?_ hg
    exact id
  | applyReturn ht =>
    refine hmoved ht (fun _ => id) ?_ hg
    exact id
  | remove ht hrequest hresponse h =>
    -- no other call has requests pending while this one is inside the monitor
    obtain ⟨rfl,rfl⟩ | ⟨hrest,-⟩ | ⟨hother,hu⟩ := mem_move hg
    · exact (hs u _ (mem_top ht)).erase hrequest
    · simp [hsingle.rest_eq_nil ht] at hrest
    · have houtside : g.pc.inside = false :=
        Bool.eq_false_iff.mpr fun hin => hu (hm.exclusive hother (mem_top ht) hin rfl)
      rw [Pc.pending_eq_nil houtside]
      exact Listed.nil
  | complete ht =>
    refine hmoved ht (fun _ => id) ?_ hg
    exact id
  | release ht => exact hs u g (mem_popped ht hg)
  | fail ht h => exact hs u g (mem_popped ht hg)

theorem Silent.outstanding {monitor : Monitor Tid} (h : Silent s t pc pc' monitor)
    (hs : Listed s.cache pc.pending) : pc'.outstanding = pc.outstanding := by
  cases h with
  | loopEnd h => exact (List.drop_eq_nil_of_le (List.getElem?_eq_none_iff.mp h)).symm
  | @absent requestList responses i request response hrequest hresponse h =>
    -- a listed request stays in the cache until its own turn
    obtain ⟨hi,rfl⟩ := List.getElem?_eq_some_iff.mp hrequest
    have hmem : requestList[i] ∈ requestList.drop i := by
      rw [List.drop_eq_getElem_cons hi]
      exact List.mem_cons_self
    exact absurd (hs.2 _ hmem) (AList.lookup_eq_none.mp h)
  | _ => rfl

/-- The backend was sent what was removed and what is outstanding. -/
def Balanced (s : State T R Tid) : Prop :=
  ∀ k, batches k s.history = removals k s.history + (outstanding s).count k

theorem Balanced.quiet (hs : Balanced s) (hmonitor : s'.monitor = s.monitor)
    (hthreads : s'.threads = Function.update s.threads t stack)
    (houts : outs stack = outs (s.threads t))
    (hbatches : ∀ k, batches k s'.history = batches k s.history)
    (hremovals : ∀ k, removals k s'.history = removals k s.history) : Balanced s' := by
  intro k
  rw [hbatches,hremovals,outstanding_update hmonitor hthreads houts]
  exact hs k

theorem Balanced.acquire {monitor : Monitor Tid} (hs : Balanced s) (hm : MonitorCounts s)
    (ht : s.threads t = [⟨k,c,.acquire⟩]) (henter : s.monitor.enter t = some monitor) :
    Balanced ({ s with monitor := monitor }.setStack t [⟨k,c,.isEmpty⟩]) := by
  have hfree : s.monitor = .free :=
    Monitor.eq_free_of_enter henter (by simpa [ht,Pc.inside] using hm t)
  obtain rfl : .held t 0 = monitor := by simpa [hfree,Monitor.enter] using henter
  intro k
  simpa [outstanding,hfree,outs,Pc.outstanding] using hs k

theorem Balanced.apply {requestList : List T} (hs : Balanced s) (hm : MonitorCounts s)
    (ht : s.threads t = ⟨k,c,.apply requestList⟩ :: rest) (hnodup : requestList.Nodup)
    (hm' : MonitorCounts ((s.setStack t (⟨k,c,.applying requestList⟩ :: rest)).log
      (.apply requestList))) :
    Balanced ((s.setStack t (⟨k,c,.applying requestList⟩ :: rest)).log (.apply requestList)) := by
  intro k
  have hold := hs k
  rw [outstanding_of_inside hm (mem_top ht) rfl] at hold
  rw [outstanding_of_inside hm' (mem_top (Function.update_self t _ s.threads)) rfl]
  simp only [ht,outs_cons,Pc.outstanding,List.nil_append] at hold
  have hremovals : removals k (.apply requestList :: s.history) = removals k s.history := by
    simp [removals]
  simp only [State.log_history,State.setStack_history,State.log_threads,State.setStack_threads,
    Function.update_self,outs_cons,Pc.outstanding,List.count_append,hnodup.count,batches_apply,
    hremovals]
  omega

theorem Balanced.remove {requestList : List T} {responses : List R} {i : ℕ} {request : T}
    {response : R} {future : CallId} (hs : Balanced s) (hm : MonitorCounts s)
    (ht : s.threads t = ⟨k,c,.loop requestList responses i⟩ :: rest)
    (hrequest : requestList[i]? = some request)
    (hm' : MonitorCounts (({ s with cache := s.cache.erase request }.setStack t
      (⟨k,c,.complete requestList responses i response future⟩ :: rest)).log
      (.remove request future))) :
    Balanced (({ s with cache := s.cache.erase request }.setStack t
      (⟨k,c,.complete requestList responses i response future⟩ :: rest)).log
      (.remove request future)) := by
  intro k
  obtain ⟨hi,rfl⟩ := List.getElem?_eq_some_iff.mp hrequest
  have hold := hs k
  rw [outstanding_of_inside hm (mem_top ht) rfl] at hold
  rw [outstanding_of_inside hm' (mem_top (Function.update_self t _ s.threads)) rfl]
  have hbatches : batches k (.remove requestList[i] future :: s.history) = batches k s.history := by
    simp [batches]
  simp only [ht,outs_cons,Pc.outstanding,List.drop_eq_getElem_cons hi,List.cons_append,
    List.count_cons,List.count_append,beq_iff_eq] at hold
  simp only [State.log_history,State.setStack_history,State.log_threads,State.setStack_threads,
    Function.update_self,outs_cons,Pc.outstanding,List.count_append,removals_remove,hbatches]
  omega

theorem Balanced.release (hs : Balanced s) (hm : MonitorCounts s)
    (ht : s.threads t = [⟨k,c,.release⟩]) :
    Balanced (({ s with monitor := s.monitor.exit }.setStack t []).log (.return c k c)) := by
  intro k'
  have hold := hs k'
  rw [outstanding_of_inside hm (mem_top ht) rfl,ht] at hold
  have hnone : outstanding (({ s with monitor := s.monitor.exit }.setStack t []).log
      (.return c k c)) = [] := by
    refine outstanding_eq_nil fun u g hg => Pc.inBatch_inside ?_
    have hne : u ≠ t := by
      rintro rfl
      simp at hg
    have hother : g ∈ s.threads u := by simpa [hne] using hg
    exact Bool.eq_false_iff.mpr fun hin => hne (hm.exclusive hother (mem_top ht) hin rfl)
  rw [hnone]
  simpa [batches,removals,outs,Pc.outstanding] using hold

theorem Step.balanced (h : Step s a s') (hs : Balanced s) (hm : MonitorCounts s)
    (hsingle : Single s) (hp : Pending s)
    (hfails : ∀ {t f rest}, s.threads t = f :: rest → ¬ Fails t a f.pc) : Balanced s' := by
  have hm' := h.monitorCounts hm
  cases h with
  | send h => exact hs.quiet rfl rfl (by simp [Pc.outstanding]) (fun _ => rfl) (fun _ => rfl)
  | hit ht h =>
    exact hs.quiet rfl rfl (by simp [ht,Pc.outstanding]) (fun _ => rfl) (fun _ => rfl)
  | miss ht h =>
    exact hs.quiet rfl rfl (by simp [ht,Pc.outstanding]) (fun _ => rfl) (fun _ => rfl)
  | put ht =>
    exact hs.quiet rfl rfl (by simp [ht,Pc.outstanding]) (fun _ => rfl) (fun _ => rfl)
  | @silent a k₁ c pc pc' monitor rest ht h =>
    have houts := h.outstanding (hp _ _ (mem_top ht))
    obtain rfl := hsingle.rest_eq_nil ht
    cases h with
    | acquire henter => exact hs.acquire hm ht henter
    | _ => exact hs.quiet rfl rfl (by simp [ht,houts]) (fun _ => rfl) (fun _ => rfl)
  | apply ht => exact hs.apply hm ht (hp _ _ (mem_top ht)).1 hm'
  | applyReturn ht =>
    exact hs.quiet rfl rfl (by simp [ht,Pc.outstanding]) (fun _ => rfl) (fun _ => rfl)
  | remove ht hrequest hresponse h => exact hs.remove hm ht hrequest hm'
  | complete ht =>
    exact hs.quiet rfl rfl (by simp [ht,Pc.outstanding]) (fun _ => rfl) (fun _ => rfl)
  | release ht =>
    obtain rfl := hsingle.rest_eq_nil ht
    exact hs.release hm ht
  | fail ht h => exact absurd h (hfails ht)

theorem Step.nodup_removedFutures (h : Step s a s') (hs : Registered s)
    (hnodup : (removedFutures k s.history).Nodup) : (removedFutures k s'.history).Nodup := by
  cases h with
  | @remove t k₁ c₁ requestList responses i rest request response future ht _ _ hl =>
    by_cases hk : request = k
    · subst hk
      have hnot : future ∉ removedFutures request s.history :=
        fun hmem => (hs.cached hl).2 request (mem_removedFutures.mp hmem)
      simpa [removedFutures] using List.nodup_cons.mpr ⟨hnot,hnodup⟩
    · simpa [removedFutures,hk] using hnodup
  | _ => exact hnodup

/-- A call's future is removed at most once, so a request is removed at most as often as it was
sent. -/
theorem removals_le_sends (h : (machine T R Tid).Reachable ok s) (k : T) :
    removals k s.history ≤ sends k s.history := by
  have hregistered := reachable_registered h
  have hnodup : (removedFutures k s.history).Nodup := by
    apply h.invariant (I := fun s => (removedFutures k s.history).Nodup)
    · exact List.nodup_nil
    · exact fun s a s' hr ih _ hs =>
        (step_cases hs).nodup_removedFutures (reachable_registered hr) ih
  have hsubset : removedFutures k s.history ⊆ sentCalls k s.history := by
    intro c hc
    obtain ⟨o,ho⟩ := hregistered.removed (mem_removedFutures.mp hc)
    obtain ⟨t,ht⟩ := hregistered.sent ho
    exact mem_sentCalls_of_mem ht
  rw [← length_removedFutures,← length_sentCalls]
  exact (hnodup.subperm hsubset).length_le

/-- Every batch is answered, and neither the batch function nor a dependent action calls back. -/
def PlainUse (s : State T R Tid) (a : Action T R Tid) : Prop :=
  BatchReturns (· ≤ ·) s a ∧ ClientSends s a

instance (s : State T R Tid) (a : Action T R Tid) : Decidable (PlainUse s a) :=
  inferInstanceAs (Decidable (_ ∧ _))

theorem reachable_single (h : (machine T R Tid).Reachable PlainUse s) : Single s := by
  apply h.invariant (I := Single)
  · simp [machine,Single]
  · exact fun s a s' _ ih hok hs => (step_cases hs).single ih hok.2

theorem reachable_pending (h : (machine T R Tid).Reachable PlainUse s) : Pending s := by
  apply h.invariant (I := Pending)
  · simp [machine,Pending]
  · exact fun s a s' hr ih _ hs =>
      (step_cases hs).pending ih (reachable_monitorCounts hr) (reachable_single hr)

theorem reachable_balanced (h : (machine T R Tid).Reachable PlainUse s) : Balanced s := by
  apply h.invariant (I := Balanced)
  · exact fun k => rfl
  · intro s a s' hr ih hok hs
    have hanswered := hr.mono fun s a ha => ha.1
    exact (step_cases hs).balanced ih (reachable_monitorCounts hr) (reachable_single hr)
      (reachable_pending hr) (not_fails hanswered hok.1)

theorem apply_nodup (h : (machine T R Tid).Reachable PlainUse s) :
    ∀ requestList, .apply requestList ∈ s.history → requestList.Nodup := by
  apply h.invariant (I := fun s => ∀ requestList, .apply requestList ∈ s.history → requestList.Nodup)
  · simp [machine]
  · intro s a s' hr ih _ hs l hl
    cases step_cases hs with
    | apply ht =>
      obtain rfl | hold : _ ∨ _ := by simpa using hl
      · exact (reachable_pending hr _ _ (mem_top ht)).1
      · exact ih l hold
    | _ => exact ih l (by simpa using hl)

/-- No batch lists a request twice; and whenever no batch is in progress, the backend was sent each
request as often as a mapping for it was removed, which is at most as often as clients sent it. -/
theorem backend_load (h : (machine T R Tid).Reachable PlainUse s) :
    (∀ requestList, .apply requestList ∈ s.history → requestList.Nodup) ∧
      ((∀ t, ∀ f ∈ s.threads t, f.pc.inBatch = false) → ∀ k,
        batches k s.history = removals k s.history ∧
          removals k s.history ≤ sends k s.history) := by
  refine ⟨apply_nodup h,fun hidle k => ⟨?_,removals_le_sends h k⟩⟩
  have hbalanced := reachable_balanced h k
  simpa [outstanding_eq_nil hidle] using hbalanced

theorem backend_load_merged : ∃ s : State ℕ ℕ Bool,
    (machine ℕ ℕ Bool).Reachable PlainUse s ∧ batches 7 s.history = 1 ∧ sends 7 s.history = 2 ∧
      (∀ requestList, .apply requestList ∈ s.history → requestList.Nodup) ∧
      ∀ k, batches k s.history = removals k s.history ∧
        removals k s.history ≤ sends k s.history := by
  have hexec : ((machine ℕ ℕ Bool).exec PlainUse (machine ℕ ℕ Bool).init mergedRun).map
      (fun s => (decide (∀ t, (s.threads t).isEmpty),batches 7 s.history,sends 7 s.history)) =
        some (true,1,2) := by decide
  obtain ⟨s,hs,hobserve⟩ := Machine.exists_reachable _ _ hexec
  simp only [Prod.mk.injEq,decide_eq_true_eq,List.isEmpty_iff] at hobserve
  obtain ⟨hempty,hbatches,hsends⟩ := hobserve
  obtain ⟨hnodup,hload⟩ := backend_load hs
  exact ⟨s,hs,hbatches,hsends,hnodup,hload fun t f hf => by simp [hempty t] at hf⟩

end AggregatorMachine
end Potimizer

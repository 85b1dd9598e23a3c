import Potimizer.AggregatorThreads

/-! The life of a future: put once, removed at most once and only after its put, completed at most
once and only by the call that removed it, with the response listed for its request. -/
namespace Potimizer
namespace AggregatorMachine

open StepMachine ReentrantMonitor

variable {T R Tid : Type} [DecidableEq T] [DecidableEq Tid] {s s' : State T R Tid} {t u : Tid}
  {a : Action T R Tid} {k : T} {c : CallId} {o : Option CallId} {r : R} {f g : Frame T R}
  {ok : State T R Tid → Action T R Tid → Prop}

theorem Step.put_cases (h : Step s a s') (hp : .put k c o ∈ s'.history) :
    .put k c o ∈ s.history ∨ ∃ t rest, s.threads t = ⟨k,c,.put⟩ :: rest ∧
      o = s.cache.lookup k ∧ s'.threads = Function.update s.threads t (⟨k,c,.acquire⟩ :: rest) := by
  cases h with
  | put ht =>
    obtain ⟨rfl,rfl,rfl⟩ | hp : (_ ∧ _ ∧ _) ∨ _ := by simpa using hp
    · exact .inr ⟨_,_,ht,rfl,rfl⟩
    · exact .inl hp
  | _ => exact .inl (by simpa using hp)

theorem Step.remove_cases (h : Step s a s') (hr : .remove k c ∈ s'.history) :
    .remove k c ∈ s.history ∨ s.cache.lookup k = some c := by
  cases h with
  | remove ht hrequest hresponse h =>
    obtain ⟨rfl,rfl⟩ | hr : (_ ∧ _) ∨ _ := by simpa using hr
    · exact .inr h
    · exact .inl hr
  | _ => exact .inl (by simpa using hr)

structure Registered (s : State T R Tid) : Prop where
  sent : ∀ {k c o}, .put k c o ∈ s.history → ∃ t, .send t c k ∈ s.history
  unput : ∀ t, ∀ f ∈ s.threads t, f.pc.stage ≠ .registered → ∀ k o, .put k f.call o ∉ s.history
  removed : ∀ {k c}, .remove k c ∈ s.history → ∃ o, .put k c o ∈ s.history
  cached : ∀ {k c}, s.cache.lookup k = some c →
    (∃ o, .put k c o ∈ s.history) ∧ ∀ k', .remove k' c ∉ s.history

omit [DecidableEq Tid] in
theorem Registered.request_unique (hs : Registered s) (hn : Named s) {k k' : T}
    {o o' : Option CallId} (h : .put k c o ∈ s.history) (h' : .put k' c o' ∈ s.history) :
    k = k' := by
  obtain ⟨t,ht⟩ := hs.sent h
  obtain ⟨u,hu⟩ := hs.sent h'
  exact (hn.unique ht hu).2

theorem Step.put_sent (h : Step s a s') (hs : Registered s) (hn : Named s)
    (hp : .put k c o ∈ s'.history) : ∃ t, .send t c k ∈ s'.history := by
  obtain hold | ⟨t,rest,ht,-,-⟩ := h.put_cases hp
  · obtain ⟨t,ht⟩ := hs.sent hold
    exact ⟨t,h.history_mono ht⟩
  · exact ⟨t,h.history_mono (hn.sent t ⟨k,c,.put⟩ (by simp [ht]))⟩

theorem Step.unput (h : Step s a s') (hs : Registered s) (hn : Named s)
    (hq : ∀ t, Suspended (s.threads t)) (hf : f ∈ s'.threads t) (hpc : f.pc.stage ≠ .registered)
    (k : T) (o : Option CallId) : .put k f.call o ∉ s'.history := by
  intro hp
  obtain hold | ⟨u,rest,hu,-,hthreads⟩ := h.put_cases hp
  · obtain ⟨hcall,-⟩ | ⟨pc,hmem,hadvance⟩ := h.frame_cases hf
    · obtain ⟨v,hv⟩ := hs.sent hold
      exact absurd (hn.fresh hv) (by simp [hcall])
    · have hpc' : pc.stage ≠ .registered := fun hreg => hpc (hadvance.registered hreg)
      exact hs.unput t _ hmem hpc' k o hold
  · -- the call that puts is on top of its stack, and only the top can be before its put
    have hsent : .send u f.call k ∈ s'.history :=
      h.history_mono (hn.sent u ⟨k,f.call,.put⟩ (by simp [hu]))
    obtain ⟨rfl,-⟩ := (h.named hn).unique ((h.named hn).sent t f hf) hsent
    rw [hthreads,Function.update_self] at hf
    obtain hf | hf := List.mem_cons.mp hf
    · rw [hf] at hpc
      simp [Pc.stage] at hpc
    · have hout := hq t f (by simp [hu,hf])
      exact hpc (Pc.stage_of_callsOut hout)

theorem Step.put_of_removed (h : Step s a s') (hs : Registered s)
    (hr : .remove k c ∈ s'.history) : ∃ o, .put k c o ∈ s'.history := by
  obtain ⟨o,ho⟩ : ∃ o, .put k c o ∈ s.history := by
    obtain hold | hlookup := h.remove_cases hr
    · exact hs.removed hold
    · exact (hs.cached hlookup).1
  exact ⟨o,h.history_mono ho⟩

theorem Step.cached (h : Step s a s') (hs : Registered s) (hn : Named s)
    (hl : s'.cache.lookup k = some c) :
    (∃ o, .put k c o ∈ s'.history) ∧ ∀ k', .remove k' c ∉ s'.history := by
  cases h with
  | @put t k₁ c₁ rest ht =>
    by_cases hk : k = k₁
    · subst hk
      obtain rfl : c₁ = c := by simpa using hl
      refine ⟨⟨_,List.mem_cons_self⟩,fun k' hr => ?_⟩
      obtain ⟨o,ho⟩ := hs.removed (by simpa using hr)
      exact hs.unput t _ (mem_top ht) (by simp [Pc.stage]) k' o ho
    · have hold : s.cache.lookup k = some c := by simpa [hk] using hl
      obtain ⟨⟨o,ho⟩,hnot⟩ := hs.cached hold
      exact ⟨⟨o,by simp [ho]⟩,by simpa using hnot⟩
  | @remove t k₁ c₁ requestList responses i rest request response future ht hrequest hresponse hr =>
    have hk : k ≠ request := by
      rintro rfl
      simp at hl
    have hold : s.cache.lookup k = some c := by simpa [hk] using hl
    obtain ⟨⟨o,ho⟩,hnot⟩ := hs.cached hold
    refine ⟨⟨o,by simp [ho]⟩,fun k' hk' => ?_⟩
    obtain ⟨-,rfl⟩ | hk' : (_ ∧ _) ∨ _ := by simpa using hk'
    · obtain ⟨⟨o',ho'⟩,-⟩ := hs.cached hr
      exact hk (hs.request_unique hn ho ho')
    · exact hnot k' hk'
  | _ =>
    obtain ⟨⟨o,ho⟩,hnot⟩ := hs.cached (by simpa using hl)
    exact ⟨⟨o,by simp [ho]⟩,by simpa using hnot⟩

theorem reachable_registered (h : (machine T R Tid).Reachable ok s) : Registered s := by
  apply h.invariant (I := Registered)
  · exact ⟨by simp [machine],by simp [machine],by simp [machine],by simp [machine]⟩
  · intro s a s' hr ih _ hs
    have hstep := step_cases hs
    have hn := reachable_named hr
    exact ⟨hstep.put_sent ih hn,fun t f => hstep.unput ih hn (reachable_suspended hr),
      hstep.put_of_removed ih,hstep.cached ih hn⟩

def Pc.batch : Pc T R → Option (List T × List R)
  | .loop requestList responses _ => some (requestList,responses)
  | .complete requestList responses _ _ _ => some (requestList,responses)
  | .completing requestList responses _ => some (requestList,responses)
  | _ => none

def Answered (s : State T R Tid) (k : T) (r : R) : Prop :=
  ∃ (requestList : List T) (responses : List R) (i : ℕ),
    .applied requestList responses ∈ s.history ∧
      requestList[i]? = some k ∧ responses[i]? = some r

structure Delivering (s : State T R Tid) (r : R) (c : CallId) : Prop where
  answered : ∃ k, .remove k c ∈ s.history ∧ Answered s k r
  incomplete : ∀ r', .complete c r' ∉ s.history

def completions (c : CallId) (history : List (Event T R Tid)) : ℕ :=
  history.countP fun e => match e with
    | .complete c' _ => c' = c
    | _ => false

structure Delivered (s : State T R Tid) : Prop where
  batch : ∀ t, ∀ f ∈ s.threads t, ∀ {requestList responses},
    f.pc.batch = some (requestList,responses) → .applied requestList responses ∈ s.history
  delivering : ∀ t, ∀ f ∈ s.threads t, ∀ {requestList responses i r c},
    f.pc = .complete requestList responses i r c → Delivering s r c
  completed : ∀ {c r}, .complete c r ∈ s.history →
    ∃ k, .remove k c ∈ s.history ∧ Answered s k r
  once : ∀ c, completions c s.history ≤ 1
  futures : ∀ c r, s.futures c = some r ↔ .complete c r ∈ s.history

theorem Step.answered (h : Step s a s') (hr : Answered s k r) : Answered s' k r := by
  obtain ⟨requestList,responses,i,happlied,hget⟩ := hr
  exact ⟨requestList,responses,i,h.history_mono happlied,hget⟩

theorem Silent.batch {pc pc' : Pc T R} {monitor : Monitor Tid} (h : Silent s t pc pc' monitor) :
    pc'.batch = none ∨ pc'.batch = pc.batch := by
  cases h <;> simp [Pc.batch]

theorem Silent.not_complete {pc pc' : Pc T R} {monitor : Monitor Tid}
    (h : Silent s t pc pc' monitor) {requestList : List T} {responses : List R} {i : ℕ} :
    pc' ≠ .complete requestList responses i r c := by
  cases h <;> simp

theorem Step.batch (h : Step s a s') (hs : Delivered s) (hg : g ∈ s'.threads u)
    {requestList : List T} {responses : List R}
    (hb : g.pc.batch = some (requestList,responses)) :
    .applied requestList responses ∈ s'.history := by
  have hold : ∀ {u}, ∀ g ∈ s.threads u, g.pc.batch = some (requestList,responses) →
      .applied requestList responses ∈ s'.history :=
    fun g hg hb => h.history_mono (hs.batch _ g hg hb)
  have hmoved : ∀ {t f f' rest}, s.threads t = f :: rest →
      f'.pc.batch = none ∨ f'.pc.batch = f.pc.batch →
      g ∈ Function.update s.threads t (f' :: rest) u →
      .applied requestList responses ∈ s'.history := by
    intro t f f' rest ht hbatch hg
    obtain ⟨rfl,rfl⟩ | hg := mem_moved ht hg
    · obtain hnone | heq := hbatch
      · simp [hnone] at hb
      · exact hold f (mem_top ht) (heq ▸ hb)
    · exact hold g hg hb
  cases h with
  | send h =>
    obtain ⟨rfl,rfl⟩ | hg := mem_push hg
    · simp [Pc.batch] at hb
    · exact hold g hg hb
  | hit ht h => exact hold g (mem_popped ht hg) hb
  | miss ht h => exact hmoved ht (.inl rfl) hg
  | put ht => exact hmoved ht (.inl rfl) hg
  | silent ht h => exact hmoved ht h.batch hg
  | apply ht => exact hmoved ht (.inl rfl) hg
  | applyReturn ht =>
    obtain ⟨rfl,rfl⟩ | hg := mem_moved ht hg
    · obtain ⟨rfl,rfl⟩ : _ ∧ _ := by simpa [Pc.batch] using hb
      exact List.mem_cons_self
    · exact hold g hg hb
  | remove ht hrequest hresponse h =>
    refine hmoved ht ?_ hg
    exact .inr rfl
  | complete ht =>
    refine hmoved ht ?_ hg
    exact .inr rfl
  | release ht => exact hold g (mem_popped ht hg) hb
  | fail ht h => exact hold g (mem_popped ht hg) hb

theorem Delivering.step (h : Step s a s') (hs : Delivering s r c)
    (hnot : ∀ r', .complete c r' ∉ s'.history) : Delivering s' r c := by
  obtain ⟨k,hremove,hanswered⟩ := hs.answered
  exact ⟨⟨k,h.history_mono hremove,h.answered hanswered⟩,hnot⟩

/-- Two calls never deliver at once, and a future is not removed after it was completed. -/
theorem Step.delivering (h : Step s a s') (hs : Delivered s) (hreg : Registered s)
    (hq : ∀ t, Suspended (s.threads t)) (hm : MonitorCounts s) (hg : g ∈ s'.threads u)
    {requestList : List T} {responses : List R} {i : ℕ}
    (hpc : g.pc = .complete requestList responses i r c) : Delivering s' r c := by
  have hold : g ∈ s.threads u →
      (∀ r', .complete c r' ∈ s'.history → .complete c r' ∈ s.history) → Delivering s' r c := by
    intro hg hcomplete
    have hdelivering := hs.delivering u g hg hpc
    exact hdelivering.step h fun r' hr' => hdelivering.incomplete r' (hcomplete r' hr')
  have hmoved : ∀ {t f f' rest}, s.threads t = f :: rest →
      f'.pc ≠ .complete requestList responses i r c →
      (∀ r', .complete c r' ∈ s'.history → .complete c r' ∈ s.history) →
      g ∈ Function.update s.threads t (f' :: rest) u → Delivering s' r c := by
    intro t f f' rest ht hf' hcomplete hg
    obtain ⟨rfl,rfl⟩ | hg := mem_moved ht hg
    · exact absurd hpc hf'
    · exact hold hg hcomplete
  cases id h with
  | send h =>
    obtain ⟨rfl,rfl⟩ | hg := mem_push hg
    · simp at hpc
    · exact hold hg (by simp)
  | hit ht h => exact hold (mem_popped ht hg) (by simp)
  | miss ht h => exact hmoved ht (by simp) (by simp) hg
  | put ht => exact hmoved ht (by simp) (by simp) hg
  | silent ht hsilent => exact hmoved ht hsilent.not_complete (fun _ => id) hg
  | apply ht => exact hmoved ht (by simp) (by simp) hg
  | applyReturn ht => exact hmoved ht (by simp) (by simp) hg
  | @remove t k c₁ l rs j rest request response future ht hrequest hresponse hlookup =>
    obtain ⟨rfl,rfl⟩ | hg := mem_moved ht hg
    · obtain ⟨-,-,-,rfl,rfl⟩ : l = requestList ∧ rs = responses ∧ j = i ∧ response = r ∧
        future = c := by simpa using hpc
      refine ⟨⟨request,by simp,l,rs,j,?_,hrequest,hresponse⟩,fun r' hr' => ?_⟩
      · exact h.history_mono (hs.batch _ _ (mem_top ht) rfl)
      · obtain ⟨k',hremoved,-⟩ := hs.completed (show .complete future r' ∈ s.history by simpa using hr')
        exact (hreg.cached hlookup).2 k' hremoved
    · exact hold hg (by simp)
  | @complete t k c₁ l rs j response future rest ht =>
    -- the call that completes is on top of the only stack inside the monitor
    obtain ⟨rfl,rfl⟩ | ⟨hrest,rfl⟩ | ⟨hother,hu⟩ := mem_move hg
    · simp at hpc
    · have hout := hq u g (by simp [ht,hrest])
      simp [hpc,Pc.callsOut] at hout
    · exact absurd (hm.exclusive hother (mem_top ht) (by simp [hpc,Pc.inside]) rfl) hu
  | release ht => exact hold (mem_popped ht hg) (by simp)
  | fail ht h => exact hold (mem_popped ht hg) (by simp)

theorem Step.complete_cases (h : Step s a s') (hc : .complete c r ∈ s'.history) :
    .complete c r ∈ s.history ∨ ∃ t k c₁ requestList responses i rest,
      s.threads t = ⟨k,c₁,.complete requestList responses i r c⟩ :: rest := by
  cases h with
  | complete ht =>
    obtain ⟨rfl,rfl⟩ | hc : (_ ∧ _) ∨ _ := by simpa using hc
    · exact .inr ⟨_,_,_,_,_,_,_,ht⟩
    · exact .inl hc
  | _ => exact .inl (by simpa using hc)

theorem Step.completed (h : Step s a s') (hs : Delivered s) (hc : .complete c r ∈ s'.history) :
    ∃ k, .remove k c ∈ s'.history ∧ Answered s' k r := by
  obtain ⟨k,hremove,hanswered⟩ : ∃ k, .remove k c ∈ s.history ∧ Answered s k r := by
    obtain hold | ⟨t,k,c₁,l,rs,i,rest,ht⟩ := h.complete_cases hc
    · exact hs.completed hold
    · exact (hs.delivering t _ (mem_top ht) rfl).answered
  exact ⟨k,h.history_mono hremove,h.answered hanswered⟩

omit [DecidableEq T] [DecidableEq Tid] in
theorem completions_eq_zero {history : List (Event T R Tid)} (h : ∀ r, .complete c r ∉ history) :
    completions c history = 0 := by
  refine List.countP_eq_zero.mpr fun e he => ?_
  cases e with
  | complete c' r =>
    simp only [decide_eq_true_eq]
    rintro rfl
    exact h r he
  | _ => simp

theorem Step.once (h : Step s a s') (hs : Delivered s) (c : CallId) :
    completions c s'.history ≤ 1 := by
  cases h with
  | @complete t k c₁ l rs i response future rest ht =>
    by_cases hc : c = future
    · subst hc
      have hzero := completions_eq_zero
        (hs.delivering t _ (mem_top ht) rfl).incomplete
      simp [completions] at hzero ⊢
      omega
    · simpa [completions,Ne.symm hc] using hs.once c
  | _ => simpa [completions] using hs.once c

theorem Step.futures (h : Step s a s') (hs : Delivered s) (c : CallId) (r : R) :
    s'.futures c = some r ↔ .complete c r ∈ s'.history := by
  cases h with
  | @complete t k c₁ l rs i response future rest ht =>
    by_cases hc : c = future
    · subst hc
      have hincomplete :=
        (hs.delivering t _ (mem_top ht) rfl).incomplete
      have hnone : s.futures c = none := by
        refine Option.eq_none_iff_forall_ne_some.mpr fun r' hr' => ?_
        exact hincomplete r' ((hs.futures c r').mp hr')
      simp [hnone,hincomplete,eq_comm]
    · simpa [hc] using hs.futures c r
  | _ => simpa using hs.futures c r

theorem reachable_delivered (h : (machine T R Tid).Reachable ok s) : Delivered s := by
  apply h.invariant (I := Delivered)
  · exact ⟨by simp [machine],by simp [machine],by simp [machine],by simp [machine,completions],
      by simp [machine]⟩
  · intro s a s' hr ih _ hs
    have hstep := step_cases hs
    exact ⟨fun t f hf _ _ => hstep.batch ih hf,
      fun t f hf _ _ _ _ _ => hstep.delivering ih (reachable_registered hr)
        (reachable_suspended hr) (reachable_monitorCounts hr) hf,
      hstep.completed ih,hstep.once ih,hstep.futures ih⟩

/-- A call past its put has put its own future, and what a call returned some call has put. -/
structure Returned (s : State T R Tid) : Prop where
  putDone : ∀ t, ∀ f ∈ s.threads t, f.pc.stage = .registered →
    ∃ o, .put f.request f.call o ∈ s.history
  returned : ∀ {call k c}, .return call k c ∈ s.history → ∃ o, .put k c o ∈ s.history

theorem Step.putDone (h : Step s a s') (hs : Returned s) (hg : g ∈ s'.threads u)
    (hpc : g.pc.stage = .registered) : ∃ o, .put g.request g.call o ∈ s'.history := by
  obtain ⟨-,hget⟩ | ⟨pc,hold,hadvance⟩ := h.frame_cases hg
  · simp [hget,Pc.stage] at hpc
  · rw [hpc] at hadvance
    cases hstage : pc.stage with
    | registered =>
      obtain ⟨o,ho⟩ := hs.putDone u _ hold hstage
      exact ⟨o,h.history_mono ho⟩
    | missed =>
      rw [hstage] at hadvance
      cases hadvance with
      | put h => exact ⟨_,h⟩
    | looking =>
      rw [hstage] at hadvance
      cases hadvance

theorem Step.return_cases {call : CallId} (h : Step s a s') (hr : .return call k c ∈ s'.history) :
    .return call k c ∈ s.history ∨ s.cache.lookup k = some c ∨
      call = c ∧ ∃ t rest, s.threads t = ⟨k,c,.release⟩ :: rest := by
  cases h with
  | hit ht h =>
    obtain ⟨rfl,rfl,rfl⟩ | hr : (_ ∧ _ ∧ _) ∨ _ := by simpa using hr
    · exact .inr (.inl h)
    · exact .inl hr
  | release ht =>
    obtain ⟨rfl,rfl,rfl⟩ | hr : (_ ∧ _ ∧ _) ∨ _ := by simpa using hr
    · exact .inr (.inr ⟨rfl,_,_,ht⟩)
    · exact .inl hr
  | _ => exact .inl (by simpa using hr)

theorem Step.returned {call : CallId} (h : Step s a s') (hs : Returned s) (hreg : Registered s)
    (hr : .return call k c ∈ s'.history) : ∃ o, .put k c o ∈ s'.history := by
  obtain ⟨o,ho⟩ : ∃ o, .put k c o ∈ s.history := by
    obtain hold | hlookup | ⟨-,t,rest,ht⟩ := h.return_cases hr
    · exact hs.returned hold
    · exact (hreg.cached hlookup).1
    · exact hs.putDone t _ (mem_top ht) rfl
  exact ⟨o,h.history_mono ho⟩

theorem reachable_returned (h : (machine T R Tid).Reachable ok s) : Returned s := by
  apply h.invariant (I := Returned)
  · exact ⟨by simp [machine],by simp [machine]⟩
  · intro s a s' hr ih _ hs
    have hstep := step_cases hs
    exact ⟨fun t f hf => hstep.putDone ih hf,hstep.returned ih (reachable_registered hr)⟩

/-- In every run, also with re-entrant calls and failing batches, a future that was returned for a
request is completed at most once, and only with a response some batch gave to that request. -/
theorem returned_future_answered {call : CallId}
    (h : (machine T R Tid).Reachable (fun _ _ => True) s)
    (hr : .return call k c ∈ s.history) :
    completions c s.history ≤ 1 ∧ ∀ r, s.futures c = some r → Answered s k r := by
  have hdelivered := reachable_delivered h
  have hregistered := reachable_registered h
  refine ⟨hdelivered.once c,fun r hr' => ?_⟩
  obtain ⟨k',hremove,hanswered⟩ := hdelivered.completed ((hdelivered.futures c r).mp hr')
  obtain ⟨o,ho⟩ := (reachable_returned h).returned hr
  obtain ⟨o',ho'⟩ := hregistered.removed hremove
  obtain rfl := hregistered.request_unique (reachable_named h) ho ho'
  exact hanswered

/-- A dependent action of the first future sends a second request from inside `complete`. -/
def reentrantRun : List (Action ℕ ℕ Unit) :=
  [.send () 7,.run (),.run (),.run (),.run (),.run (),.snapshot () [7],.run (),
    .applyReturn () [70],.run (),.run (),
    .send () 8,.run (),.run (),.run (),.run (),.run (),.snapshot () [8],.run (),
    .applyReturn () [80],.run (),.run (),.run (),.run (),.run ()]

theorem returned_future_answered_reentrant : ∃ s : State ℕ ℕ Unit,
    (machine ℕ ℕ Unit).Reachable (fun _ _ => True) s ∧ .return 1 8 1 ∈ s.history ∧
      s.futures 1 = some 80 ∧ completions 1 s.history ≤ 1 ∧ Answered s 8 80 := by
  have hexec : ((machine ℕ ℕ Unit).exec (fun _ _ => True) (machine ℕ ℕ Unit).init
      reentrantRun).map (fun s => (decide (.return 1 8 1 ∈ s.history),s.futures 1)) =
        some (true,some 80) := by decide
  obtain ⟨s,hs,hobserve⟩ := Machine.exists_reachable _ _ hexec
  have hr := of_decide_eq_true (congrArg Prod.fst hobserve)
  have hf := congrArg Prod.snd hobserve
  obtain ⟨honce,hanswered⟩ := returned_future_answered hs hr
  exact ⟨s,hs,hr,hf,honce,hanswered 80 hf⟩

end AggregatorMachine
end Potimizer

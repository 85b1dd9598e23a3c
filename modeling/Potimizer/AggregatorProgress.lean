import Potimizer.AggregatorCoalescing

/-! Progress. A call takes a bounded number of steps of its own, so that a run is bounded by the
number of its calls; and while a call is in progress some call can go on, because the call on
top of the stack of the monitor's owner never waits. -/
namespace Potimizer
namespace AggregatorMachine

open StepMachine ReentrantMonitor

section Spending

variable {T R Tid : Type}

def Action.isSend : Action T R Tid → Bool
  | .send _ _ => true
  | _ => false

/-- The call that takes the step: a new call, or the one on top of the thread's stack. -/
def runner (s : State T R Tid) : Action T R Tid → CallId
  | .send _ _ => s.calls
  | a => ((s.threads a.thread).head?.map Frame.call).getD 0

/-- The most steps a call has taken to come here, when no batch lists more than `n` requests. -/
def Pc.spent (n : ℕ) : Pc T R → ℕ
  | .get => 1
  | .put => 2
  | .acquire => 3
  | .isEmpty => 4
  | .keySet => 5
  | .snapshot _ => 6
  | .apply _ => 7
  | .applying _ => 8
  | .loop _ _ i => 9+3*i
  | .complete _ _ i _ _ => 10+3*i
  | .completing _ _ i => 11+3*i
  | .release => 10+3*n

/-- The batch a call has collected lists at most `n` requests, and the call has not left it. -/
def Pc.Within (n : ℕ) : Pc T R → Prop
  | .apply requestList => requestList.length ≤ n
  | .applying requestList => requestList.length ≤ n
  | .loop requestList _ i => requestList.length ≤ n ∧ i ≤ requestList.length
  | .complete requestList _ i _ _ => requestList.length ≤ n ∧ i < requestList.length
  | .completing requestList _ i => requestList.length ≤ n ∧ i < requestList.length
  | _ => True

variable {pc : Pc T R} {n m : ℕ}

theorem Pc.spent_mono (h : n ≤ m) : pc.spent n ≤ pc.spent m := by
  cases pc with
  | release => exact Nat.add_le_add_left (Nat.mul_le_mul_left 3 h) 10
  | _ => exact le_rfl

theorem Pc.Within.mono (hpc : pc.Within n) (h : n ≤ m) : pc.Within m := by
  cases pc with
  | apply requestList => exact Nat.le_trans hpc h
  | applying requestList => exact Nat.le_trans hpc h
  | loop requestList responses i => exact ⟨hpc.1.trans h,hpc.2⟩
  | complete requestList responses i response future => exact ⟨hpc.1.trans h,hpc.2⟩
  | completing requestList responses i => exact ⟨hpc.1.trans h,hpc.2⟩
  | _ => trivial

theorem Pc.Within.spent_le (hpc : pc.Within n) : pc.spent n ≤ 10+3*n := by
  cases pc with
  | loop requestList responses i =>
    obtain ⟨hlength,hi⟩ := hpc
    simp only [Pc.spent]
    omega
  | complete requestList responses i response future =>
    obtain ⟨hlength,hi⟩ := hpc
    simp only [Pc.spent]
    omega
  | completing requestList responses i =>
    obtain ⟨hlength,hi⟩ := hpc
    simp only [Pc.spent]
    omega
  | _ => simp [Pc.spent] <;> omega

end Spending

variable {T R Tid : Type} [DecidableEq T] [DecidableEq Tid] {s s' : State T R Tid} {t u : Tid}
  {a : Action T R Tid} {k : T} {c : CallId} {f g : Frame T R} {rest : List (Frame T R)}
  {pc pc' : Pc T R} {charges : List CallId} {ok : State T R Tid → Action T R Tid → Prop}

omit [DecidableEq Tid] in
theorem length_keys_le (hreg : Registered s) (hn : Named s) : s.cache.keys.length ≤ s.calls := by
  have hput : ∀ k ∈ s.cache.keys, ∃ c, s.cache.lookup k = some c ∧ ∃ t, .send t c k ∈ s.history := by
    intro k hk
    obtain ⟨c,hc⟩ := Option.isSome_iff_exists.mp (AList.lookup_isSome.mpr (AList.mem_keys.mpr hk))
    obtain ⟨⟨o,ho⟩,-⟩ := hreg.cached hc
    exact ⟨c,hc,hreg.sent ho⟩
  choose! future hlookup hsent using hput
  have hnodup : (s.cache.keys.map future).Nodup := by
    refine List.Nodup.map_on (fun k hk k' hk' heq => ?_) s.cache.nodupKeys
    obtain ⟨t,ht⟩ := hsent k hk
    obtain ⟨u,hu⟩ := hsent k' hk'
    exact (hn.unique ht (heq ▸ hu)).2
  have hsubset : s.cache.keys.map future ⊆ List.range s.calls := by
    intro c hc
    obtain ⟨k,hk,rfl⟩ := List.mem_map.mp hc
    obtain ⟨t,ht⟩ := hsent k hk
    exact List.mem_range.mpr (hn.fresh ht)
  simpa using (hnodup.subperm hsubset).length_le

omit [DecidableEq Tid] in
theorem length_le_of_isSnapshot {present requestList : List T} (hreg : Registered s) (hn : Named s)
    (h : IsSnapshot s present requestList) : requestList.length ≤ s.calls := by
  have hsubset : requestList ⊆ s.cache.keys := fun k hk => AList.mem_keys.mp (h.2.2 k hk)
  exact ((h.1.subperm hsubset).length_le).trans (length_keys_le hreg hn)

theorem Silent.spends {monitor : Monitor Tid} (h : Silent s t pc pc' monitor) (hreg : Registered s)
    (hn : Named s) (hpc : pc.Within s.calls) :
    pc.spent s.calls < pc'.spent s.calls ∧ pc'.Within s.calls := by
  cases h with
  | snapshot h => exact ⟨by simp [Pc.spent],length_le_of_isSnapshot hreg hn h⟩
  | @loopEnd requestList responses i h =>
    obtain ⟨hlength,hi⟩ := hpc
    refine ⟨?_,trivial⟩
    simp only [Pc.spent]
    omega
  | @absent requestList responses i request response hrequest hresponse h =>
    have hi := (List.getElem?_eq_some_iff.mp hrequest).1
    refine ⟨?_,hpc.1,hi⟩
    simp only [Pc.spent]
    omega
  | @completed requestList responses i =>
    refine ⟨?_,hpc.1,hpc.2⟩
    simp only [Pc.spent]
    omega
  | _ =>
    refine ⟨?_,trivial⟩
    simp only [Pc.spent]
    omega

omit [DecidableEq T] [DecidableEq Tid] in
theorem call_ne (hn : Named s) (hd : Distinct s) (ht : s.threads t = f :: rest)
    (hg : g ∈ rest ∧ u = t ∨ g ∈ s.threads u ∧ u ≠ t) : g.call ≠ f.call := by
  intro hcall
  obtain ⟨hrest,rfl⟩ | ⟨hother,hu⟩ := hg
  · have hnodup := hd u
    rw [ht] at hnodup
    exact (List.nodup_cons.mp hnodup).1 (List.mem_map.mpr ⟨g,hrest,hcall⟩)
  · have hsent := hn.sent u g hother
    rw [hcall] at hsent
    exact hu (hn.unique hsent (hn.sent t f (mem_top ht))).1

/-- The call was charged for no more steps than it can have taken. -/
def Spends (charges : List CallId) (n : ℕ) (f : Frame T R) : Prop :=
  charges.count f.call ≤ f.pc.spent n ∧ f.pc.Within n

omit [DecidableEq T] [DecidableEq Tid] in
theorem Spends.other {n : ℕ} (h : Spends charges n g) (hc : g.call ≠ c) :
    Spends (c :: charges) n g := by
  refine ⟨?_,h.2⟩
  rw [List.count_cons_of_ne hc.symm]
  exact h.1

omit [DecidableEq T] [DecidableEq Tid] in
theorem Spends.mono {n m : ℕ} (h : Spends charges n g) (hn : n ≤ m) : Spends charges m g :=
  ⟨h.1.trans (Pc.spent_mono hn),h.2.mono hn⟩

structure Metered (charges : List CallId) (s : State T R Tid) : Prop where
  known : ∀ c ∈ charges, c < s.calls
  spends : ∀ t, ∀ f ∈ s.threads t, Spends charges s.calls f
  bounded : ∀ c, charges.count c ≤ 11+3*s.calls

omit [DecidableEq T] [DecidableEq Tid] in
theorem Metered.charge (hs : Metered charges s) (hn : Named s) (hf : f ∈ s.threads t) :
    (∀ c ∈ f.call :: charges, c < s.calls) ∧
      ∀ c, (f.call :: charges).count c ≤ 11+3*s.calls := by
  refine ⟨?_,fun c => ?_⟩
  · rintro c (_|⟨_,hc⟩)
    · exact hn.fresh (hn.sent t f hf)
    · exact hs.known c hc
  · by_cases hc : f.call = c
    · subst hc
      obtain ⟨hspent,hwithin⟩ := hs.spends t f hf
      have hle := hwithin.spent_le
      rw [List.count_cons_self]
      omega
    · rw [List.count_cons_of_ne hc]
      exact hs.bounded c

omit [DecidableEq T] in
theorem Metered.move (hs : Metered charges s) (hn : Named s) (hd : Distinct s)
    (ht : s.threads t = ⟨k,c,pc⟩ :: rest) (hcalls : s'.calls = s.calls)
    (hthreads : s'.threads = Function.update s.threads t (⟨k,c,pc'⟩ :: rest))
    (hpc : pc.spent s.calls < pc'.spent s.calls ∧ pc'.Within s.calls) :
    Metered (c :: charges) s' := by
  obtain ⟨hknown,hbounded⟩ := hs.charge hn (mem_top ht)
  refine ⟨hcalls ▸ hknown,fun u g hg => ?_,hcalls ▸ hbounded⟩
  rw [hthreads] at hg
  rw [hcalls]
  obtain ⟨rfl,rfl⟩ | hother := mem_move hg
  · obtain ⟨hspent,-⟩ := hs.spends u _ (mem_top ht)
    refine ⟨?_,hpc.2⟩
    rw [List.count_cons_self]
    exact Nat.succ_le_of_lt (hspent.trans_lt hpc.1)
  · have hmem : g ∈ s.threads u := by
      obtain ⟨hrest,rfl⟩ | ⟨hmem,-⟩ := hother
      · exact ht ▸ List.mem_cons_of_mem _ hrest
      · exact hmem
    exact (hs.spends u g hmem).other (call_ne hn hd ht hother)

omit [DecidableEq T] in
theorem Metered.pop (hs : Metered charges s) (hn : Named s) (hd : Distinct s)
    (ht : s.threads t = f :: rest) (hcalls : s'.calls = s.calls)
    (hthreads : s'.threads = Function.update s.threads t rest) :
    Metered (f.call :: charges) s' := by
  obtain ⟨hknown,hbounded⟩ := hs.charge hn (mem_top ht)
  refine ⟨hcalls ▸ hknown,fun u g hg => ?_,hcalls ▸ hbounded⟩
  rw [hthreads] at hg
  rw [hcalls]
  have hother : g ∈ rest ∧ u = t ∨ g ∈ s.threads u ∧ u ≠ t := by
    by_cases hu : u = t
    · subst hu
      exact .inl ⟨by simpa using hg,rfl⟩
    · exact .inr ⟨by simpa [hu] using hg,hu⟩
  exact (hs.spends u g (mem_popped ht hg)).other (call_ne hn hd ht hother)

omit [DecidableEq T] in
theorem Metered.push (hs : Metered charges s) (hn : Named s) (hcalls : s'.calls = s.calls+1)
    (hthreads : s'.threads = Function.update s.threads t (⟨k,s.calls,.get⟩ :: s.threads t)) :
    Metered (s.calls :: charges) s' := by
  have hnew : charges.count s.calls = 0 :=
    List.count_eq_zero_of_not_mem fun hmem => lt_irrefl _ (hs.known _ hmem)
  refine ⟨?_,fun u g hg => ?_,fun c => ?_⟩
  · rw [hcalls]
    rintro c (_|⟨_,hc⟩)
    · exact Nat.lt_succ_self _
    · exact Nat.lt_succ_of_lt (hs.known c hc)
  · rw [hthreads] at hg
    rw [hcalls]
    obtain ⟨rfl,rfl⟩ | hg := mem_push hg
    · exact ⟨by simp [hnew,Pc.spent],trivial⟩
    · have hold := hn.fresh (hn.sent u g hg)
      exact ((hs.spends u g hg).mono (Nat.le_succ _)).other hold.ne
  · rw [hcalls]
    by_cases hc : s.calls = c
    · subst hc
      rw [List.count_cons_self]
      omega
    · have hbounded := hs.bounded c
      rw [List.count_cons_of_ne hc]
      omega

omit [DecidableEq T] [DecidableEq Tid] in
theorem runner_of_top (hsend : a.isSend = false) (ht : s.threads a.thread = f :: rest) :
    runner s a = f.call := by
  cases a with
  | send t k => cases hsend
  | _ => simp [runner,ht]

omit [DecidableEq T] [DecidableEq Tid] in
theorem Fails.not_send (h : Fails t a pc) : a.isSend = false := by
  cases h <;> rfl

theorem step_send (h : (machine T R Tid).step s (.send t k) = some s') :
    s' = ({ s with calls := s.calls+1 }.setStack t (⟨k,s.calls,.get⟩ :: s.threads t)).log
      (.send t s.calls k) := by
  change step s (.send t k) = some s' at h
  simp only [step] at h
  split_ifs at h
  exact (Option.some.inj h).symm

theorem step_calls (h : (machine T R Tid).step s a = some s') :
    s'.calls = s.calls+if a.isSend then 1 else 0 := by
  cases hsend : a.isSend with
  | true =>
    cases a with
    | send t k => exact step_send h ▸ rfl
    | _ => cases hsend
  | false =>
    cases step_cases h with
    | send h => cases hsend
    | _ => rfl

theorem exec_calls [∀ s a, Decidable (ok s a)] {actions : List (Action T R Tid)}
    (h : (machine T R Tid).exec ok s actions = some s') :
    s'.calls = s.calls+actions.countP Action.isSend := by
  induction actions generalizing s with
  | nil =>
    obtain rfl : s = s' := Option.some.inj h
    rfl
  | cons a actions ih =>
    rw [Machine.exec] at h
    split_ifs at h
    obtain ⟨u,hu,hrest⟩ := Option.bind_eq_some_iff.mp h
    rw [ih hrest,step_calls hu,List.countP_cons]
    omega

theorem Metered.step (hs : Metered charges s) (hreg : Registered s) (hn : Named s)
    (hd : Distinct s) (hstep : (machine T R Tid).step s a = some s') :
    Metered (runner s a :: charges) s' := by
  cases hsend : a.isSend with
  | true =>
    cases a with
    | send t k => exact step_send hstep ▸ hs.push hn rfl rfl
    | _ => cases hsend
  | false =>
    cases step_cases hstep with
    | send h => cases hsend
    | hit ht h =>
      rw [runner_of_top rfl ht]
      exact hs.pop hn hd ht rfl rfl
    | miss ht h =>
      rw [runner_of_top rfl ht]
      exact hs.move hn hd ht rfl rfl ⟨by simp [Pc.spent],trivial⟩
    | put ht =>
      rw [runner_of_top rfl ht]
      exact hs.move hn hd ht rfl rfl ⟨by simp [Pc.spent],trivial⟩
    | silent ht h =>
      rw [runner_of_top hsend ht]
      obtain ⟨-,hwithin⟩ := hs.spends _ _ (mem_top ht)
      exact hs.move hn hd ht rfl rfl (h.spends hreg hn hwithin)
    | apply ht =>
      rw [runner_of_top rfl ht]
      obtain ⟨-,hwithin⟩ := hs.spends _ _ (mem_top ht)
      exact hs.move hn hd ht rfl rfl ⟨by simp [Pc.spent],hwithin⟩
    | applyReturn ht =>
      rw [runner_of_top rfl ht]
      obtain ⟨-,hwithin⟩ := hs.spends _ _ (mem_top ht)
      exact hs.move hn hd ht rfl rfl ⟨by simp [Pc.spent],hwithin,Nat.zero_le _⟩
    | remove ht hrequest hresponse h =>
      rw [runner_of_top rfl ht]
      obtain ⟨-,hlength,-⟩ := hs.spends _ _ (mem_top ht)
      have hi := (List.getElem?_eq_some_iff.mp hrequest).1
      exact hs.move hn hd ht rfl rfl ⟨by simp [Pc.spent],hlength,hi⟩
    | complete ht =>
      rw [runner_of_top rfl ht]
      obtain ⟨-,hwithin⟩ := hs.spends _ _ (mem_top ht)
      exact hs.move hn hd ht rfl rfl ⟨by simp [Pc.spent],hwithin⟩
    | release ht =>
      rw [runner_of_top rfl ht]
      exact hs.pop hn hd ht rfl rfl
    | fail ht h =>
      obtain rfl := h.thread.1
      rw [runner_of_top h.not_send ht]
      exact hs.pop hn hd ht rfl rfl

theorem metered_of_charged (h : (machine T R Tid).Charged ok runner charges s) :
    Metered charges s := by
  induction h with
  | init => exact ⟨by simp,by simp [machine],by simp⟩
  | step h hok hs ih =>
    have hr := h.reachable
    exact ih.step (reachable_registered hr) (reachable_named hr) (reachable_distinct hr) hs

theorem charged_length_le (h : (machine T R Tid).Charged ok runner charges s) :
    charges.length ≤ s.calls*(11+3*s.calls) := by
  have hmetered := metered_of_charged h
  have hknown : ∀ c ∈ charges, c ∈ Finset.range s.calls :=
    fun c hc => Finset.mem_range.mpr (hmetered.known c hc)
  simpa using length_le_of_charges hknown fun c _ => hmetered.bounded c

/-- A run that sends `n` requests takes at most `n*(11+3*n)` steps in all, also with re-entrant
calls, failing batches and threads that interleave in any order. -/
theorem run_length_le {actions : List (Action T R Tid)}
    (h : (machine T R Tid).exec (fun _ _ => True) (machine T R Tid).init actions = some s) :
    actions.length ≤
      actions.countP Action.isSend*(11+3*actions.countP Action.isSend) := by
  have hinit : (machine T R Tid).Charged (fun _ _ => True) runner [] (machine T R Tid).init := .init
  obtain ⟨charges,hcharged,hlength⟩ := hinit.exec h
  have hle := charged_length_le hcharged
  have hcalls : s.calls = actions.countP Action.isSend := by simpa [machine] using exec_calls h
  rw [hlength,hcalls] at hle
  simpa using hle

theorem run_length_le_merged : mergedRun.length ≤
    mergedRun.countP Action.isSend*(11+3*mergedRun.countP Action.isSend) := by
  obtain ⟨s,hs⟩ : ∃ s, (machine ℕ ℕ Bool).exec (fun _ _ => True) (machine ℕ ℕ Bool).init
      mergedRun = some s := Option.isSome_iff_exists.mp (by decide)
  exact run_length_le hs

/-- Each call of the batch function does what `backend` says, which may depend on all that happened
before: it returns responses, or it throws. -/
def Backend (backend : State T R Tid → List T → Option (List R)) (s : State T R Tid) :
    Action T R Tid → Prop
  | .applyReturn t responses => backend s (applyingList (s.threads t)) = some responses
  | .applyThrow t => backend s (applyingList (s.threads t)) = none
  | _ => True

instance [DecidableEq R] (backend : State T R Tid → List T → Option (List R)) (s : State T R Tid) :
    ∀ a, Decidable (Backend backend s a)
  | .applyReturn t responses =>
    inferInstanceAs (Decidable (backend s (applyingList (s.threads t)) = some responses))
  | .applyThrow t => inferInstanceAs (Decidable (backend s (applyingList (s.threads t)) = none))
  | .send _ _ => .isTrue trivial
  | .run _ => .isTrue trivial
  | .snapshot _ _ => .isTrue trivial

omit [DecidableEq T] in
theorem MonitorCounts.free (hm : MonitorCounts s) (hq : Quiescent s) : s.monitor = .free := by
  cases hmonitor : s.monitor with
  | free => rfl
  | held owner again =>
    have howner := hm owner
    simp [hmonitor,hq owner,Monitor.entries] at howner

end AggregatorMachine
end Potimizer

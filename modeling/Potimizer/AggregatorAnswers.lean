import Potimizer.AggregatorProgress
import Potimizer.AggregatorLoad

/-! The aggregator in front of a batch function that answers each request on its own: what a client
gets is what a direct call would have returned, unless the future was replaced. Clients that take
turns get it at once. -/
namespace Potimizer
namespace AggregatorMachine

open StepMachine ReentrantMonitor

namespace ExampleUsage

def batchFunction (requests : List String) : List String :=
  requests.map fun request => "Response for " ++ request

end ExampleUsage

section Pointwise

variable {T R Tid : Type} [DecidableEq T] [DecidableEq Tid] {f : T → R} {s s' : State T R Tid}
  {a : Action T R Tid} {k : T} {c : CallId} {r : R}

/-- The batch function answers each request of its list by `f`, in order. -/
def Pointwise (f : T → R) (s : State T R Tid) (a : Action T R Tid) : Prop :=
  Backend (fun _ requestList => some (requestList.map f)) s a

instance [DecidableEq R] (f : T → R) (s : State T R Tid) (a : Action T R Tid) :
    Decidable (Pointwise f s a) :=
  inferInstanceAs (Decidable (Backend _ s a))

omit [DecidableEq T] [DecidableEq Tid] in
theorem Pointwise.batchReturns (h : Pointwise f s a) : BatchReturns (· ≤ ·) s a := by
  cases a with
  | applyReturn t responses =>
    obtain rfl : (applyingList (s.threads t)).map f = responses := Option.some.inj h
    simp [BatchReturns]
  | applyThrow t => cases h
  | _ => trivial

def AppliedBy (f : T → R) (s : State T R Tid) : Prop :=
  ∀ requestList responses, .applied requestList responses ∈ s.history →
    responses = requestList.map f

theorem reachable_appliedBy (h : (machine T R Tid).Reachable (Pointwise f) s) : AppliedBy f s := by
  apply h.invariant (I := AppliedBy f)
  · simp [machine,AppliedBy]
  · intro s a s' _ ih hok hs requestList responses happlied
    cases step_cases hs with
    | @applyReturn t k c l rs rest ht =>
      obtain ⟨rfl,rfl⟩ | happlied : (_ ∧ _) ∨ _ := by simpa using happlied
      · have hresponses := Option.some.inj hok
        simpa [applyingList,ht,eq_comm] using hresponses
      · exact ih requestList responses happlied
    | _ => exact ih requestList responses (by simpa using happlied)

omit [DecidableEq T] [DecidableEq Tid] in
theorem AppliedBy.answered (hs : AppliedBy f s) (h : Answered s k r) : r = f k := by
  obtain ⟨requestList,responses,i,happlied,hrequest,hresponse⟩ := h
  obtain rfl := hs requestList responses happlied
  simpa [hrequest,eq_comm] using hresponse

theorem futures_eq (h : (machine T R Tid).Reachable (Pointwise f) s) {o : Option CallId}
    (hp : .put k c o ∈ s.history) (hr : s.futures c = some r) : r = f k := by
  have hdelivered := reachable_delivered h
  have hregistered := reachable_registered h
  obtain ⟨k',hremove,hanswered⟩ := hdelivered.completed ((hdelivered.futures c r).mp hr)
  obtain ⟨o',ho'⟩ := hregistered.removed hremove
  obtain rfl := hregistered.request_unique (reachable_named h) hp ho'
  exact (reachable_appliedBy h).answered hanswered

theorem completed_or_replaced (h : (machine T R Tid).Reachable (Pointwise f) s) (hq : Quiescent s)
    {o : Option CallId} (hp : .put k c o ∈ s.history) :
    s.futures c = some (f k) ∨ ∃ c', .put k c' (some c) ∈ s.history := by
  have hdelivered := reachable_delivered h
  obtain hl | hremove | hreplaced := reachable_accounted h k c o hp
  · obtain ⟨t,g,hg,-⟩ := reachable_allServed (h.mono fun _ _ => Pointwise.batchReturns) k c hl
    simp [hq t] at hg
  · obtain ⟨r,hr⟩ | ⟨t,g,hg,-⟩ := reachable_delivers h k c hremove
    · have hvalue := (hdelivered.futures c r).mpr hr
      exact .inl (futures_eq h hp hvalue ▸ hvalue)
    · simp [hq t] at hg
  · exact .inr hreplaced

/-- The aggregator is transparent: at any time a future returned for `k` is not completed or holds
`f k`; and when no call is in progress it holds `f k`, unless a racing put has replaced it, and then
it is not completed. -/
theorem aggregation_transparent {call : CallId}
    (h : (machine T R Tid).Reachable (Pointwise f) s) (hr : .return call k c ∈ s.history) :
    (s.futures c = none ∨ s.futures c = some (f k)) ∧
      (Quiescent s → (s.futures c = some (f k) ↔ ∀ c', .put k c' (some c) ∉ s.history)) := by
  obtain ⟨o,ho⟩ := (reachable_returned h).returned hr
  refine ⟨?_,fun hq => ⟨fun hvalue c' hreplaced => ?_,fun hnot => ?_⟩⟩
  · cases hvalue : s.futures c with
    | none => exact .inl rfl
    | some r => exact .inr (congrArg some (futures_eq h ho hvalue))
  · have hdelivered := reachable_delivered h
    obtain ⟨k',hremove,-⟩ := hdelivered.completed ((hdelivered.futures c (f k)).mp hvalue)
    exact (reachable_lost h k c' c hreplaced).kept k' hremove
  · obtain hvalue | ⟨c',hreplaced⟩ := completed_or_replaced h hq ho
    · exact hvalue
    · exact absurd hreplaced (hnot c')

theorem aggregation_transparent_merged : ∃ s : State ℕ ℕ Bool,
    .return 1 7 0 ∈ s.history ∧ (s.futures 0 = none ∨ s.futures 0 = some 70) ∧
      (Quiescent s → (s.futures 0 = some 70 ↔ ∀ c', .put 7 c' (some 0) ∉ s.history)) := by
  have hexec : ((machine ℕ ℕ Bool).exec (Pointwise (10 * ·)) (machine ℕ ℕ Bool).init mergedRun).map
      (fun s => decide (.return 1 7 0 ∈ s.history)) = some true := by decide
  obtain ⟨s,hs,hreturn⟩ := Machine.exists_reachable _ _ hexec
  have hr := of_decide_eq_true hreturn
  exact ⟨s,hr,aggregation_transparent hs hr⟩

end Pointwise

section Turns

variable {T R Tid : Type}

def requests (history : List (Event T R Tid)) : List T :=
  history.filterMap fun e => match e with
    | .send _ _ k => some k
    | _ => none

def applies (history : List (Event T R Tid)) : List (List T) :=
  history.filterMap fun e => match e with
    | .apply requestList => some requestList
    | _ => none

def Pc.beforeApply : Pc T R → Bool
  | .get => true
  | .put => true
  | .acquire => true
  | .isEmpty => true
  | .keySet => true
  | .snapshot _ => true
  | .apply _ => true
  | _ => false

/-- Where the only call in progress stands, with the cache and the value of its future. -/
def Stands (f : T → R) (cache : AList fun _ : T => CallId) (value : Option R) (k : T) (c : CallId) :
    Pc T R → Prop
  | .get => cache = ∅ ∧ value = none
  | .put => cache = ∅ ∧ value = none
  | .acquire => cache = .singleton k c ∧ value = none
  | .isEmpty => cache = .singleton k c ∧ value = none
  | .keySet => cache = .singleton k c ∧ value = none
  | .snapshot present => cache = .singleton k c ∧ value = none ∧ present = [k]
  | .apply requestList => cache = .singleton k c ∧ value = none ∧ requestList = [k]
  | .applying requestList => cache = .singleton k c ∧ value = none ∧ requestList = [k]
  | .loop requestList responses i => requestList = [k] ∧ responses = [f k] ∧
      (i = 0 ∧ cache = .singleton k c ∧ value = none ∨ i = 1 ∧ cache = ∅ ∧ value = some (f k))
  | .complete requestList responses i response responseFuture => requestList = [k] ∧
      responses = [f k] ∧ i = 0 ∧ response = f k ∧ responseFuture = c ∧ cache = ∅ ∧ value = none
  | .completing requestList responses i => requestList = [k] ∧ responses = [f k] ∧ i = 0 ∧
      cache = ∅ ∧ value = some (f k)
  | .release => cache = ∅ ∧ value = some (f k)

variable [DecidableEq T] [DecidableEq Tid] {f : T → R} {s s' : State T R Tid} {t u : Tid}
  {a : Action T R Tid} {k : T} {c : CallId} {g : Frame T R} {rest : List (Frame T R)} {pc pc' : Pc T R}
  {value : Option R} {monitor : Monitor Tid}

instance [Fintype Tid] (s : State T R Tid) : Decidable (Quiescent s) :=
  decidable_of_iff (∀ t, (s.threads t).isEmpty) (forall_congr' fun _ => List.isEmpty_iff)

/-- The batch function answers by `f`, and a call begins when no other is in progress. -/
def TakeTurns (f : T → R) (s : State T R Tid) (a : Action T R Tid) : Prop :=
  Pointwise f s a ∧ (a.isSend = true → Quiescent s)

instance [DecidableEq R] [Fintype Tid] (f : T → R) (s : State T R Tid) (a : Action T R Tid) :
    Decidable (TakeTurns f s a) :=
  inferInstanceAs (Decidable (_ ∧ (_ → _)))

omit [DecidableEq Tid] in
theorem erase_singleton : (AList.singleton k c : AList fun _ : T => CallId).erase k = ∅ := by
  have hentries : ((AList.singleton k c : AList fun _ : T => CallId).erase k).entries =
      [(⟨k,c⟩ : Sigma fun _ : T => CallId)].kerase k := rfl
  exact AList.ext (hentries.trans (List.kerase_cons_eq rfl))

theorem Silent.stands (h : Silent s t pc pc' monitor) (hpc : Stands f s.cache value k c pc) :
    Stands f s.cache value k c pc' := by
  cases h with
  | acquire h => exact hpc
  | empty h => simp [hpc.1] at h
  | nonEmpty h => exact hpc
  | keySet => exact ⟨hpc.1,hpc.2,by simp [hpc.1]⟩
  | @snapshot present requestList h =>
    obtain ⟨hcache,hvalue,rfl⟩ := hpc
    have hsubset : requestList ⊆ [k] := by
      intro k' hk'
      have hmem := AList.mem_keys.mp (h.2.2 k' hk')
      simpa [hcache] using hmem
    have hlist : requestList = [k] :=
      List.perm_singleton.mp ((h.1.subperm hsubset).antisymm
        (List.singleton_subperm_iff.mpr (h.2.1 k List.mem_cons_self)))
    exact ⟨hcache,hvalue,hlist⟩
  | @loopEnd requestList responses i h =>
    obtain ⟨rfl,rfl,⟨rfl,-⟩ | ⟨rfl,hcache,hvalue⟩⟩ := hpc
    · simp at h
    · exact ⟨hcache,hvalue⟩
  | @absent requestList responses i request response hrequest hresponse h =>
    obtain ⟨rfl,rfl,⟨rfl,hcache,-⟩ | ⟨rfl,-⟩⟩ := hpc
    · obtain rfl : k = request := by simpa using hrequest
      simp [hcache,AList.lookup] at h
    · simp at hrequest
  | completed =>
    obtain ⟨rfl,rfl,rfl,hcache,hvalue⟩ := hpc
    exact ⟨rfl,rfl,.inr ⟨rfl,hcache,hvalue⟩⟩

theorem Silent.beforeApply (h : Silent s t pc pc' monitor)
    (hpc : Stands f s.cache value k c pc) : pc'.beforeApply = pc.beforeApply := by
  cases h with
  | empty h => simp [hpc.1] at h
  | _ => rfl

/-- Every call but the pending one has returned its own future, which holds the answer. -/
structure ServedBut (f : T → R) (pending : Option CallId) (s : State T R Tid) : Prop where
  sent : ∀ {t c k}, .send t c k ∈ s.history →
    some c = pending ∨ .return c k c ∈ s.history ∧ s.futures c = some (f k)
  own : ∀ {call k c}, .return call k c ∈ s.history → call = c

structure Idle (f : T → R) (s : State T R Tid) : Prop where
  quiescent : Quiescent s
  cache : s.cache = ∅
  singly : applies s.history = (requests s.history).map fun k => [k]
  served : ServedBut f none s

structure Busy (f : T → R) (s : State T R Tid) (t : Tid) (k : T) (c : CallId) (pc : Pc T R) :
    Prop where
  alone : s.threads = Function.update (fun _ => []) t [⟨k,c,pc⟩]
  stands : Stands f s.cache (s.futures c) k c pc
  singly : ∃ older, requests s.history = k :: older ∧
    applies s.history = (if pc.beforeApply then older else k :: older).map fun k => [k]
  served : ServedBut f (some c) s

namespace Busy

omit [DecidableEq T] in
theorem top (hs : Busy f s t k c pc) (hu : s.threads u = g :: rest) :
    u = t ∧ g = ⟨k,c,pc⟩ ∧ rest = [] := by
  rw [hs.alone] at hu
  by_cases hut : u = t
  · subst hut
    have hcons : [⟨k,c,pc⟩] = g :: rest := by simpa using hu
    obtain ⟨rfl,rfl⟩ := List.cons.inj hcons
    exact ⟨rfl,rfl,rfl⟩
  · simp [hut] at hu

omit [DecidableEq T] in
theorem move (hs : Busy f s t k c pc)
    (hthreads : s'.threads = Function.update s.threads t [⟨k,c,pc'⟩])
    (hstands : Stands f s'.cache (s'.futures c) k c pc')
    (hrequests : requests s'.history = requests s.history)
    (happlies : applies s'.history = applies s.history ∧ pc'.beforeApply = pc.beforeApply ∨
      applies s'.history = [k] :: applies s.history ∧ pc.beforeApply = true ∧
        pc'.beforeApply = false)
    (hsend : ∀ {t c k}, .send t c k ∈ s'.history → .send t c k ∈ s.history)
    (hreturn : ∀ {call k c}, .return call k c ∈ s'.history ↔ .return call k c ∈ s.history)
    (hfutures : ∀ c', c' ≠ c → s'.futures c' = s.futures c') : Busy f s' t k c pc' := by
  refine ⟨?_,hstands,?_,fun {t c' k'} hc' => ?_,fun hr => hs.served.own (hreturn.mp hr)⟩
  · rw [hthreads,hs.alone,Function.update_idem]
  · obtain ⟨older,hrs,has⟩ := hs.singly
    refine ⟨older,hrequests.trans hrs,?_⟩
    obtain ⟨hsame,hpc⟩ | ⟨hcons,hpc,hpc'⟩ := happlies
    · rw [hsame,has,hpc]
    · simp [hcons,has,hpc,hpc']
  · by_cases hc : c' = c
    · exact .inl (congrArg some hc)
    · obtain heq | ⟨hr,hvalue⟩ := hs.served.sent (hsend hc')
      · exact absurd (Option.some.inj heq) hc
      · exact .inr ⟨hreturn.mpr hr,(hfutures c' hc).trans hvalue⟩

omit [DecidableEq T] in
theorem not_fails (hs : Busy f s t k c pc) (hok : Pointwise f s a) : ¬ Fails t a pc := by
  intro h
  have hstands := hs.stands
  cases h with
  | batch => cases hok
  | @short requestList responses i request hrequest hresponse =>
    obtain ⟨rfl,rfl,⟨rfl,-⟩ | ⟨rfl,-⟩⟩ := hstands
    · cases hresponse
    · cases hrequest

omit [DecidableEq T] in
theorem release (hs : Busy f s t k c .release) (hn : Named s) : Idle f
    (({ s with monitor := s.monitor.exit }.setStack t []).log (.return c k c)) := by
  obtain ⟨older,hrs,has⟩ := hs.singly
  have hsent : .send t c k ∈ s.history := hn.sent t ⟨k,c,.release⟩ (by simp [hs.alone])
  have hthreads : Function.update s.threads t [] = fun _ => [] := by
    rw [hs.alone,Function.update_idem,Function.update_eq_self]
  refine ⟨fun u => congrFun hthreads u,hs.stands.1,?_,fun {u c' k'} hc' => .inr ?_,?_⟩
  · exact has.trans (hrs ▸ rfl)
  · have hold : .send u c' k' ∈ s.history := by simpa using hc'
    obtain heq | ⟨hr,hvalue⟩ := hs.served.sent hold
    · obtain rfl := Option.some.inj heq
      obtain ⟨rfl,rfl⟩ := hn.unique hold hsent
      exact ⟨List.mem_cons_self,hs.stands.2⟩
    · exact ⟨List.mem_cons_of_mem _ hr,hvalue⟩
  · rintro call k' c' (_|⟨_,hr⟩)
    · rfl
    · exact hs.served.own hr

theorem step (hs : Busy f s t k c pc) (hn : Named s) (hok : TakeTurns f s a) (h : Step s a s') :
    Idle f s' ∨ ∃ pc', Busy f s' t k c pc' := by
  cases h with
  | send h => simpa [hs.alone] using hok.2 rfl t
  | hit ht h =>
    obtain ⟨rfl,hg,rfl⟩ := hs.top ht
    obtain ⟨rfl,rfl,rfl⟩ := Frame.mk.inj hg
    simp [hs.stands.1] at h
  | miss ht h =>
    obtain ⟨rfl,hg,rfl⟩ := hs.top ht
    obtain ⟨rfl,rfl,rfl⟩ := Frame.mk.inj hg
    exact .inr ⟨_,hs.move rfl hs.stands rfl (.inl ⟨rfl,rfl⟩) (by simp) (by simp) fun _ _ => rfl⟩
  | put ht =>
    obtain ⟨rfl,hg,rfl⟩ := hs.top ht
    obtain ⟨rfl,rfl,rfl⟩ := Frame.mk.inj hg
    have hstands := hs.stands
    refine .inr ⟨.acquire,hs.move rfl ⟨?_,hstands.2⟩ rfl (.inl ⟨rfl,rfl⟩) (by simp) (by simp)
      fun _ _ => rfl⟩
    simp [hstands.1]
  | silent ht h =>
    obtain ⟨ht',hg,rfl⟩ := hs.top ht
    obtain ⟨rfl,rfl,rfl⟩ := Frame.mk.inj hg
    exact .inr ⟨_,hs.move (ht' ▸ rfl) (h.stands hs.stands) rfl (.inl ⟨rfl,h.beforeApply hs.stands⟩)
      id .rfl fun _ _ => rfl⟩
  | apply ht =>
    obtain ⟨rfl,hg,rfl⟩ := hs.top ht
    obtain ⟨rfl,rfl,rfl⟩ := Frame.mk.inj hg
    obtain ⟨hcache,hvalue,rfl⟩ := hs.stands
    exact .inr ⟨_,hs.move rfl ⟨hcache,hvalue,rfl⟩ rfl (.inr ⟨rfl,rfl,rfl⟩) (by simp) (by simp)
      fun _ _ => rfl⟩
  | applyReturn ht =>
    obtain ⟨rfl,hg,rfl⟩ := hs.top ht
    obtain ⟨rfl,rfl,rfl⟩ := Frame.mk.inj hg
    obtain ⟨hcache,hvalue,rfl⟩ := hs.stands
    have hresponses := Option.some.inj hok.1
    simp only [applyingList,ht,List.map_cons,List.map_nil] at hresponses
    subst hresponses
    exact .inr ⟨_,hs.move rfl ⟨rfl,rfl,.inl ⟨rfl,hcache,hvalue⟩⟩ rfl (.inl ⟨rfl,rfl⟩) (by simp)
      (by simp) fun _ _ => rfl⟩
  | @remove t k c requestList responses i rest request response future ht hrequest hresponse h =>
    obtain ⟨rfl,hg,rfl⟩ := hs.top ht
    obtain ⟨rfl,rfl,rfl⟩ := Frame.mk.inj hg
    obtain ⟨rfl,rfl,⟨rfl,hcache,hvalue⟩ | ⟨rfl,-⟩⟩ := hs.stands
    · obtain rfl := Option.some.inj hrequest
      obtain rfl := Option.some.inj hresponse
      rw [hcache] at h
      obtain rfl : c = future := by simpa [AList.lookup] using h
      refine .inr ⟨_,hs.move rfl ⟨rfl,rfl,rfl,rfl,rfl,?_,hvalue⟩ rfl (.inl ⟨rfl,rfl⟩) (by simp)
        (by simp) fun _ _ => rfl⟩
      simp [hcache,erase_singleton]
    · simp at hrequest
  | complete ht =>
    obtain ⟨rfl,hg,rfl⟩ := hs.top ht
    obtain ⟨rfl,rfl,rfl⟩ := Frame.mk.inj hg
    obtain ⟨rfl,rfl,rfl,rfl,rfl,hcache,hvalue⟩ := hs.stands
    refine .inr ⟨_,hs.move rfl ⟨rfl,rfl,rfl,hcache,?_⟩ rfl (.inl ⟨rfl,rfl⟩) (by simp) (by simp)
      fun c' hc' => ?_⟩
    · simp [hvalue]
    · simp [hc']
  | release ht =>
    obtain ⟨rfl,hg,rfl⟩ := hs.top ht
    obtain ⟨rfl,rfl,rfl⟩ := Frame.mk.inj hg
    exact .inl (hs.release hn)
  | fail ht h =>
    obtain ⟨rfl,rfl,rfl⟩ := hs.top ht
    exact absurd h (hs.not_fails hok.1)

end Busy

theorem Idle.step (hs : Idle f s) (hfresh : s.futures s.calls = none) (h : Step s a s') :
    ∃ t k c pc, Busy f s' t k c pc := by
  have hno : ∀ {t g rest}, s.threads t ≠ g :: rest := by
    intro t g rest ht
    simp [hs.quiescent t] at ht
  cases h with
  | @send t k h =>
    refine ⟨t,k,s.calls,.get,?_,⟨hs.cache,hfresh⟩,⟨requests s.history,rfl,hs.singly⟩,?_,?_⟩
    · have hthreads : s.threads = fun _ => [] := funext hs.quiescent
      change Function.update s.threads t (_ :: s.threads t) = _
      rw [hthreads]
    · rintro u c' k' (_|⟨_,hc'⟩)
      · exact .inl rfl
      · obtain hnone | ⟨hr,hvalue⟩ := hs.served.sent hc'
        · cases hnone
        · exact .inr ⟨List.mem_cons_of_mem _ hr,hvalue⟩
    · rintro call k' c' (_|⟨_,hr⟩)
      exact hs.served.own hr
  | hit ht h => exact absurd ht hno
  | miss ht h => exact absurd ht hno
  | put ht => exact absurd ht hno
  | silent ht h => exact absurd ht hno
  | apply ht => exact absurd ht hno
  | applyReturn ht => exact absurd ht hno
  | remove ht hrequest hresponse h => exact absurd ht hno
  | complete ht => exact absurd ht hno
  | release ht => exact absurd ht hno
  | fail ht h => exact absurd ht hno

/-- The two requests of the usage example, each with the steps of its call. -/
def ExampleUsage.main : List (Action String String Unit) :=
  ["request1","request2"].flatMap fun request =>
    [.send () request,.run (),.run (),.run (),.run (),.run (),.snapshot () [request],.run (),
      .applyReturn () (batchFunction [request]),.run (),.run (),.run (),.run (),.run ()]

end Turns

end AggregatorMachine
end Potimizer

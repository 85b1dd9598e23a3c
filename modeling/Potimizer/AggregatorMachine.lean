import Mathlib.Data.List.AList
import Potimizer.StepMachine
import Potimizer.ReentrantMonitor

/-! The request aggregator as a step machine over any number of threads. Each thread has a stack
of `sendRequest` calls: a call that is inside the batch function or inside `complete` may be
suspended under a further call made by the same thread, which finds the monitor re-entrant. The
history records, newest first, what the steps did. -/
namespace Potimizer
namespace AggregatorMachine

open StepMachine ReentrantMonitor

/-- The identity of a `sendRequest` call, which also names the future the call creates if its
lookup misses. -/
abbrev CallId := ℕ

/-- Where a call stands, with the local variables of `batchProcessRequests`. -/
inductive Pc (T R : Type)
  | get
  | put
  | acquire
  | isEmpty
  | keySet
  | snapshot (present : List T)
  | apply (requestList : List T)
  | applying (requestList : List T)
  | loop (requestList : List T) (responses : List R) (i : ℕ)
  | complete (requestList : List T) (responses : List R) (i : ℕ) (response : R)
      (responseFuture : CallId)
  | completing (requestList : List T) (responses : List R) (i : ℕ)
  | release

structure Frame (T R : Type) where
  request : T
  call : CallId
  pc : Pc T R

/-- `get` records the future its call is bound to return: the mapping found, or on a miss the new
future, named by the call itself. `put` records the mapping it replaced. -/
inductive Event (T R Tid : Type)
  | send (thread : Tid) (call : CallId) (request : T)
  | get (call : CallId) (request : T) (future : CallId)
  | put (request : T) (future : CallId) (replaced : Option CallId)
  | apply (requestList : List T)
  | applied (requestList : List T) (responses : List R)
  | remove (request : T) (future : CallId)
  | complete (future : CallId) (response : R)
  | return (call : CallId) (request : T) (future : CallId)
  | throw (call : CallId) (request : T)
  deriving DecidableEq

structure State (T R Tid : Type) where
  cache : AList fun _ : T => CallId
  /-- The value a future has been completed with. -/
  futures : CallId → Option R
  monitor : Monitor Tid
  threads : Tid → List (Frame T R)
  calls : ℕ
  history : List (Event T R Tid)

/-- `run` is the next step of the call on top of a thread's stack; the other actions fix what the
environment chooses: a call and its request, the order of the key set, the outcome of the batch
function. -/
inductive Action (T R Tid : Type)
  | send (thread : Tid) (request : T)
  | run (thread : Tid)
  | snapshot (thread : Tid) (requestList : List T)
  | applyReturn (thread : Tid) (responses : List R)
  | applyThrow (thread : Tid)

variable {T R Tid : Type} [DecidableEq T] [DecidableEq Tid]

def Action.thread : Action T R Tid → Tid
  | .send t _ => t
  | .run t => t
  | .snapshot t _ => t
  | .applyReturn t _ => t
  | .applyThrow t => t

/-- Code other than the aggregator's runs on the thread: the batch function, or a dependent action
of the future being completed. -/
def Pc.callsOut : Pc T R → Bool
  | .applying _ => true
  | .completing _ _ _ => true
  | _ => false

def canSend : List (Frame T R) → Bool
  | [] => true
  | f :: _ => f.pc.callsOut

namespace State

@[simps]
def setStack (s : State T R Tid) (t : Tid) (stack : List (Frame T R)) : State T R Tid :=
  { s with threads := Function.update s.threads t stack }

@[simps]
def log (s : State T R Tid) (e : Event T R Tid) : State T R Tid :=
  { s with history := e :: s.history }

@[simps!]
def unwind (s : State T R Tid) (t : Tid) (f : Frame T R) (rest : List (Frame T R)) :
    State T R Tid :=
  ({ s with monitor := s.monitor.exit }.setStack t rest).log (.throw f.call f.request)

/-- Complete a future: only the first completion sets its value. -/
@[simps]
def completeFuture (s : State T R Tid) (future : CallId) (response : R) : State T R Tid :=
  { s with
    futures := Function.update s.futures future (some ((s.futures future).getD response)) }

end State

/-- The next step of `sendRequest` and `batchProcessRequests` in the call `f`. -/
def runFrame (s : State T R Tid) (t : Tid) (f : Frame T R) (rest : List (Frame T R)) :
    Option (State T R Tid) :=
  let goto (pc : Pc T R) (s : State T R Tid) := s.setStack t (⟨f.request,f.call,pc⟩ :: rest)
  match f.pc with
  | .get =>
    match s.cache.lookup f.request with
    | some responseFuture =>
      some (((s.setStack t rest).log (.get f.call f.request responseFuture)).log
        (.return f.call f.request responseFuture))
    | none => some ((goto .put s).log (.get f.call f.request f.call))
  | .put =>
    some ((goto .acquire { s with cache := s.cache.insert f.request f.call }).log
      (.put f.request f.call (s.cache.lookup f.request)))
  | .acquire => (s.monitor.enter t).map fun monitor => goto .isEmpty { s with monitor := monitor }
  | .isEmpty => some (goto (if s.cache.keys = [] then .release else .keySet) s)
  | .keySet => some (goto (.snapshot s.cache.keys) s)
  | .snapshot _ => none
  | .apply requestList => some ((goto (.applying requestList) s).log (.apply requestList))
  | .applying _ => none
  | .loop requestList responses i =>
    match requestList[i]? with
    | none => some (goto .release s)
    | some request =>
      match responses[i]? with
      | none => some (s.unwind t f rest)
      | some response =>
        match s.cache.lookup request with
        | some responseFuture =>
          some ((goto (.complete requestList responses i response responseFuture)
            { s with cache := s.cache.erase request }).log (.remove request responseFuture))
        | none => some (goto (.loop requestList responses (i+1)) s)
  | .complete requestList responses i response responseFuture =>
    some ((goto (.completing requestList responses i)
      (s.completeFuture responseFuture response)).log (.complete responseFuture response))
  | .completing requestList responses i => some (goto (.loop requestList responses (i+1)) s)
  | .release =>
    some (({ s with monitor := s.monitor.exit }.setStack t rest).log
      (.return f.call f.request f.call))

/-- The key set is copied while other threads may insert: the copy holds every key that was there
when the traversal began, only keys that are there now, and none twice. -/
def IsSnapshot (s : State T R Tid) (present requestList : List T) : Prop :=
  requestList.Nodup ∧ (∀ k ∈ present, k ∈ requestList) ∧ ∀ k ∈ requestList, k ∈ s.cache

instance (s : State T R Tid) (present requestList : List T) :
    Decidable (IsSnapshot s present requestList) :=
  inferInstanceAs (Decidable (_ ∧ _ ∧ _))

def step (s : State T R Tid) : Action T R Tid → Option (State T R Tid)
  | .send t request =>
    if canSend (s.threads t) then
      some (({ s with calls := s.calls+1 }.setStack t
        (⟨request,s.calls,.get⟩ :: s.threads t)).log (.send t s.calls request))
    else none
  | .run t =>
    match s.threads t with
    | [] => none
    | f :: rest => runFrame s t f rest
  | .snapshot t requestList =>
    match s.threads t with
    | ⟨k,c,.snapshot present⟩ :: rest =>
      if IsSnapshot s present requestList then
        some (s.setStack t (⟨k,c,.apply requestList⟩ :: rest))
      else none
    | _ => none
  | .applyReturn t responses =>
    match s.threads t with
    | ⟨k,c,.applying requestList⟩ :: rest =>
      some ((s.setStack t (⟨k,c,.loop requestList responses 0⟩ :: rest)).log
        (.applied requestList responses))
    | _ => none
  | .applyThrow t =>
    match s.threads t with
    | ⟨k,c,.applying requestList⟩ :: rest => some (s.unwind t ⟨k,c,.applying requestList⟩ rest)
    | _ => none

def removals (k : T) (history : List (Event T R Tid)) : ℕ :=
  history.countP fun e => match e with
    | .remove k' _ => k' = k
    | _ => false

section

omit [DecidableEq Tid]

variable {k k' : T} {c : CallId} {e : Event T R Tid} {history : List (Event T R Tid)}

theorem removals_le_cons : removals k history ≤ removals k (e :: history) :=
  (List.sublist_cons_self e history).countP_le

theorem removals_remove : removals k (.remove k' c :: history) =
    removals k history + if k' = k then 1 else 0 := by
  simp [removals,List.countP_cons]

end

def machine (T R Tid : Type) [DecidableEq T] [DecidableEq Tid] :
    Machine (State T R Tid) (Action T R Tid) where
  init := ⟨∅,fun _ => none,.free,fun _ => [],0,[]⟩
  step := step

section Inversion

variable {s s' : State T R Tid} {t : Tid} {a : Action T R Tid}

/-- The steps that only move a call on, with the monitor they leave behind. -/
inductive Silent (s : State T R Tid) (t : Tid) : Pc T R → Pc T R → Monitor Tid → Prop
  | acquire {monitor} (h : s.monitor.enter t = some monitor) : Silent s t .acquire .isEmpty monitor
  | empty (h : s.cache.keys = []) : Silent s t .isEmpty .release s.monitor
  | nonEmpty (h : s.cache.keys ≠ []) : Silent s t .isEmpty .keySet s.monitor
  | keySet : Silent s t .keySet (.snapshot s.cache.keys) s.monitor
  | snapshot {present requestList} (h : IsSnapshot s present requestList) :
      Silent s t (.snapshot present) (.apply requestList) s.monitor
  | loopEnd {requestList responses i} (h : requestList[i]? = none) :
      Silent s t (.loop requestList responses i) .release s.monitor
  | absent {requestList responses i request response} (hrequest : requestList[i]? = some request)
      (hresponse : responses[i]? = some response) (h : s.cache.lookup request = none) :
      Silent s t (.loop requestList responses i) (.loop requestList responses (i+1)) s.monitor
  | completed {requestList responses i} :
      Silent s t (.completing requestList responses i) (.loop requestList responses (i+1)) s.monitor

inductive Fails (t : Tid) : Action T R Tid → Pc T R → Prop
  | batch {requestList} : Fails t (.applyThrow t) (.applying requestList)
  | short {requestList responses i request} (hrequest : requestList[i]? = some request)
      (hresponse : responses[i]? = none) : Fails t (.run t) (.loop requestList responses i)

inductive Step (s : State T R Tid) : Action T R Tid → State T R Tid → Prop
  | send {t k} (h : canSend (s.threads t)) :
      Step s (.send t k) (({ s with calls := s.calls+1 }.setStack t
        (⟨k,s.calls,.get⟩ :: s.threads t)).log (.send t s.calls k))
  | hit {t k c rest responseFuture} (ht : s.threads t = ⟨k,c,.get⟩ :: rest)
      (h : s.cache.lookup k = some responseFuture) :
      Step s (.run t) (((s.setStack t rest).log (.get c k responseFuture)).log
        (.return c k responseFuture))
  | miss {t k c rest} (ht : s.threads t = ⟨k,c,.get⟩ :: rest) (h : s.cache.lookup k = none) :
      Step s (.run t) ((s.setStack t (⟨k,c,.put⟩ :: rest)).log (.get c k c))
  | put {t k c rest} (ht : s.threads t = ⟨k,c,.put⟩ :: rest) :
      Step s (.run t) (({ s with cache := s.cache.insert k c }.setStack t
        (⟨k,c,.acquire⟩ :: rest)).log (.put k c (s.cache.lookup k)))
  | silent {a k c pc pc' monitor rest} (ht : s.threads a.thread = ⟨k,c,pc⟩ :: rest)
      (h : Silent s a.thread pc pc' monitor) :
      Step s a ({ s with monitor := monitor }.setStack a.thread (⟨k,c,pc'⟩ :: rest))
  | apply {t k c requestList rest} (ht : s.threads t = ⟨k,c,.apply requestList⟩ :: rest) :
      Step s (.run t) ((s.setStack t (⟨k,c,.applying requestList⟩ :: rest)).log
        (.apply requestList))
  | applyReturn {t k c requestList responses rest}
      (ht : s.threads t = ⟨k,c,.applying requestList⟩ :: rest) :
      Step s (.applyReturn t responses) ((s.setStack t
        (⟨k,c,.loop requestList responses 0⟩ :: rest)).log (.applied requestList responses))
  | remove {t k c requestList responses i rest request response responseFuture}
      (ht : s.threads t = ⟨k,c,.loop requestList responses i⟩ :: rest)
      (hrequest : requestList[i]? = some request) (hresponse : responses[i]? = some response)
      (h : s.cache.lookup request = some responseFuture) :
      Step s (.run t) (({ s with cache := s.cache.erase request }.setStack t
        (⟨k,c,.complete requestList responses i response responseFuture⟩ :: rest)).log
        (.remove request responseFuture))
  | complete {t k c requestList responses i response responseFuture rest}
      (ht : s.threads t = ⟨k,c,.complete requestList responses i response responseFuture⟩ :: rest) :
      Step s (.run t) (((s.completeFuture responseFuture response).setStack t
        (⟨k,c,.completing requestList responses i⟩ :: rest)).log
        (.complete responseFuture response))
  | release {t k c rest} (ht : s.threads t = ⟨k,c,.release⟩ :: rest) :
      Step s (.run t) (({ s with monitor := s.monitor.exit }.setStack t rest).log (.return c k c))
  | fail {a t f rest} (ht : s.threads t = f :: rest) (h : Fails t a f.pc) :
      Step s a (s.unwind t f rest)

theorem runFrame_cases {f : Frame T R} {rest : List (Frame T R)} (ht : s.threads t = f :: rest)
    (h : runFrame s t f rest = some s') : Step s (.run t) s' := by
  obtain ⟨k,c,pc⟩ := f
  cases pc with
  | get =>
    cases hk : s.cache.lookup k with
    | none =>
      simp only [runFrame,hk,Option.some.injEq] at h
      exact h ▸ .miss ht hk
    | some responseFuture =>
      simp only [runFrame,hk,Option.some.injEq] at h
      exact h ▸ .hit ht hk
  | put =>
    simp only [runFrame,Option.some.injEq] at h
    exact h ▸ .put ht
  | acquire =>
    obtain ⟨monitor,hm,hs⟩ := Option.map_eq_some_iff.mp h
    exact hs ▸ .silent (a := .run t) ht (.acquire hm)
  | isEmpty =>
    simp only [runFrame,Option.some.injEq] at h
    split_ifs at h with hempty
    · exact h ▸ .silent (a := .run t) ht (.empty hempty)
    · exact h ▸ .silent (a := .run t) ht (.nonEmpty hempty)
  | keySet =>
    simp only [runFrame,Option.some.injEq] at h
    exact h ▸ .silent (a := .run t) ht .keySet
  | snapshot present => simp [runFrame] at h
  | apply requestList =>
    simp only [runFrame,Option.some.injEq] at h
    exact h ▸ .apply ht
  | applying requestList => simp [runFrame] at h
  | loop requestList responses i =>
    cases hrequest : requestList[i]? with
    | none =>
      simp only [runFrame,hrequest,Option.some.injEq] at h
      exact h ▸ .silent (a := .run t) ht (.loopEnd hrequest)
    | some request =>
      cases hresponse : responses[i]? with
      | none =>
        simp only [runFrame,hrequest,hresponse,Option.some.injEq] at h
        exact h ▸ .fail ht (.short hrequest hresponse)
      | some response =>
        cases hk : s.cache.lookup request with
        | none =>
          simp only [runFrame,hrequest,hresponse,hk,Option.some.injEq] at h
          exact h ▸ .silent (a := .run t) ht (.absent hrequest hresponse hk)
        | some responseFuture =>
          simp only [runFrame,hrequest,hresponse,hk,Option.some.injEq] at h
          exact h ▸ .remove ht hrequest hresponse hk
  | complete requestList responses i response responseFuture =>
    simp only [runFrame,Option.some.injEq] at h
    exact h ▸ .complete ht
  | completing requestList responses i =>
    simp only [runFrame,Option.some.injEq] at h
    exact h ▸ .silent (a := .run t) ht .completed
  | release =>
    simp only [runFrame,Option.some.injEq] at h
    exact h ▸ .release ht

theorem step_cases (h : (machine T R Tid).step s a = some s') : Step s a s' := by
  change step s a = some s' at h
  cases a with
  | send t k =>
    simp only [step] at h
    split_ifs at h with hsend
    exact Option.some.inj h ▸ .send hsend
  | run t =>
    simp only [step] at h
    split at h
    · cases h
    · rename_i f rest ht
      exact runFrame_cases ht h
  | snapshot t requestList =>
    simp only [step] at h
    split at h
    · rename_i k c present rest ht
      split_ifs at h with hsnapshot
      exact Option.some.inj h ▸ .silent (a := .snapshot t requestList) ht (.snapshot hsnapshot)
    · cases h
  | applyReturn t responses =>
    simp only [step] at h
    split at h
    · rename_i k c requestList rest ht
      exact Option.some.inj h ▸ .applyReturn ht
    · cases h
  | applyThrow t =>
    simp only [step] at h
    split at h
    · rename_i k c requestList rest ht
      exact Option.some.inj h ▸ .fail ht .batch
    · cases h

end Inversion

end AggregatorMachine
end Potimizer

import Potimizer.AggregatorLifecycle

/-! When every batch is answered: each key in the cache still has a call that will serve it, and a
future is lost exactly when a put replaces it. -/
namespace Potimizer
namespace AggregatorMachine

open StepMachine ReentrantMonitor

section Environment

variable {T R Tid : Type}

/-- The request list of the batch function call on top of a stack. -/
def applyingList : List (Frame T R) → List T
  | ⟨_,_,.applying requestList⟩ :: _ => requestList
  | _ => []

/-- Every call of the batch function returns, with `Enough` responses for its requests. -/
def BatchReturns (Enough : ℕ → ℕ → Prop) (s : State T R Tid) : Action T R Tid → Prop
  | .applyReturn t responses => Enough (applyingList (s.threads t)).length responses.length
  | .applyThrow _ => False
  | _ => True

instance (Enough : ℕ → ℕ → Prop) [DecidableRel Enough] (s : State T R Tid) :
    ∀ a, Decidable (BatchReturns Enough s a)
  | .applyReturn t responses =>
    inferInstanceAs (Decidable (Enough (applyingList (s.threads t)).length responses.length))
  | .applyThrow _ => .isFalse id
  | .send _ _ => .isTrue trivial
  | .run _ => .isTrue trivial
  | .snapshot _ _ => .isTrue trivial

theorem BatchReturns.mono {Enough Enough' : ℕ → ℕ → Prop} {s : State T R Tid}
    {a : Action T R Tid} (h : ∀ n m, Enough n m → Enough' n m) (ha : BatchReturns Enough s a) :
    BatchReturns Enough' s a := by
  cases a with
  | applyReturn t responses => exact h _ _ ha
  | applyThrow t => exact ha
  | _ => trivial

end Environment

variable {T R Tid : Type} {s s' : State T R Tid} {t u : Tid} {a : Action T R Tid} {k : T}
  {c : CallId} {o : Option CallId} {r : R} {f g : Frame T R} {rest : List (Frame T R)}
  {pc pc' : Pc T R} {P : Frame T R → Prop} {ok : State T R Tid → Action T R Tid → Prop}

/-- The call has yet to serve the key if a future is mapped to it. -/
def Pc.covers (k : T) : Pc T R → Prop
  | .get => False
  | .put => False
  | .acquire => True
  | .isEmpty => True
  | .keySet => True
  | .snapshot present => k ∈ present
  | .apply requestList => k ∈ requestList
  | .applying requestList => k ∈ requestList
  | .loop requestList _ i => k ∈ requestList.drop i
  | .complete requestList _ i _ _ => k ∈ requestList.drop (i+1)
  | .completing requestList _ i => k ∈ requestList.drop (i+1)
  | .release => False

theorem Pc.covers_registered (h : pc.covers k) : pc.stage = .registered := by
  cases pc <;> first | rfl | exact h.elim

theorem mem_drop_succ {requestList : List T} {request : T} {i : ℕ}
    (hrequest : requestList[i]? = some request) (hne : k ≠ request)
    (hk : k ∈ requestList.drop i) : k ∈ requestList.drop (i+1) := by
  obtain ⟨hi,rfl⟩ := List.getElem?_eq_some_iff.mp hrequest
  rw [List.drop_eq_getElem_cons hi] at hk
  exact (List.mem_cons.mp hk).resolve_left hne

/-- The call that put the future `c` for `k` and has yet to serve `k`. -/
def Serves (k : T) (c : CallId) (f : Frame T R) : Prop :=
  f.request = k ∧ f.call = c ∧ f.pc.covers k

theorem Serves.move {k₁ : T} {c₁ : CallId} (h : pc.covers k → pc'.covers k) :
    Serves k c ⟨k₁,c₁,pc⟩ → Serves k c ⟨k₁,c₁,pc'⟩ :=
  fun ⟨hrequest,hcall,hcovers⟩ => ⟨hrequest,hcall,h hcovers⟩

/-- The call has removed the future `c` and is about to complete it. -/
def Completes (c : CallId) (f : Frame T R) : Prop :=
  ∃ requestList responses i r, f.pc = .complete requestList responses i r c

theorem Fails.not_completes (h : Fails t a f.pc) : ¬ Completes c f := by
  rintro ⟨requestList,responses,i,r,hpc⟩
  rw [hpc] at h
  cases h

variable [DecidableEq Tid]

def SomeCall (P : Frame T R → Prop) (threads : Tid → List (Frame T R)) : Prop :=
  ∃ t, ∃ f ∈ threads t, P f

theorem SomeCall.push (h : SomeCall P s.threads) :
    SomeCall P (Function.update s.threads t (g :: s.threads t)) := by
  obtain ⟨u,f,hf,hP⟩ := h
  exact ⟨u,f,mem_of_push hf,hP⟩

theorem SomeCall.move (h : SomeCall P s.threads) (ht : s.threads t = f :: rest)
    (hP : P f → P g) : SomeCall P (Function.update s.threads t (g :: rest)) := by
  obtain ⟨u,f',hf,hP'⟩ := h
  obtain ⟨rfl,rfl⟩ | hf := mem_of_move g ht hf
  · exact ⟨u,g,by simp,hP hP'⟩
  · exact ⟨u,f',hf,hP'⟩

theorem SomeCall.pop (h : SomeCall P s.threads) (ht : s.threads t = f :: rest) (hP : ¬ P f) :
    SomeCall P (Function.update s.threads t rest) := by
  obtain ⟨u,f',hf,hP'⟩ := h
  obtain ⟨rfl,rfl⟩ | hf := mem_of_pop ht hf
  · exact absurd hP' hP
  · exact ⟨u,f',hf,hP'⟩

variable [DecidableEq T]

def FullyAnswered (s : State T R Tid) : Prop :=
  ∀ requestList responses, .applied requestList responses ∈ s.history →
    requestList.length ≤ responses.length

theorem reachable_fullyAnswered (h : (machine T R Tid).Reachable (BatchReturns (· ≤ ·)) s) :
    FullyAnswered s := by
  apply h.invariant (I := FullyAnswered)
  · simp [machine,FullyAnswered]
  · intro s a s' _ ih hok hs requestList responses happlied
    cases step_cases hs with
    | applyReturn ht =>
      obtain ⟨rfl,rfl⟩ | happlied : (_ ∧ _) ∨ _ := by simpa using happlied
      · simpa [BatchReturns,applyingList,ht] using hok
      · exact ih requestList responses happlied
    | _ => exact ih requestList responses (by simpa using happlied)

theorem not_fails (h : (machine T R Tid).Reachable (BatchReturns (· ≤ ·)) s)
    (hok : BatchReturns (· ≤ ·) s a) (ht : s.threads t = f :: rest) : ¬ Fails t a f.pc := by
  intro hfails
  obtain ⟨k,c,pc⟩ := f
  cases hfails with
  | batch => exact hok
  | @short requestList responses i request hrequest hresponse =>
    have happlied := (reachable_delivered h).batch t _ (mem_top ht) rfl
    have hlength := reachable_fullyAnswered h _ _ happlied
    have hi := (List.getElem?_eq_some_iff.mp hrequest).1
    exact absurd (List.getElem?_eq_none_iff.mp hresponse) (by omega)

theorem Silent.covers {monitor : Monitor Tid} (h : Silent s t pc pc' monitor)
    (hk : s.cache.lookup k = some c) (hpc : pc.covers k) : pc'.covers k := by
  have hmem : k ∈ s.cache.keys := by
    rw [← AList.mem_keys,← AList.lookup_isSome,hk]
    rfl
  cases h with
  | acquire h => trivial
  | empty h => simp [h] at hmem
  | nonEmpty h => trivial
  | keySet => exact hmem
  | snapshot h => exact h.2.1 k hpc
  | loopEnd h => simp [Pc.covers,List.drop_eq_nil_of_le (List.getElem?_eq_none_iff.mp h)] at hpc
  | absent hrequest hresponse h =>
    refine mem_drop_succ hrequest ?_ hpc
    rintro rfl
    simp [hk] at h
  | completed => exact hpc

theorem Silent.not_completes {monitor : Monitor Tid} {call : CallId}
    (h : Silent s t pc pc' monitor) : ¬ Completes c ⟨k,call,pc⟩ := by
  cases h <;> simp [Completes]

def AllServed (s : State T R Tid) : Prop :=
  ∀ k c, s.cache.lookup k = some c → SomeCall (Serves k c) s.threads

theorem Step.allServed (h : Step s a s') (hs : AllServed s)
    (hfails : ∀ {t f rest}, s.threads t = f :: rest → ¬ Fails t a f.pc) : AllServed s' := by
  intro k c hl
  cases h with
  | send h => exact (hs k c hl).push
  | hit ht h => exact (hs k c hl).pop ht fun hserves => hserves.2.2
  | miss ht h => exact (hs k c hl).move ht (Serves.move id)
  | @put t k₁ c₁ rest ht =>
    by_cases hk : k = k₁
    · subst hk
      obtain rfl : c₁ = c := by simpa using hl
      exact ⟨t,⟨k,c₁,.acquire⟩,by simp,rfl,rfl,trivial⟩
    · exact (hs k c (by simpa [hk] using hl)).move ht (Serves.move False.elim)
  | silent ht h => exact (hs k c hl).move ht (Serves.move (h.covers hl))
  | apply ht => exact (hs k c hl).move ht (Serves.move id)
  | applyReturn ht => exact (hs k c hl).move ht (Serves.move id)
  | @remove t k₁ c₁ requestList responses i rest request response future ht hrequest _ _ =>
    have hne : k ≠ request := by
      rintro rfl
      simp at hl
    have hserved := hs k c (by simpa [hne] using hl)
    exact hserved.move ht (Serves.move (mem_drop_succ hrequest hne))
  | complete ht => exact (hs k c hl).move ht (Serves.move id)
  | release ht => exact (hs k c hl).pop ht fun hserves => hserves.2.2
  | fail ht h => exact absurd h (hfails ht)

theorem reachable_allServed (h : (machine T R Tid).Reachable (BatchReturns (· ≤ ·)) s) :
    AllServed s := by
  apply h.invariant (I := AllServed)
  · simp [machine,AllServed]
  · exact fun s a s' hr ih hok hs => (step_cases hs).allServed ih (not_fails hr hok)

def Quiescent (s : State T R Tid) : Prop := ∀ t, s.threads t = []

/-- Each key in the cache belongs to a call that has put it and has not finished its own batch
processing; with no call in progress the cache is empty. -/
theorem cached_key_has_call (h : (machine T R Tid).Reachable (BatchReturns (· ≤ ·)) s) :
    (∀ k c, s.cache.lookup k = some c →
      ∃ t, ∃ f ∈ s.threads t, f.request = k ∧ f.call = c ∧ f.pc.stage = .registered) ∧
      (Quiescent s → s.cache = ∅) := by
  have hserved := reachable_allServed h
  refine ⟨fun k c hk => ?_,fun hq => ?_⟩
  · obtain ⟨t,f,hf,hrequest,hcall,hcovers⟩ := hserved k c hk
    exact ⟨t,f,hf,hrequest,hcall,Pc.covers_registered hcovers⟩
  · refine AList.ext (List.eq_nil_iff_forall_not_mem.mpr fun e he => ?_)
    have hmem : e.1 ∈ s.cache := List.mem_keys_of_mem he
    obtain ⟨c,hc⟩ := Option.isSome_iff_exists.mp (AList.lookup_isSome.mpr hmem)
    obtain ⟨t,f,hf,-⟩ := hserved e.1 c hc
    simp [hq t] at hf

/-- The second client finds the mapping of the first, whose batch serves both. -/
def mergedRun : List (Action ℕ ℕ Bool) :=
  [.send false 7,.run false,.run false,.send true 7,.run true,
    .run false,.run false,.run false,.snapshot false [7],.run false,.applyReturn false [70],
    .run false,.run false,.run false,.run false,.run false]

theorem cached_key_has_call_after_put : ∃ s : State ℕ ℕ Bool,
    (machine ℕ ℕ Bool).Reachable (BatchReturns (· ≤ ·)) s ∧ s.cache.lookup 7 = some 0 ∧
      (∃ t, ∃ f ∈ s.threads t, f.request = 7 ∧ f.call = 0 ∧ f.pc.stage = .registered) ∧
      (Quiescent s → s.cache = ∅) := by
  have hexec : ((machine ℕ ℕ Bool).exec (BatchReturns (· ≤ ·)) (machine ℕ ℕ Bool).init
      (mergedRun.take 3)).map (fun s => s.cache.lookup 7) = some (some 0) := by decide
  obtain ⟨s,hs,hl⟩ := Machine.exists_reachable _ _ hexec
  obtain ⟨hcall,hquiescent⟩ := cached_key_has_call hs
  exact ⟨s,hs,hl,hcall 7 0 hl,hquiescent⟩

/-- What becomes of a future that was put: it stays mapped, is removed, or is replaced. -/
def Accounted (s : State T R Tid) : Prop := ∀ k c o, .put k c o ∈ s.history →
  s.cache.lookup k = some c ∨ .remove k c ∈ s.history ∨ ∃ c', .put k c' (some c) ∈ s.history

theorem Step.accounted (h : Step s a s') (hs : Accounted s) : Accounted s' := by
  intro k c o hp
  cases h with
  | @put t k₁ c₁ rest ht =>
    by_cases hk : k = k₁
    · subst hk
      obtain ⟨rfl,-⟩ | hp : (_ ∧ _) ∨ _ := by simpa using hp
      · exact .inl (by simp)
      · obtain hl | hr | ⟨c',hc'⟩ := hs k c o hp
        · exact .inr (.inr ⟨c₁,by simp [hl]⟩)
        · exact .inr (.inl (by simp [hr]))
        · exact .inr (.inr ⟨c',by simp [hc']⟩)
    · obtain hl | hr | ⟨c',hc'⟩ := hs k c o (by simpa [hk] using hp)
      · exact .inl (by simpa [hk] using hl)
      · exact .inr (.inl (by simp [hr]))
      · exact .inr (.inr ⟨c',by simp [hc']⟩)
  | @remove t k₁ c₁ requestList responses i rest request response future ht _ _ h =>
    obtain hl | hr | ⟨c',hc'⟩ := hs k c o (by simpa using hp)
    · by_cases hk : k = request
      · subst hk
        obtain rfl : c = future := Option.some.inj (hl.symm.trans h)
        exact .inr (.inl (by simp))
      · exact .inl (by simpa [hk] using hl)
    · exact .inr (.inl (by simp [hr]))
    · exact .inr (.inr ⟨c',by simp [hc']⟩)
  | _ =>
    obtain hl | hr | ⟨c',hc'⟩ := hs k c o (by simpa using hp)
    · exact .inl hl
    · exact .inr (.inl (by simp [hr]))
    · exact .inr (.inr ⟨c',by simp [hc']⟩)

theorem reachable_accounted (h : (machine T R Tid).Reachable ok s) : Accounted s := by
  apply h.invariant (I := Accounted)
  · simp [machine,Accounted]
  · exact fun s a s' _ ih _ hs => (step_cases hs).accounted ih

/-- A replaced future is out of the cache for good. -/
structure Lost (s : State T R Tid) (k : T) (c : CallId) : Prop where
  put : ∃ o, .put k c o ∈ s.history
  unmapped : ∀ k', s.cache.lookup k' ≠ some c
  kept : ∀ k', .remove k' c ∉ s.history

theorem Lost.step (hs : Lost s k c) (hreg : Registered s) (h : Step s a s') : Lost s' k c := by
  obtain ⟨o,ho⟩ := hs.put
  refine ⟨⟨o,h.history_mono ho⟩,?_,fun k' hr => ?_⟩
  · cases h with
    | @put t k₁ c₁ rest ht =>
      intro k' hl
      by_cases hk : k' = k₁
      · subst hk
        obtain rfl : c₁ = c := by simpa using hl
        exact hreg.unput t _ (mem_top ht) (by simp [Pc.stage]) k o ho
      · exact hs.unmapped k' (by simpa [hk] using hl)
    | @remove t k₁ c₁ requestList responses i rest request response future ht _ _ h =>
      intro k' hl
      by_cases hk : k' = request
      · subst hk
        simp at hl
      · exact hs.unmapped k' (by simpa [hk] using hl)
    | _ => exact hs.unmapped
  · obtain hold | hl := h.remove_cases hr
    · exact hs.kept k' hold
    · exact hs.unmapped k' hl

theorem lost_of_put {c' : CallId} (hreg : Registered s) (hn : Named s)
    (ht : s.threads t = ⟨k,c',.put⟩ :: rest) (hl : s.cache.lookup k = some c)
    (h : Step s a s') (hs' : s'.cache = s.cache.insert k c')
    (hremove : ∀ k', .remove k' c ∈ s'.history → .remove k' c ∈ s.history) : Lost s' k c := by
  obtain ⟨⟨o,ho⟩,hkept⟩ := hreg.cached hl
  refine ⟨⟨o,h.history_mono ho⟩,fun k' hl' => ?_,fun k' hr => hkept k' (hremove k' hr)⟩
  rw [hs'] at hl'
  by_cases hk : k' = k
  · subst hk
    obtain rfl : c' = c := by simpa using hl'
    exact hreg.unput t _ (mem_top ht) (by simp [Pc.stage]) _ o ho
  · obtain ⟨⟨o',ho'⟩,-⟩ := hreg.cached (show s.cache.lookup k' = some c by simpa [hk] using hl')
    exact hk (hreg.request_unique hn ho' ho)

theorem reachable_lost (h : (machine T R Tid).Reachable ok s) :
    ∀ k c' c, .put k c' (some c) ∈ s.history → Lost s k c := by
  apply h.invariant (I := fun s => ∀ k c' c, .put k c' (some c) ∈ s.history → Lost s k c)
  · simp [machine]
  · intro s a s' hr ih _ hs k c' c hp
    have hstep := step_cases hs
    have hreg := reachable_registered hr
    cases id hstep with
    | put ht =>
      obtain ⟨rfl,rfl,hl⟩ | hp : (_ ∧ _ ∧ _) ∨ _ := by simpa using hp
      · exact lost_of_put hreg (reachable_named hr) ht hl.symm hstep rfl (by simp)
      · exact (ih k c' c hp).step hreg hstep
    | _ => exact (ih k c' c (by simpa using hp)).step hreg hstep

def Delivers (s : State T R Tid) : Prop := ∀ k c, .remove k c ∈ s.history →
  (∃ r, .complete c r ∈ s.history) ∨ SomeCall (Completes c) s.threads

theorem Step.completes (h : Step s a s') (hc : SomeCall (Completes c) s.threads) :
    (∃ r, .complete c r ∈ s'.history) ∨ SomeCall (Completes c) s'.threads := by
  cases h with
  | send h => exact .inr hc.push
  | hit ht h => exact .inr (hc.pop ht (by simp [Completes]))
  | miss ht h => exact .inr (hc.move ht (by simp [Completes]))
  | put ht => exact .inr (hc.move ht (by simp [Completes]))
  | silent ht h => exact .inr (hc.move ht fun hcompletes => absurd hcompletes h.not_completes)
  | apply ht => exact .inr (hc.move ht (by simp [Completes]))
  | applyReturn ht => exact .inr (hc.move ht (by simp [Completes]))
  | remove ht hrequest hresponse h => exact .inr (hc.move ht (by simp [Completes]))
  | @complete t k₁ c₁ requestList responses i response future rest ht =>
    by_cases hfuture : future = c
    · subst hfuture
      exact .inl ⟨response,by simp⟩
    · exact .inr (hc.move ht (by simp [Completes,hfuture]))
  | release ht => exact .inr (hc.pop ht (by simp [Completes]))
  | fail ht h => exact .inr (hc.pop ht h.not_completes)

theorem Step.delivers (h : Step s a s') (hs : Delivers s) : Delivers s' := by
  intro k c hr
  have hold : .remove k c ∈ s.history →
      (∃ r, .complete c r ∈ s'.history) ∨ SomeCall (Completes c) s'.threads := by
    intro hr
    obtain ⟨r,hr⟩ | hc := hs k c hr
    · exact .inl ⟨r,h.history_mono hr⟩
    · exact h.completes hc
  cases id h with
  | @remove t k₁ c₁ requestList responses i rest request response future ht _ _ _ =>
    obtain ⟨rfl,rfl⟩ | hr : (_ ∧ _) ∨ _ := by simpa using hr
    · exact .inr ⟨t,⟨k₁,c₁,.complete requestList responses i response c⟩,by simp,_,_,_,_,rfl⟩
    · exact hold hr
  | _ => exact hold (by simpa using hr)

theorem reachable_delivers (h : (machine T R Tid).Reachable ok s) : Delivers s := by
  apply h.invariant (I := Delivers)
  · simp [machine,Delivers]
  · exact fun s a s' _ ih _ hs => (step_cases hs).delivers ih

def Returns (s : State T R Tid) : Prop := ∀ k c o, .put k c o ∈ s.history →
  .return c k c ∈ s.history ∨ SomeCall (fun f => f.request = k ∧ f.call = c) s.threads

theorem Step.someCall (h : Step s a s') (hs : Registered s)
    (hfails : ∀ {t f rest}, s.threads t = f :: rest → ¬ Fails t a f.pc)
    (hp : .put k c o ∈ s.history) (hc : SomeCall (fun f => f.request = k ∧ f.call = c) s.threads) :
    .return c k c ∈ s'.history ∨ SomeCall (fun f => f.request = k ∧ f.call = c) s'.threads := by
  cases h with
  | send h => exact .inr hc.push
  | @hit t k₁ c₁ rest future ht h =>
    refine .inr (hc.pop ht ?_)
    rintro ⟨rfl,rfl⟩
    exact hs.unput t _ (mem_top ht) (by simp [Pc.stage]) _ _ hp
  | miss ht h => exact .inr (hc.move ht id)
  | put ht => exact .inr (hc.move ht id)
  | silent ht h => exact .inr (hc.move ht id)
  | apply ht => exact .inr (hc.move ht id)
  | applyReturn ht => exact .inr (hc.move ht id)
  | remove ht hrequest hresponse h => exact .inr (hc.move ht id)
  | complete ht => exact .inr (hc.move ht id)
  | @release t k₁ c₁ rest ht =>
    by_cases hcall : k₁ = k ∧ c₁ = c
    · obtain ⟨rfl,rfl⟩ := hcall
      exact .inl (by simp)
    · exact .inr (hc.pop ht hcall)
  | fail ht h => exact absurd h (hfails ht)

theorem Step.returns (h : Step s a s') (hs : Returns s) (hreg : Registered s)
    (hfails : ∀ {t f rest}, s.threads t = f :: rest → ¬ Fails t a f.pc) : Returns s' := by
  intro k c o hp
  obtain hold | ⟨t,rest,ht,-,hthreads⟩ := h.put_cases hp
  · obtain hr | hc := hs k c o hold
    · exact .inl (h.history_mono hr)
    · exact h.someCall hreg hfails hold hc
  · exact .inr ⟨t,⟨k,c,.acquire⟩,by simp [hthreads],rfl,rfl⟩

theorem reachable_returns (h : (machine T R Tid).Reachable (BatchReturns (· ≤ ·)) s) :
    Returns s := by
  apply h.invariant (I := Returns)
  · simp [machine,Returns]
  · exact fun s a s' hr ih hok hs =>
      (step_cases hs).returns ih (reachable_registered hr) (not_fails hr hok)

/-- When every batch is answered and no call is in progress, every returned future is completed
exactly if no put of the run found a mapping for its key. -/
theorem returned_completed_iff (h : (machine T R Tid).Reachable (BatchReturns (· = ·)) s)
    (hq : Quiescent s) :
    (∀ call k c, .return call k c ∈ s.history → ∃ r, s.futures c = some r) ↔
      ∀ k c o, .put k c o ∈ s.history → o = none := by
  have hle := h.mono fun s a ha => BatchReturns.mono (fun _ _ => Nat.le_of_eq) ha
  have hdelivered := reachable_delivered h
  constructor
  · intro hall k c o hp
    by_contra ho
    obtain ⟨c₀,rfl⟩ := Option.ne_none_iff_exists'.mp ho
    have hlost := reachable_lost h k c c₀ hp
    obtain ⟨o',ho'⟩ := hlost.put
    obtain hr | ⟨t,f,hf,-⟩ := reachable_returns hle k c₀ o' ho'
    · obtain ⟨r,hr'⟩ := hall c₀ k c₀ hr
      obtain ⟨k',hremove,-⟩ := hdelivered.completed ((hdelivered.futures c₀ r).mp hr')
      exact hlost.kept k' hremove
    · simp [hq t] at hf
  · intro hfresh call k c hr
    obtain ⟨o,ho⟩ := (reachable_returned h).returned hr
    obtain hl | hremove | ⟨c',hc'⟩ := reachable_accounted h k c o ho
    · obtain ⟨t,f,hf,-⟩ := reachable_allServed hle k c hl
      simp [hq t] at hf
    · obtain ⟨r,hr'⟩ | ⟨t,f,hf,-⟩ := reachable_delivers h k c hremove
      · exact ⟨r,(hdelivered.futures c r).mpr hr'⟩
      · simp [hq t] at hf
    · simpa using hfresh k c' (some c) hc'

theorem returned_completed_iff_merged : ∃ s : State ℕ ℕ Bool,
    (machine ℕ ℕ Bool).Reachable (BatchReturns (· = ·)) s ∧ Quiescent s ∧
      .return 1 7 0 ∈ s.history ∧
      ((∀ call k c, .return call k c ∈ s.history → ∃ r, s.futures c = some r) ↔
        ∀ k c o, .put k c o ∈ s.history → o = none) := by
  have hexec : ((machine ℕ ℕ Bool).exec (BatchReturns (· = ·)) (machine ℕ ℕ Bool).init
      mergedRun).map (fun s => (decide (∀ t, (s.threads t).isEmpty),
        decide (.return 1 7 0 ∈ s.history))) = some (true,true) := by decide
  obtain ⟨s,hs,hobserve⟩ := Machine.exists_reachable _ _ hexec
  simp only [Prod.mk.injEq,decide_eq_true_eq,List.isEmpty_iff] at hobserve
  exact ⟨s,hs,hobserve.1,hobserve.2,returned_completed_iff hs hobserve.1⟩

/-- Two threads miss the same key before either puts. -/
def racingPuts : List (Action ℕ ℕ Bool) :=
  [.send false 7,.send true 7,.run false,.run true,.run false,.run true,
    .run false,.run false,.run false,.snapshot false [7],.run false,.applyReturn false [70],
    .run false,.run false,.run false,.run false,.run false,
    .run true,.run true,.run true]

/-- The first future was returned and is never completed. -/
theorem replaced_future_lost : ∃ s : State ℕ ℕ Bool,
    (machine ℕ ℕ Bool).Reachable (BatchReturns (· = ·)) s ∧ Quiescent s ∧
      .return 0 7 0 ∈ s.history ∧ s.futures 0 = none := by
  have hexec : ((machine ℕ ℕ Bool).exec (BatchReturns (· = ·)) (machine ℕ ℕ Bool).init
      racingPuts).map (fun s => (decide (∀ t, (s.threads t).isEmpty),
        decide (.return 0 7 0 ∈ s.history),s.futures 0)) = some (true,true,none) := by decide
  obtain ⟨s,hs,hobserve⟩ := Machine.exists_reachable _ _ hexec
  simp only [Prod.mk.injEq,decide_eq_true_eq,List.isEmpty_iff] at hobserve
  exact ⟨s,hs,hobserve⟩

end AggregatorMachine
end Potimizer

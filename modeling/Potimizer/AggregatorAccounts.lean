import Potimizer.AggregatorLoad

/-! The books of the aggregator: for each request, the futures put, removed, replaced and still
mapped; and the size of a batch against the number of threads. -/
namespace Potimizer
namespace AggregatorMachine

open StepMachine ReentrantMonitor

section Counts

variable {T R Tid : Type} [DecidableEq T] {history : List (Event T R Tid)} {k k' : T} {c : CallId}
  {o : Option CallId}

def putFutures (k : T) (history : List (Event T R Tid)) : List CallId :=
  history.filterMap fun e => match e with
    | .put k' c _ => if k' = k then some c else none
    | _ => none

/-- How many puts of the request found another future in the cache. -/
def replacements (k : T) (history : List (Event T R Tid)) : ℕ :=
  history.countP fun e => match e with
    | .put k' _ o => k' = k ∧ o.isSome
    | _ => false

theorem mem_putFutures : c ∈ putFutures k history ↔ ∃ o, .put k c o ∈ history := by
  constructor
  · intro hc
    obtain ⟨e,he,hec⟩ := List.mem_filterMap.mp hc
    cases e with
    | put k' c' o =>
      obtain ⟨rfl,rfl⟩ : k' = k ∧ c' = c := by simpa using hec
      exact ⟨o,he⟩
    | _ => simp at hec
  · rintro ⟨o,ho⟩
    exact List.mem_filterMap.mpr ⟨.put k c o,ho,by simp⟩

theorem putFutures_put : putFutures k (.put k' c o :: history) =
    if k' = k then c :: putFutures k history else putFutures k history := by
  by_cases hk : k' = k <;> simp [putFutures,hk]

theorem replacements_put : replacements k (.put k' c o :: history) =
    replacements k history + if k' = k ∧ o.isSome then 1 else 0 := by
  simp [replacements,List.countP_cons]

end Counts

variable {T R Tid : Type} [DecidableEq T] [DecidableEq Tid] {s s' : State T R Tid} {t u : Tid}
  {a : Action T R Tid} {k : T} {c : CallId} {f g : Frame T R} {rest : List (Frame T R)}
  {ok : State T R Tid → Action T R Tid → Prop}

/-- What was put is removed, replaced or still there. -/
def Conserved (s : State T R Tid) : Prop :=
  ∀ k, (putFutures k s.history).length =
    removals k s.history+replacements k s.history+if k ∈ s.cache then 1 else 0

theorem Step.conserved (h : Step s a s') (hs : Conserved s) : Conserved s' := by
  intro k
  have hold := hs k
  cases h with
  | @put t k₁ c₁ rest ht =>
    have hremovals : removals k (.put k₁ c₁ (s.cache.lookup k₁) :: s.history) =
        removals k s.history := by simp [removals]
    simp only [State.log_history,State.setStack_history,putFutures_put,replacements_put,hremovals,
      State.log_cache,State.setStack_cache,AList.mem_insert,AList.lookup_isSome]
    by_cases hk : k₁ = k
    · subst hk
      by_cases hmem : k₁ ∈ s.cache <;> simp [hmem] at hold ⊢ <;> omega
    · have hk' : ¬ k = k₁ := Ne.symm hk
      simpa [hk,hk'] using hold
  | @remove t k₁ c₁ requestList responses i rest request response future ht hrequest hresponse h =>
    have hput : putFutures k (.remove request future :: s.history) = putFutures k s.history := rfl
    have hreplacements : replacements k (.remove request future :: s.history) =
        replacements k s.history := by simp [replacements]
    simp only [State.log_history,State.setStack_history,removals_remove,hput,hreplacements,
      State.log_cache,State.setStack_cache,AList.mem_erase]
    by_cases hk : request = k
    · subst hk
      have hmem : request ∈ s.cache := AList.lookup_isSome.mp (by simp [h])
      simp [hmem] at hold ⊢
      omega
    · have hk' : ¬ k = request := Ne.symm hk
      simpa [hk,hk'] using hold
  | _ => exact hold

theorem reachable_conserved (h : (machine T R Tid).Reachable ok s) : Conserved s := by
  apply h.invariant (I := Conserved)
  · intro k
    rfl
  · exact fun s a s' _ ih _ hs => (step_cases hs).conserved ih

theorem Step.nodup_putFutures (h : Step s a s') (hs : Registered s)
    (hnodup : (putFutures k s.history).Nodup) : (putFutures k s'.history).Nodup := by
  cases h with
  | @put t k₁ c₁ rest ht =>
    rw [State.log_history,State.setStack_history,putFutures_put]
    split_ifs with hk
    · refine List.nodup_cons.mpr ⟨fun hmem => ?_,hnodup⟩
      obtain ⟨o,ho⟩ := mem_putFutures.mp hmem
      exact hs.unput t _ (mem_top ht) (by simp [Pc.stage]) k o ho
    · exact hnodup
  | _ => exact hnodup

theorem reachable_nodup_putFutures (h : (machine T R Tid).Reachable ok s) (k : T) :
    (putFutures k s.history).Nodup := by
  apply h.invariant (I := fun s => (putFutures k s.history).Nodup)
  · exact List.nodup_nil
  · exact fun s a s' hr ih _ hs => (step_cases hs).nodup_putFutures (reachable_registered hr) ih

theorem reachable_nodup_removedFutures (h : (machine T R Tid).Reachable ok s) (k : T) :
    (removedFutures k s.history).Nodup := by
  apply h.invariant (I := fun s => (removedFutures k s.history).Nodup)
  · exact List.nodup_nil
  · exact fun s a s' hr ih _ hs => (step_cases hs).nodup_removedFutures (reachable_registered hr) ih

def answered (k : T) (s : State T R Tid) : List CallId :=
  (putFutures k s.history).filter fun c => (s.futures c).isSome

def unanswered (k : T) (s : State T R Tid) : List CallId :=
  (putFutures k s.history).filter fun c => !(s.futures c).isSome

theorem answered_perm (h : (machine T R Tid).Reachable ok s) (hq : Quiescent s) (k : T) :
    (answered k s).Perm (removedFutures k s.history) := by
  have hregistered := reachable_registered h
  have hdelivered := reachable_delivered h
  refine (List.perm_ext_iff_of_nodup ((reachable_nodup_putFutures h k).filter _)
    (reachable_nodup_removedFutures h k)).mpr fun c => ?_
  rw [List.mem_filter,mem_putFutures,mem_removedFutures]
  constructor
  · rintro ⟨⟨o,ho⟩,hc⟩
    obtain ⟨r,hr⟩ := Option.isSome_iff_exists.mp hc
    obtain ⟨k',hremove,-⟩ := hdelivered.completed ((hdelivered.futures c r).mp hr)
    obtain ⟨o',ho'⟩ := hregistered.removed hremove
    obtain rfl := hregistered.request_unique (reachable_named h) ho ho'
    exact hremove
  · intro hremove
    refine ⟨hregistered.removed hremove,?_⟩
    obtain ⟨r,hr⟩ | ⟨t,f,hf,-⟩ := reachable_delivers h k c hremove
    · exact Option.isSome_iff_exists.mpr ⟨r,(hdelivered.futures c r).mpr hr⟩
    · simp [hq t] at hf

/-- Each put that finds another future costs exactly one future: when every batch is answered and no
call is in progress, a request has as many futures that are never completed as it had such puts. -/
theorem unanswered_eq_replacements (h : (machine T R Tid).Reachable (BatchReturns (· ≤ ·)) s)
    (hq : Quiescent s) (k : T) : (unanswered k s).length = replacements k s.history := by
  have hconserved := reachable_conserved h k
  have hperm := (answered_perm h hq k).length_eq
  have hsplit : (putFutures k s.history).length =
      (answered k s).length+(unanswered k s).length := by
    exact List.length_eq_length_filter_add _
  have hcache : k ∉ s.cache := by
    intro hk
    obtain ⟨c,hc⟩ := Option.isSome_iff_exists.mp (AList.lookup_isSome.mpr hk)
    obtain ⟨t,f,hf,-⟩ := reachable_allServed h k c hc
    simp [hq t] at hf
  rw [length_removedFutures] at hperm
  simp only [hcache,if_false] at hconserved
  omega

theorem unanswered_eq_replacements_racing : ∃ s : State ℕ ℕ Bool,
    replacements 7 s.history = 1 ∧ (unanswered 7 s).length = replacements 7 s.history := by
  have hexec : ((machine ℕ ℕ Bool).exec (BatchReturns (· ≤ ·)) (machine ℕ ℕ Bool).init
      racingPuts).map (fun s => (decide (∀ t, (s.threads t).isEmpty),
        replacements 7 s.history)) = some (true,1) := by decide
  obtain ⟨s,hs,hobserve⟩ := Machine.exists_reachable _ _ hexec
  simp only [Prod.mk.injEq,decide_eq_true_eq,List.isEmpty_iff] at hobserve
  exact ⟨s,hobserve.2,unanswered_eq_replacements hs hobserve.1 7⟩

section Sizes

variable {requestList : List T} {pc pc' : Pc T R} {monitor : Monitor Tid} {n : ℕ}

/-- The keys a call is about to collect or has collected, and not yet passed to the batch
function, are some and no more than `n`. -/
def Pc.Sized (cache : AList fun _ : T => CallId) (n : ℕ) : Pc T R → Prop
  | .keySet => cache.keys ≠ []
  | .snapshot present => present ≠ []
  | .apply requestList => requestList ≠ [] ∧ requestList.length ≤ n
  | _ => True

omit [DecidableEq Tid] in
theorem length_keys_le_card [Fintype Tid] (hs : AllServed s) (hsingle : Single s) :
    s.cache.keys.length ≤ Fintype.card Tid := by
  have hthread : ∀ k ∈ s.cache.keys, ∃ t, ∃ f, s.threads t = [f] ∧ f.request = k := by
    intro k hk
    obtain ⟨c,hc⟩ := Option.isSome_iff_exists.mp (AList.lookup_isSome.mpr (AList.mem_keys.mpr hk))
    obtain ⟨t,f,hf,hrequest,-⟩ := hs k c hc
    obtain ⟨g,rest,hg⟩ := List.exists_cons_of_ne_nil (List.ne_nil_of_mem hf)
    obtain rfl := hsingle.rest_eq_nil hg
    obtain rfl : f = g := by simpa [hg] using hf
    exact ⟨t,f,hg,hrequest⟩
  cases hkeys : s.cache.keys with
  | nil => exact Nat.zero_le _
  | cons k keys =>
  obtain ⟨t,f,-⟩ := hthread k (by simp [hkeys])
  have : Nonempty Tid := ⟨t⟩
  have : Nonempty (Frame T R) := ⟨f⟩
  choose! thread frame hframe hrequest using hthread
  have hnodup : (s.cache.keys.map thread).Nodup := by
    refine List.Nodup.map_on (fun k hk k' hk' heq => ?_) s.cache.nodupKeys
    have hsame : [frame k] = [frame k'] := by rw [← hframe k hk,← hframe k' hk',heq]
    rw [← hrequest k hk,← hrequest k' hk',List.cons.inj hsame |>.1]
  simpa [hkeys] using hnodup.length_le_card

theorem Silent.sized (h : Silent s t pc pc' monitor) (hn : s.cache.keys.length ≤ n)
    (hpc : pc.Sized s.cache n) : pc'.Sized s.cache n := by
  cases h with
  | nonEmpty h => exact h
  | keySet => exact hpc
  | snapshot h =>
    obtain ⟨k,present,rfl⟩ := List.exists_cons_of_ne_nil hpc
    have hk := h.2.1 k List.mem_cons_self
    have hsubset : _ ⊆ s.cache.keys := fun k hk => AList.mem_keys.mp (h.2.2 k hk)
    exact ⟨List.ne_nil_of_mem hk,(h.1.subperm hsubset).length_le.trans hn⟩
  | _ => trivial

omit [DecidableEq Tid] in
theorem Pc.Sized.insert {cache : AList fun _ : T => CallId} (h : pc.Sized cache n) :
    pc.Sized (cache.insert k c) n := by
  cases pc with
  | keySet =>
    have hmem : k ∈ (cache.insert k c).keys := AList.mem_keys.mp ((AList.mem_insert _).mpr (.inl rfl))
    exact List.ne_nil_of_mem hmem
  | _ => exact h

omit [DecidableEq T] [DecidableEq Tid] in
theorem Pc.sized_of_outside {cache : AList fun _ : T => CallId} (h : pc.inside = false) :
    pc.Sized cache n := by
  cases pc <;> trivial

def AllSized (n : ℕ) (s : State T R Tid) : Prop :=
  ∀ t, ∀ f ∈ s.threads t, f.pc.Sized s.cache n

theorem Step.allSized (h : Step s a s') (hs : AllSized n s) (hn : s.cache.keys.length ≤ n)
    (hm : MonitorCounts s) (hq : ∀ t, Suspended (s.threads t)) : AllSized n s' := by
  intro u g hg
  have hmoved : ∀ {t f f' rest cache}, s.threads t = f :: rest →
      (∀ pc : Pc T R, pc.Sized s.cache n → pc.Sized cache n) → f'.pc.Sized cache n →
      g ∈ Function.update s.threads t (f' :: rest) u → g.pc.Sized cache n := by
    intro t f f' rest cache ht hcache hf' hg
    obtain ⟨rfl,rfl⟩ | hg := mem_moved ht hg
    · exact hf'
    · exact hcache _ (hs u g hg)
  cases h with
  | send h =>
    obtain ⟨rfl,rfl⟩ | hg := mem_push hg
    · trivial
    · exact hs u g hg
  | hit ht h => exact hs u g (mem_popped ht hg)
  | miss ht h =>
    refine hmoved ht (fun _ => id) ?_ hg
    trivial
  | put ht =>
    refine hmoved ht (fun _ => Pc.Sized.insert) ?_ hg
    trivial
  | silent ht h =>
    refine hmoved ht (fun _ => id) ?_ hg
    exact h.sized hn (hs _ _ (mem_top ht))
  | apply ht =>
    refine hmoved ht (fun _ => id) ?_ hg
    trivial
  | applyReturn ht =>
    refine hmoved ht (fun _ => id) ?_ hg
    trivial
  | remove ht hrequest hresponse h =>
    -- the calls below the one that removes are in foreign code, those of other threads outside
    obtain ⟨rfl,rfl⟩ | ⟨hrest,rfl⟩ | ⟨hother,hu⟩ := mem_move hg
    · trivial
    · have hout := hq u g (by simp [ht,hrest])
      cases hpc : g.pc <;> first | trivial | simp [hpc,Pc.callsOut] at hout
    · refine Pc.sized_of_outside ?_
      exact Bool.eq_false_iff.mpr fun hin => hu (hm.exclusive hother (mem_top ht) hin rfl)
  | complete ht =>
    refine hmoved ht (fun _ => id) ?_ hg
    trivial
  | release ht => exact hs u g (mem_popped ht hg)
  | fail ht h => exact hs u g (mem_popped ht hg)

theorem reachable_allSized [Fintype Tid] (h : (machine T R Tid).Reachable PlainUse s) :
    AllSized (Fintype.card Tid) s := by
  apply h.invariant (I := AllSized (Fintype.card Tid))
  · simp [machine,AllSized]
  · intro s a s' hr ih _ hs
    have hserved := reachable_allServed (hr.mono fun _ _ ha => ha.1)
    exact (step_cases hs).allSized ih (length_keys_le_card hserved (reachable_single hr))
      (reachable_monitorCounts hr) (reachable_suspended hr)

/-- In plain use the batch function is never called for nothing, and never with more requests than
there are threads. -/
theorem batch_size [Fintype Tid] (h : (machine T R Tid).Reachable PlainUse s)
    (hl : .apply requestList ∈ s.history) :
    requestList ≠ [] ∧ requestList.length ≤ Fintype.card Tid := by
  have hall : ∀ requestList, .apply requestList ∈ s.history →
      requestList ≠ [] ∧ requestList.length ≤ Fintype.card Tid := by
    apply h.invariant (I := fun s => ∀ requestList, .apply requestList ∈ s.history →
      requestList ≠ [] ∧ requestList.length ≤ Fintype.card Tid)
    · simp [machine]
    · intro s a s' hr ih _ hs l hl
      cases step_cases hs with
      | apply ht =>
        obtain rfl | hold : _ ∨ _ := by simpa using hl
        · exact reachable_allSized hr _ _ (mem_top ht)
        · exact ih l hold
      | _ => exact ih l (by simpa using hl)
  exact hall requestList hl

theorem batch_size_merged : ∃ s : State ℕ ℕ Bool,
    .apply [7] ∈ s.history ∧ [7] ≠ [] ∧ [7].length ≤ Fintype.card Bool := by
  have hexec : ((machine ℕ ℕ Bool).exec PlainUse (machine ℕ ℕ Bool).init mergedRun).map
      (fun s => decide (.apply [7] ∈ s.history)) = some true := by decide
  obtain ⟨s,hs,happly⟩ := Machine.exists_reachable _ _ hexec
  have hl := of_decide_eq_true happly
  exact ⟨s,hl,batch_size hs hl⟩

end Sizes

end AggregatorMachine
end Potimizer

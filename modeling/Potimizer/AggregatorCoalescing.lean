import Potimizer.AggregatorDelivery

/-! Equal requests whose lookups fall between the same two removals share one future exactly when
no lookup misses while another call is between its own missed lookup and its put. -/
namespace Potimizer
namespace AggregatorMachine

open StepMachine ReentrantMonitor

section Epochs

variable {T R Tid : Type} [DecidableEq T] {e : Event T R Tid} {history : List (Event T R Tid)}
  {call : CallId} {k : T} {c : CallId} {n : ℕ}

/-- The call looked `k` up after `n` removals of `k` and was bound to return the future `c`. -/
def GetIn (history : List (Event T R Tid)) (call : CallId) (k : T) (c : CallId) (n : ℕ) : Prop :=
  ∃ newer older, history = newer ++ .get call k c :: older ∧ removals k older = n

@[simp] theorem getIn_nil : ¬ GetIn ([] : List (Event T R Tid)) call k c n := by
  simp [GetIn]

theorem getIn_cons : GetIn (e :: history) call k c n ↔
    e = .get call k c ∧ removals k history = n ∨ GetIn history call k c n := by
  constructor
  · rintro ⟨_|⟨e',newer⟩,older,heq,hn⟩
    · obtain ⟨rfl,rfl⟩ := List.cons.inj heq
      exact .inl ⟨rfl,hn⟩
    · obtain ⟨rfl,rfl⟩ := List.cons.inj heq
      exact .inr ⟨newer,older,rfl,hn⟩
  · rintro (⟨rfl,hn⟩|⟨newer,older,rfl,hn⟩)
    · exact ⟨[],history,rfl,hn⟩
    · exact ⟨e :: newer,older,rfl,hn⟩

theorem GetIn.mem (h : GetIn history call k c n) : .get call k c ∈ history := by
  obtain ⟨newer,older,rfl,-⟩ := h
  simp

theorem GetIn.le_removals (h : GetIn history call k c n) : n ≤ removals k history := by
  induction history with
  | nil => exact absurd h getIn_nil
  | cons e history ih =>
    obtain ⟨-,rfl⟩ | hold := getIn_cons.mp h
    · exact removals_le_cons
    · exact (ih hold).trans removals_le_cons

/-- Lookups of one request between the same two removals are bound to one future. -/
def Shared (history : List (Event T R Tid)) : Prop := ∀ {call₁ call₂ k c₁ c₂ n},
  GetIn history call₁ k c₁ n → GetIn history call₂ k c₂ n → c₁ = c₂

/-- Calls on one request whose lookups fall between the same two removals return one future. -/
def Coalesced (history : List (Event T R Tid)) : Prop := ∀ call₁ call₂ k c₁ c₂ c₁' c₂' n,
  GetIn history call₁ k c₁ n → GetIn history call₂ k c₂ n →
    .return call₁ k c₁' ∈ history → .return call₂ k c₂' ∈ history → c₁' = c₂'

/-- A lookup does not miss while another call is between its missed lookup and its put. -/
def NoRace (s : State T R Tid) : Action T R Tid → Prop
  | .run t => ∀ f ∈ (s.threads t).head?, f.pc = .get → s.cache.lookup f.request = none →
      ∀ u, ∀ g ∈ s.threads u, g.pc = .put → g.request ≠ f.request
  | _ => True

end Epochs

variable {T R Tid : Type} {s s' : State T R Tid} {t u : Tid} {a : Action T R Tid} {k : T}
  {c : CallId} {f g : Frame T R} {rest : List (Frame T R)}
  {ok : State T R Tid → Action T R Tid → Prop}

theorem Fails.not_put (h : Fails t a f.pc) : f.pc ≠ .put := by
  intro hpc
  rw [hpc] at h
  cases h

theorem ne_of_atPut (hg : g.pc = .put) (hf : f.pc ≠ .put) : g ≠ f := by
  rintro rfl
  exact hf hg

def AtPut (k : T) (c : CallId) (f : Frame T R) : Prop :=
  f.pc = .put ∧ f.request = k ∧ f.call = c

variable [DecidableEq T]

theorem noRace_of_top (ht : s.threads a.thread = f :: rest) (hpc : f.pc ≠ .get) : NoRace s a := by
  cases a with
  | run t =>
    intro f' hf' hpc'
    obtain rfl : f = f' := by simpa [show s.threads t = f :: rest from ht] using hf'
    exact absurd hpc' hpc
  | _ => trivial

/-- The lookups since the last removal of a request are bound to the future that is mapped to it or
will be put by the only call between its lookup and its put. -/
structure Coalescing (s : State T R Tid) : Prop where
  shared : Shared s.history
  current : ∀ {call k c}, GetIn s.history call k c (removals k s.history) →
    s.cache.lookup k = some c ∨ SomeCall (AtPut k c) s.threads
  unmapped : ∀ t, ∀ f ∈ s.threads t, f.pc = .put → s.cache.lookup f.request = none
  alone : ∀ {t u f g}, f ∈ s.threads t → g ∈ s.threads u → f.pc = .put → g.pc = .put →
    f.request = g.request → t = u
  bound : ∀ t, ∀ f ∈ s.threads t, f.pc = .put →
    GetIn s.history f.call f.request f.call (removals f.request s.history)

/-- A step that neither looks up, nor puts, nor removes changes nothing about the lookups. -/
theorem Coalescing.quiet (hs : Coalescing s) (hcache : s'.cache = s.cache)
    (hget : ∀ {call k c n}, GetIn s'.history call k c n ↔ GetIn s.history call k c n)
    (hremove : ∀ k, removals k s'.history = removals k s.history)
    (hput : ∀ {u g}, g.pc = .put → (g ∈ s'.threads u ↔ g ∈ s.threads u)) : Coalescing s' := by
  refine ⟨fun h₁ h₂ => hs.shared (hget.mp h₁) (hget.mp h₂),fun h => ?_,fun t f hf hpc => ?_,
    fun hf hg hfpc hgpc => hs.alone ((hput hfpc).mp hf) ((hput hgpc).mp hg) hfpc hgpc,
    fun t f hf hpc => ?_⟩
  · rw [hremove] at h
    obtain hl | ⟨t,f,hf,hput'⟩ := hs.current (hget.mp h)
    · exact .inl (hcache ▸ hl)
    · exact .inr ⟨t,f,(hput hput'.1).mpr hf,hput'⟩
  · rw [hcache]
    exact hs.unmapped t f ((hput hpc).mp hf) hpc
  · rw [hremove]
    exact hget.mpr (hs.bound t f ((hput hpc).mp hf) hpc)

theorem Coalescing.mapped {call future : CallId} (hs : Coalescing s)
    (hl : s.cache.lookup k = some future)
    (h : GetIn s.history call k c (removals k s.history)) : c = future := by
  obtain hl' | ⟨t,f,hf,hpc,rfl,-⟩ := hs.current h
  · exact Option.some.inj (hl'.symm.trans hl)
  · simp [hs.unmapped t f hf hpc] at hl

theorem Coalescing.no_lookup {call : CallId} (hs : Coalescing s) (hl : s.cache.lookup k = none)
    (hput : ∀ u, ∀ g ∈ s.threads u, g.pc = .put → g.request ≠ k) :
    ¬ GetIn s.history call k c (removals k s.history) := by
  intro h
  obtain hl' | ⟨t,f,hf,hpc,hrequest,-⟩ := hs.current h
  · simp [hl] at hl'
  · exact hput t f hf hpc hrequest

variable [DecidableEq Tid]

theorem Coalescing.hit {future : CallId} (hs : Coalescing s)
    (ht : s.threads t = ⟨k,c,.get⟩ :: rest) (hl : s.cache.lookup k = some future) :
    Coalescing (((s.setStack t rest).log (.get c k future)).log (.return c k future)) := by
  have hget : ∀ {call k' c' n}, GetIn (.return c k future :: .get c k future :: s.history) call k' c' n ↔
      (c = call ∧ k = k' ∧ future = c') ∧ removals k' s.history = n ∨
        GetIn s.history call k' c' n := by simp [getIn_cons]
  have hremove : ∀ k', removals k' (.return c k future :: .get c k future :: s.history) =
      removals k' s.history := by simp [removals]
  have hput : ∀ {u g}, g.pc = .put → (g ∈ Function.update s.threads t rest u ↔ g ∈ s.threads u) :=
    fun hg => mem_popped_iff ht (by rintro rfl; simp at hg)
  refine ⟨fun {call₁ call₂ k' c₁ c₂ n} h₁ h₂ => ?_,fun {call k' c'} h => ?_,
    fun u f hf hpc => hs.unmapped u f ((hput hpc).mp hf) hpc,
    fun hf hg hfpc hgpc => hs.alone ((hput hfpc).mp hf) ((hput hgpc).mp hg) hfpc hgpc,
    fun u f hf hpc => ?_⟩
  · obtain ⟨⟨-,rfl,rfl⟩,rfl⟩ | hold₁ := hget.mp h₁ <;>
      obtain ⟨⟨-,h₃,h₄⟩,h₅⟩ | hold₂ := hget.mp h₂
    · exact h₄
    · exact (hs.mapped hl hold₂).symm
    · subst h₃ h₄ h₅
      exact hs.mapped hl hold₁
    · exact hs.shared hold₁ hold₂
  · obtain ⟨⟨-,rfl,rfl⟩,-⟩ | hold := hget.mp h
    · exact .inl hl
    · obtain hl' | hcall := hs.current (hremove k' ▸ hold)
      · exact .inl hl'
      · exact .inr (hcall.pop ht (by simp [AtPut]))
  · refine hget.mpr (.inr ?_)
    have hbound := hs.bound u f ((hput hpc).mp hf) hpc
    exact (hremove f.request).symm ▸ hbound

theorem Coalescing.miss (hs : Coalescing s) (ht : s.threads t = ⟨k,c,.get⟩ :: rest)
    (hl : s.cache.lookup k = none)
    (hrace : ∀ u, ∀ g ∈ s.threads u, g.pc = .put → g.request ≠ k) :
    Coalescing ((s.setStack t (⟨k,c,.put⟩ :: rest)).log (.get c k c)) := by
  have hget : ∀ {call k' c' n}, GetIn (.get c k c :: s.history) call k' c' n ↔
      (c = call ∧ k = k' ∧ c = c') ∧ removals k' s.history = n ∨
        GetIn s.history call k' c' n := by simp [getIn_cons]
  have hremove : ∀ k', removals k' (.get c k c :: s.history) = removals k' s.history := by
    simp [removals]
  have hmem : ∀ {u g}, g ∈ Function.update s.threads t (⟨k,c,.put⟩ :: rest) u →
      g = ⟨k,c,.put⟩ ∧ u = t ∨ g ∈ s.threads u := mem_moved ht
  refine ⟨fun {call₁ call₂ k' c₁ c₂ n} h₁ h₂ => ?_,fun {call k' c'} h => ?_,
    fun u f hf hpc => ?_,fun {u v f g} hf hg hfpc hgpc hfg => ?_,fun u f hf hpc => ?_⟩
  · obtain ⟨⟨-,rfl,rfl⟩,rfl⟩ | hold₁ := hget.mp h₁ <;>
      obtain ⟨⟨-,h₃,h₄⟩,h₅⟩ | hold₂ := hget.mp h₂
    · exact h₄
    · exact absurd hold₂ (hs.no_lookup hl hrace)
    · subst h₃ h₄ h₅
      exact absurd hold₁ (hs.no_lookup hl hrace)
    · exact hs.shared hold₁ hold₂
  · obtain ⟨⟨-,rfl,rfl⟩,-⟩ | hold := hget.mp h
    · exact .inr ⟨t,⟨k,c,.put⟩,by simp,rfl,rfl,rfl⟩
    · obtain hl' | hcall := hs.current (hremove k' ▸ hold)
      · exact .inl hl'
      · exact .inr (hcall.move ht (by simp [AtPut]))
  · obtain ⟨rfl,-⟩ | hold := hmem hf
    · exact hl
    · exact hs.unmapped u f hold hpc
  · obtain ⟨rfl,rfl⟩ | holdf := hmem hf <;> obtain ⟨rfl,rfl⟩ | holdg := hmem hg
    · rfl
    · exact absurd hfg.symm (hrace v g holdg hgpc)
    · exact absurd hfg (hrace u f holdf hfpc)
    · exact hs.alone holdf holdg hfpc hgpc hfg
  · refine hget.mpr ?_
    obtain ⟨rfl,-⟩ | hold := hmem hf
    · exact .inl ⟨⟨rfl,rfl,rfl⟩,(hremove k).symm⟩
    · exact .inr ((hremove f.request).symm ▸ hs.bound u f hold hpc)

theorem Coalescing.put (hs : Coalescing s) (hq : ∀ t, Suspended (s.threads t))
    (ht : s.threads t = ⟨k,c,.put⟩ :: rest) :
    Coalescing (({ s with cache := s.cache.insert k c }.setStack t (⟨k,c,.acquire⟩ :: rest)).log
      (.put k c (s.cache.lookup k))) := by
  have hget : ∀ {call k' c' n}, GetIn (.put k c (s.cache.lookup k) :: s.history) call k' c' n ↔
      GetIn s.history call k' c' n := by simp [getIn_cons]
  have hremove : ∀ k', removals k' (.put k c (s.cache.lookup k) :: s.history) =
      removals k' s.history := by simp [removals]
  -- the calls still at their put are on other threads and other requests
  have hmem : ∀ {u g}, g ∈ Function.update s.threads t (⟨k,c,.acquire⟩ :: rest) u → g.pc = .put →
      g ∈ s.threads u ∧ g.request ≠ k := by
    intro u g hg hpc
    obtain ⟨rfl,-⟩ | ⟨hrest,-⟩ | ⟨hother,hu⟩ := mem_move hg
    · simp at hpc
    · have hout := hq t g (by simp [ht,hrest])
      simp [hpc,Pc.callsOut] at hout
    · exact ⟨hother,fun hk => hu (hs.alone hother (mem_top ht) hpc rfl hk)⟩
  refine ⟨fun h₁ h₂ => hs.shared (hget.mp h₁) (hget.mp h₂),fun {call k' c'} h => ?_,
    fun u f hf hpc => ?_,fun hf hg hfpc hgpc =>
      hs.alone (hmem hf hfpc).1 (hmem hg hgpc).1 hfpc hgpc,fun u f hf hpc => ?_⟩
  · obtain hl | hcall := hs.current (hremove k' ▸ hget.mp h)
    · have hk : k' ≠ k := by
        rintro rfl
        simp [hs.unmapped t _ (mem_top ht) rfl] at hl
      exact .inl (by simpa [hk] using hl)
    · by_cases hk : k' = k
      · subst hk
        obtain ⟨u,f,hf,hpc,hrequest,rfl⟩ := hcall
        obtain rfl := hs.alone hf (mem_top ht) hpc rfl hrequest
        obtain ⟨rest',hrest'⟩ := (hq u).top hf (by simp [hpc,Pc.callsOut])
        obtain ⟨rfl,-⟩ := List.cons.inj (ht.symm.trans hrest')
        exact .inl (by simp)
      · exact .inr (hcall.move ht fun hput => absurd hput.2.1.symm hk)
  · obtain ⟨hold,hk⟩ := hmem hf hpc
    simpa [hk] using hs.unmapped u f hold hpc
  · exact hget.mpr ((hremove f.request).symm ▸ hs.bound u f (hmem hf hpc).1 hpc)

theorem Coalescing.remove {requestList : List T} {responses : List R} {i : ℕ} {request : T}
    {response : R} {future : CallId} (hs : Coalescing s)
    (ht : s.threads t = ⟨k,c,.loop requestList responses i⟩ :: rest)
    (hl : s.cache.lookup request = some future) :
    Coalescing (({ s with cache := s.cache.erase request }.setStack t
      (⟨k,c,.complete requestList responses i response future⟩ :: rest)).log
      (.remove request future)) := by
  have hget : ∀ {call k' c' n}, GetIn (.remove request future :: s.history) call k' c' n ↔
      GetIn s.history call k' c' n := by simp [getIn_cons]
  have hother : ∀ {k'}, k' ≠ request → removals k' (.remove request future :: s.history) =
      removals k' s.history := fun hk => by simp [removals,Ne.symm hk]
  have hput : ∀ {u g}, g.pc = .put → (g ∈ Function.update s.threads t
      (⟨k,c,.complete requestList responses i response future⟩ :: rest) u ↔ g ∈ s.threads u) :=
    fun hg => mem_moved_iff ht (by rintro rfl; simp at hg) (by rintro rfl; simp at hg)
  refine ⟨fun h₁ h₂ => hs.shared (hget.mp h₁) (hget.mp h₂),fun {call k' c'} h => ?_,
    fun u f hf hpc => ?_,
    fun hf hg hfpc hgpc => hs.alone ((hput hfpc).mp hf) ((hput hgpc).mp hg) hfpc hgpc,
    fun u f hf hpc => ?_⟩
  · by_cases hk : k' = request
    · -- the removal begins a new interval, in which nothing was looked up
      subst hk
      have hle := (hget.mp h).le_removals
      simp [removals] at hle
    · obtain hl' | hcall := hs.current (hother hk ▸ hget.mp h)
      · exact .inl (by simpa [hk] using hl')
      · exact .inr (hcall.move ht (by simp [AtPut]))
  · have hnone := hs.unmapped u f ((hput hpc).mp hf) hpc
    by_cases hk : f.request = request
    · subst hk
      simp
    · simpa [hk] using hnone
  · have hold := (hput hpc).mp hf
    have hk : f.request ≠ request := by
      rintro rfl
      simp [hs.unmapped u f hold hpc] at hl
    exact hget.mpr ((hother hk).symm ▸ hs.bound u f hold hpc)

theorem Silent.not_put {pc pc' : Pc T R} {monitor : Monitor Tid} (h : Silent s t pc pc' monitor) :
    pc ≠ .put ∧ pc' ≠ .put := by
  cases h <;> simp

theorem Step.coalescing (h : Step s a s') (hs : Coalescing s)
    (hq : ∀ t, Suspended (s.threads t)) (hok : NoRace s a) : Coalescing s' := by
  cases h with
  | send h =>
    exact hs.quiet rfl (by simp [getIn_cons]) (by simp [removals])
      fun hg => mem_push_iff (ne_of_atPut hg (by simp))
  | hit ht h => exact hs.hit ht h
  | @miss t k c rest ht h => exact hs.miss ht h (hok ⟨k,c,.get⟩ (by simp [ht]) rfl h)
  | put ht => exact hs.put hq ht
  | silent ht h =>
    exact hs.quiet rfl .rfl (fun _ => rfl) fun hg =>
      mem_moved_iff ht (ne_of_atPut hg h.not_put.1) (ne_of_atPut hg h.not_put.2)
  | apply ht =>
    exact hs.quiet rfl (by simp [getIn_cons]) (by simp [removals]) fun hg =>
      mem_moved_iff ht (ne_of_atPut hg (by simp)) (ne_of_atPut hg (by simp))
  | applyReturn ht =>
    exact hs.quiet rfl (by simp [getIn_cons]) (by simp [removals]) fun hg =>
      mem_moved_iff ht (ne_of_atPut hg (by simp)) (ne_of_atPut hg (by simp))
  | remove ht hrequest hresponse h => exact hs.remove ht h
  | complete ht =>
    exact hs.quiet rfl (by simp [getIn_cons]) (by simp [removals]) fun hg =>
      mem_moved_iff ht (ne_of_atPut hg (by simp)) (ne_of_atPut hg (by simp))
  | release ht =>
    exact hs.quiet rfl (by simp [getIn_cons]) (by simp [removals]) fun hg =>
      mem_popped_iff ht (ne_of_atPut hg (by simp))
  | fail ht h =>
    exact hs.quiet rfl (by simp [getIn_cons]) (by simp [removals]) fun hg =>
      mem_popped_iff ht (ne_of_atPut hg h.not_put)

theorem coalescing_of_noRace (h : (machine T R Tid).Reachable NoRace s) : Coalescing s := by
  apply h.invariant (I := Coalescing)
  · exact ⟨fun h => absurd h getIn_nil,fun h => absurd h getIn_nil,by simp [machine],
      by simp [machine],by simp [machine]⟩
  · exact fun s a s' hr ih hok hs => (step_cases hs).coalescing ih (reachable_suspended hr) hok

/-- A call looks up once, and returns what it was bound to. -/
structure Looked (s : State T R Tid) : Prop where
  sent : ∀ {call k c}, .get call k c ∈ s.history → ∃ t, .send t call k ∈ s.history
  unlooked : ∀ t, ∀ f ∈ s.threads t, f.pc.stage = .looking → ∀ k c, .get f.call k c ∉ s.history
  missed : ∀ t, ∀ f ∈ s.threads t, f.pc.stage ≠ .looking →
    .get f.call f.request f.call ∈ s.history
  unique : ∀ {call k c k' c'}, .get call k c ∈ s.history → .get call k' c' ∈ s.history → c = c'
  returned : ∀ {call k c}, .return call k c ∈ s.history → .get call k c ∈ s.history

theorem Step.get_cases {call : CallId} (h : Step s a s') (hg : .get call k c ∈ s'.history) :
    .get call k c ∈ s.history ∨ ∃ t rest, s.threads t = ⟨k,call,.get⟩ :: rest ∧
      ∀ f ∈ s'.threads t, f.pc.stage = .looking → f ∈ rest := by
  cases h with
  | @hit t k₁ c₁ rest future ht h =>
    obtain ⟨rfl,rfl,rfl⟩ | hg : (_ ∧ _ ∧ _) ∨ _ := by simpa using hg
    · exact .inr ⟨t,rest,ht,fun f hf _ => by simpa using hf⟩
    · exact .inl hg
  | @miss t k₁ c₁ rest ht h =>
    obtain ⟨rfl,rfl,rfl⟩ | hg : (_ ∧ _ ∧ _) ∨ _ := by simpa using hg
    · refine .inr ⟨t,rest,ht,fun f hf hpc => ?_⟩
      obtain rfl | hf := List.mem_cons.mp (by simpa using hf)
      · simp [Pc.stage] at hpc
      · exact hf
    · exact .inl hg
  | _ => exact .inl (by simpa using hg)

theorem Step.unlooked (h : Step s a s') (hs : Looked s) (hn : Named s)
    (hq : ∀ t, Suspended (s.threads t)) (hf : f ∈ s'.threads t) (hpc : f.pc.stage = .looking)
    (k : T) (c : CallId) : .get f.call k c ∉ s'.history := by
  intro hg
  obtain ⟨u,hsent⟩ : ∃ u, .send u f.call k ∈ s.history := by
    obtain hold | ⟨u,rest,hu,-⟩ := h.get_cases hg
    · exact hs.sent hold
    · exact ⟨u,hn.sent u _ (mem_top hu)⟩
  obtain ⟨hcall,-⟩ | ⟨pc,hmem,hadvance⟩ := h.frame_cases hf
  · exact absurd (hn.fresh hsent) (by simp [hcall])
  · obtain hold | ⟨v,rest,hv,hrest⟩ := h.get_cases hg
    · exact hs.unlooked t _ hmem (hadvance.looking hpc) k c hold
    · -- the call that looks up is on top of its stack, and only the top can be before its lookup
      have hsent₁ := hn.sent t _ hmem
      have hsent₂ := hn.sent v _ (mem_top hv)
      obtain ⟨rfl,-⟩ := hn.unique hsent₁ hsent₂
      have hout := hq t f (by simp [hv,hrest f hf hpc])
      simp [Pc.stage_of_callsOut hout] at hpc

theorem Step.missed (h : Step s a s') (hs : Looked s) (hf : f ∈ s'.threads t)
    (hpc : f.pc.stage ≠ .looking) : .get f.call f.request f.call ∈ s'.history := by
  obtain ⟨-,hget⟩ | ⟨pc,hmem,hadvance⟩ := h.frame_cases hf
  · simp [hget,Pc.stage] at hpc
  · have hold : pc.stage ≠ .looking → .get f.call f.request f.call ∈ s'.history := by
      intro hpc
      have hget := hs.missed t _ hmem hpc
      exact h.history_mono hget
    generalize pc.stage = stage at hadvance hold
    generalize f.pc.stage = stage' at hadvance hpc
    cases hadvance with
    | stay => exact hold hpc
    | miss h => exact h
    | put h => exact hold (by simp)

theorem Step.get_unique {call c' : CallId} {k' : T} (h : Step s a s') (hs : Looked s)
    (hg : .get call k c ∈ s'.history) (hg' : .get call k' c' ∈ s'.history) : c = c' := by
  cases h with
  | hit ht h =>
    have hnot := hs.unlooked _ _ (mem_top ht) rfl
    obtain ⟨rfl,rfl,rfl⟩ | hold : (_ ∧ _ ∧ _) ∨ _ := by simpa using hg
    · obtain ⟨-,rfl⟩ | hold' : (_ ∧ _) ∨ _ := by simpa using hg'
      · rfl
      · exact absurd hold' (hnot _ _)
    · obtain ⟨rfl,-,-⟩ | hold' : (_ ∧ _ ∧ _) ∨ _ := by simpa using hg'
      · exact absurd hold (hnot _ _)
      · exact hs.unique hold hold'
  | miss ht h =>
    have hnot := hs.unlooked _ _ (mem_top ht) rfl
    obtain ⟨rfl,rfl,rfl⟩ | hold : (_ ∧ _ ∧ _) ∨ _ := by simpa using hg
    · obtain ⟨-,rfl⟩ | hold' : (_ ∧ _) ∨ _ := by simpa using hg'
      · rfl
      · exact absurd hold' (hnot _ _)
    · obtain ⟨rfl,-,-⟩ | hold' : (_ ∧ _ ∧ _) ∨ _ := by simpa using hg'
      · exact absurd hold (hnot _ _)
      · exact hs.unique hold hold'
  | _ => exact hs.unique (by simpa using hg) (by simpa using hg')

theorem Step.return_get {call : CallId} (h : Step s a s') (hs : Looked s)
    (hr : .return call k c ∈ s'.history) : .get call k c ∈ s'.history := by
  cases h with
  | hit ht h =>
    obtain ⟨rfl,rfl,rfl⟩ | hr : (_ ∧ _ ∧ _) ∨ _ := by simpa using hr
    · simp
    · simp [hs.returned hr]
  | release ht =>
    obtain ⟨rfl,rfl,rfl⟩ | hr : (_ ∧ _ ∧ _) ∨ _ := by simpa using hr
    · have hget := hs.missed _ _ (mem_top ht) (by simp [Pc.stage])
      simp [hget]
    · simp [hs.returned hr]
  | _ =>
    have hold := hs.returned (by simpa using hr)
    simp [hold]

theorem reachable_looked (h : (machine T R Tid).Reachable ok s) : Looked s := by
  apply h.invariant (I := Looked)
  · exact ⟨by simp [machine],by simp [machine],by simp [machine],by simp [machine],
      by simp [machine]⟩
  · intro s a s' hr ih _ hs
    have hstep := step_cases hs
    have hn := reachable_named hr
    refine ⟨fun hg => ?_,fun t f hf hpc => hstep.unlooked ih hn (reachable_suspended hr) hf hpc,
      fun t f hf hpc => hstep.missed ih hf hpc,hstep.get_unique ih,hstep.return_get ih⟩
    obtain hold | ⟨t,rest,ht,-⟩ := hstep.get_cases hg
    · obtain ⟨t,hsent⟩ := ih.sent hold
      exact ⟨t,hstep.history_mono hsent⟩
    · exact ⟨t,hstep.history_mono (hn.sent t _ (mem_top ht))⟩

theorem Shared.coalesced (h : (machine T R Tid).Reachable ok s) (hs : Shared s.history) :
    Coalesced s.history := by
  have hl := reachable_looked h
  intro call₁ call₂ k c₁ c₂ c₁' c₂' n h₁ h₂ hr₁ hr₂
  obtain rfl := hl.unique (hl.returned hr₁) h₁.mem
  obtain rfl := hl.unique (hl.returned hr₂) h₂.mem
  exact hs h₁ h₂

theorem Step.getIn_mono {call : CallId} {n : ℕ} (h : Step s a s')
    (hg : GetIn s.history call k c n) : GetIn s'.history call k c n := by
  cases h <;> simp [getIn_cons,hg]

theorem race_of_not_noRace (h : Step s a s') (hrace : ¬ NoRace s a) :
    ∃ t u k c rest g, s.threads t = ⟨k,c,.get⟩ :: rest ∧ s.cache.lookup k = none ∧
      g ∈ s.threads u ∧ g.pc = .put ∧ g.request = k ∧ s'.history = .get c k c :: s.history := by
  cases h with
  | @miss t k c rest ht hl =>
    by_contra hnone
    refine hrace fun f hf _ _ u g hg hpc hrequest => hnone ?_
    obtain rfl : ⟨k,c,.get⟩ = f := by simpa [ht] using hf
    exact ⟨t,u,k,c,rest,g,ht,hl,hg,hpc,hrequest,rfl⟩
  | @hit t k c rest future ht hl =>
    refine absurd (fun f hf _ hl' => ?_) hrace
    obtain rfl : ⟨k,c,.get⟩ = f := by simpa [ht] using hf
    simp [hl] at hl'
  | send h => exact absurd trivial hrace
  | put ht => exact absurd (noRace_of_top ht (by simp)) hrace
  | @silent a k c pc pc' monitor rest ht h =>
    have hpc : pc ≠ .get := by
      rintro rfl
      cases h
    exact absurd (noRace_of_top ht hpc) hrace
  | apply ht => exact absurd (noRace_of_top ht (by simp)) hrace
  | applyReturn ht => exact absurd trivial hrace
  | remove ht hrequest hresponse h => exact absurd (noRace_of_top ht (by simp)) hrace
  | complete ht => exact absurd (noRace_of_top ht (by simp)) hrace
  | release ht => exact absurd (noRace_of_top ht (by simp)) hrace
  | fail ht h =>
    obtain ⟨rfl,hpc⟩ := h.thread
    exact absurd (noRace_of_top ht hpc) hrace

theorem noRace_of_shared (h : (machine T R Tid).Reachable ok s) (hs : Shared s.history) :
    (machine T R Tid).Reachable NoRace s := by
  revert hs
  apply h.invariant (I := fun s => Shared s.history → (machine T R Tid).Reachable NoRace s)
  · exact fun _ => .init
  · intro s a s' hr ih _ hstep hs
    have hold := ih fun h₁ h₂ =>
      hs ((step_cases hstep).getIn_mono h₁) ((step_cases hstep).getIn_mono h₂)
    refine hold.step ?_ hstep
    by_contra hrace
    obtain ⟨t,u,k,c,rest,g,ht,hl,hg,hpc,rfl,hhistory⟩ := race_of_not_noRace (step_cases hstep) hrace
    have hbound := (coalescing_of_noRace hold).bound u g hg hpc
    -- both calls looked up since the last removal, and each is bound to its own future
    have hnew : GetIn s'.history c g.request c (removals g.request s.history) := by
      rw [hhistory]
      exact getIn_cons.mpr (.inl ⟨rfl,rfl⟩)
    obtain rfl := hs hnew ((step_cases hstep).getIn_mono hbound)
    have hn := reachable_named hr
    have hsent₁ := hn.sent u g hg
    have hsent₂ := hn.sent t _ (mem_top ht)
    obtain ⟨rfl,-⟩ := hn.unique hsent₁ hsent₂
    obtain ⟨rest',hrest'⟩ := (reachable_suspended hr u).top hg (by simp [hpc,Pc.callsOut])
    obtain ⟨htop,-⟩ := List.cons.inj (ht.symm.trans hrest')
    exact absurd ((congrArg Frame.pc htop).trans hpc) (by simp)

/-- In every run: equal requests looked up between the same two removals are bound to one future
exactly if no lookup missed while another call on the request was between its missed lookup and its
put; then they return one future, and where every call that looked up has returned, only then. -/
theorem equal_requests_coalesced_iff (h : (machine T R Tid).Reachable (fun _ _ => True) s) :
    (Shared s.history ↔ (machine T R Tid).Reachable NoRace s) ∧
      ((machine T R Tid).Reachable NoRace s → Coalesced s.history) ∧
      ((∀ call k c, .get call k c ∈ s.history → .return call k c ∈ s.history) →
        Coalesced s.history → (machine T R Tid).Reachable NoRace s) := by
  refine ⟨⟨noRace_of_shared h,fun hr => (coalescing_of_noRace hr).shared⟩,
    fun hr => Shared.coalesced hr (coalescing_of_noRace hr).shared,fun hreturned hs => ?_⟩
  exact noRace_of_shared h fun h₁ h₂ =>
    hs _ _ _ _ _ _ _ _ h₁ h₂ (hreturned _ _ _ h₁.mem) (hreturned _ _ _ h₂.mem)

theorem equal_requests_coalesced_iff_merged : ∃ s : State ℕ ℕ Bool,
    (machine ℕ ℕ Bool).Reachable (fun _ _ => True) s ∧ .return 1 7 0 ∈ s.history ∧
      (Shared s.history ↔ (machine ℕ ℕ Bool).Reachable NoRace s) ∧
      ((machine ℕ ℕ Bool).Reachable NoRace s → Coalesced s.history) ∧
      ((∀ call k c, .get call k c ∈ s.history → .return call k c ∈ s.history) →
        Coalesced s.history → (machine ℕ ℕ Bool).Reachable NoRace s) := by
  have hexec : ((machine ℕ ℕ Bool).exec (fun _ _ => True) (machine ℕ ℕ Bool).init
      mergedRun).map (fun s => decide (.return 1 7 0 ∈ s.history)) = some true := by decide
  obtain ⟨s,hs,hobserve⟩ := Machine.exists_reachable _ _ hexec
  exact ⟨s,hs,of_decide_eq_true hobserve,equal_requests_coalesced_iff hs⟩

/-- Two threads miss the same key before either puts, and return two futures. -/
theorem racing_requests_split : ∃ s : State ℕ ℕ Bool,
    (machine ℕ ℕ Bool).Reachable (BatchReturns (· = ·)) s ∧ ¬ Coalesced s.history := by
  have hexec : ((machine ℕ ℕ Bool).exec (BatchReturns (· = ·)) (machine ℕ ℕ Bool).init
      racingPuts).map (fun s => (s.history.drop 8,decide (.return 0 7 0 ∈ s.history),
        decide (.return 1 7 1 ∈ s.history))) = some
      ([.get 1 7 1,.get 0 7 0,.send true 1 7,.send false 0 7],true,true) := by decide
  obtain ⟨s,hs,hobserve⟩ := Machine.exists_reachable _ _ hexec
  simp only [Prod.mk.injEq,decide_eq_true_eq] at hobserve
  obtain ⟨hdrop,hr₀,hr₁⟩ := hobserve
  have hsplit := (List.take_append_drop 8 s.history).symm
  rw [hdrop] at hsplit
  have hget₁ : GetIn s.history 1 7 1 0 := ⟨_,_,hsplit,by decide⟩
  have hget₀ : GetIn s.history 0 7 0 0 :=
    ⟨s.history.take 8 ++ [.get 1 7 1],[.send true 1 7,.send false 0 7],by simpa using hsplit,
      by decide⟩
  exact ⟨s,hs,fun h => absurd (h 0 1 7 0 1 0 1 0 hget₀ hget₁ hr₀ hr₁) (by decide)⟩

end AggregatorMachine
end Potimizer

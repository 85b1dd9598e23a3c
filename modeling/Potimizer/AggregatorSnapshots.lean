import Potimizer.AggregatorLoad

/-! What becomes of the requests of a snapshot in the rest of the run, while the batch that took it
calls back and other threads go on. -/
namespace Potimizer
namespace AggregatorMachine

open StepMachine ReentrantMonitor

variable {T R Tid : Type} [DecidableEq T] [DecidableEq Tid] {s s' s₀ : State T R Tid} {t u : Tid}
  {a : Action T R Tid} {k k' : T} {c : CallId} {o : Option CallId} {requestList : List T} {f g : Frame T R}
  {rest : List (Frame T R)} {pc pc' : Pc T R} {ok : State T R Tid → Action T R Tid → Prop}

theorem removals_le_step (h : Step s a s') : removals k s.history ≤ removals k s'.history := by
  cases h with
  | hit ht h => exact removals_le_cons.trans removals_le_cons
  | silent ht h => exact le_rfl
  | _ => exact removals_le_cons

theorem Step.unmapped (h : Step s a s') (hreg : Registered s) (hp : .put k c o ∈ s.history)
    (hl : s.cache.lookup k ≠ some c) : s'.cache.lookup k ≠ some c := by
  cases h with
  | @put t k₁ c₁ rest ht =>
    by_cases hk : k = k₁
    · subst hk
      rw [State.log_cache,State.setStack_cache,AList.lookup_insert]
      rintro ⟨rfl⟩
      exact hreg.unput t _ (mem_top ht) (by simp [Pc.stage]) k o hp
    · simpa [hk] using hl
  | @remove t k₁ c₁ requestList responses i rest request response future ht _ _ h =>
    by_cases hk : k = request
    · subst hk
      simp
    · simpa [hk] using hl
  | _ => exact hl

/-- The mapping of `k` to `c` in the state `s₀`, seen from a later state: until a mapping of `k` is
removed the key stays, and from then on the future is not mapped to it. -/
structure Tracked (s₀ : State T R Tid) (k : T) (c : CallId) (s : State T R Tid) : Prop where
  put : ∃ o, .put k c o ∈ s.history
  grows : removals k s₀.history ≤ removals k s.history
  kept : removals k s.history ≤ removals k s₀.history → k ∈ s.cache
  gone : removals k s₀.history < removals k s.history → s.cache.lookup k ≠ some c
  removed : .remove k c ∈ s.history → removals k s₀.history < removals k s.history

theorem Tracked.step (hs : Tracked s₀ k c s) (hreg : Registered s) (h : Step s a s') :
    Tracked s₀ k c s' := by
  obtain ⟨o,ho⟩ := hs.put
  have hgrows := removals_le_step (k := k) h
  refine ⟨⟨o,h.history_mono ho⟩,hs.grows.trans hgrows,fun hle => ?_,fun hlt => ?_,
    fun hr => ?_⟩
  · have hmem := hs.kept (hgrows.trans hle)
    cases h with
    | put ht => exact (AList.mem_insert _).mpr (.inr hmem)
    | @remove t k₁ c₁ requestList responses i rest request response future ht _ _ h =>
      refine AList.mem_erase.mpr ⟨?_,hmem⟩
      rintro rfl
      have hgrown := hs.grows
      simp only [State.log_history,State.setStack_history,removals_remove,if_true] at hle
      omega
    | _ => exact hmem
  · by_cases hold : removals k s₀.history < removals k s.history
    · exact h.unmapped hreg ho (hs.gone hold)
    · cases h with
      | @remove t k₁ c₁ requestList responses i rest request response future ht _ _ h =>
        by_cases hk : request = k
        · subst hk
          simp
        · simp [removals_remove,hk] at hlt
          omega
      | _ => exact absurd (by simpa [removals] using hlt) hold
  · have hold : .remove k c ∈ s.history → removals k s₀.history < removals k s'.history :=
      fun hr => (hs.removed hr).trans_le hgrows
    cases h with
    | @remove t k₁ c₁ requestList responses i rest request response future ht _ _ h =>
      obtain ⟨rfl,rfl⟩ | hr : (_ ∧ _) ∨ _ := by simpa using hr
      · have hgrown := hs.grows
        simp only [State.log_history,State.setStack_history,removals_remove,if_true]
        omega
      · exact hold hr
    | _ => exact hold (by simpa using hr)

omit [DecidableEq Tid] in
theorem Tracked.init (hreg : Registered s₀) (hl : s₀.cache.lookup k = some c) :
    Tracked s₀ k c s₀ :=
  ⟨(hreg.cached hl).1,le_rfl,fun _ => AList.lookup_isSome.mp (by simp [hl]),
    fun hlt => absurd hlt (lt_irrefl _),fun hr => absurd hr ((hreg.cached hl).2 k)⟩

theorem Tracked.run (h : (machine T R Tid).Reachable ok s₀)
    (hrun : (machine T R Tid).Reaches ok s₀ s) (hl : s₀.cache.lookup k = some c) :
    Tracked s₀ k c s :=
  hrun.invariant (fun _ _ => id) h (Tracked.init (reachable_registered h) hl)
    fun _ _ _ hr ih _ hs => ih.step (reachable_registered hr) (step_cases hs)

/-- The call `c` of the thread `t` collects its snapshot in a reachable state, by the step that
leads to `s₀`. -/
structure SnapshotTaken (t : Tid) (k : T) (c : CallId) (requestList : List T)
    (s₀ : State T R Tid) : Prop where
  taken : ∃ s, (machine T R Tid).Reachable (fun _ _ => True) s ∧
    (machine T R Tid).step s (.snapshot t requestList) = some s₀
  top : ∃ rest, s₀.threads t = ⟨k,c,.apply requestList⟩ :: rest

theorem SnapshotTaken.reachable (h : SnapshotTaken t k c requestList s₀) :
    (machine T R Tid).Reachable (fun _ _ => True) s₀ := by
  obtain ⟨s,hs,hstep⟩ := h.taken
  exact hs.step trivial hstep

theorem SnapshotTaken.mapped (h : SnapshotTaken t k c requestList s₀) (hk : k' ∈ requestList) :
    ∃ c', s₀.cache.lookup k' = some c' := by
  obtain ⟨s,-,hstep⟩ := h.taken
  change step s (.snapshot t requestList) = some s₀ at hstep
  simp only [step] at hstep
  split at hstep
  · split_ifs at hstep with hsnapshot
    obtain rfl := Option.some.inj hstep
    exact Option.isSome_iff_exists.mp (AList.lookup_isSome.mpr (hsnapshot.2.2 k' hk))
  · cases hstep

def Pc.collected : Pc T R → Option (List T)
  | .snapshot present => some present
  | .apply requestList => some requestList
  | _ => none

omit [DecidableEq T] in
theorem Pc.inside_of_collected {l : List T} (h : pc.collected = some l) :
    pc.inside = true ∧ pc.callsOut = false := by
  cases pc <;> first | exact ⟨rfl,rfl⟩ | cases h

theorem Silent.collected {monitor : Monitor Tid} (h : Silent s t pc pc' monitor)
    (hk : k ∈ s.cache) (hpc : ∀ l, pc.collected = some l → k ∈ l) {l : List T}
    (hl : pc'.collected = some l) : k ∈ l := by
  cases h with
  | keySet =>
    obtain rfl : s.cache.keys = l := by simpa [Pc.collected] using hl
    exact hk
  | @snapshot present requestList h =>
    obtain rfl : requestList = l := by simpa [Pc.collected] using hl
    exact h.2.1 k (hpc present rfl)
  | _ => cases hl

/-- While no mapping of `k` is removed, every call that has collected the keys has collected it. -/
def Recollected (s₀ : State T R Tid) (k : T) (s : State T R Tid) : Prop :=
  removals k s.history ≤ removals k s₀.history →
    ∀ u, ∀ f ∈ s.threads u, ∀ l, f.pc.collected = some l → k ∈ l

theorem Recollected.step (hs : Recollected s₀ k s) (htracked : Tracked s₀ k c s)
    (h : Step s a s') : Recollected s₀ k s' := by
  intro hle u f hf l hl
  have hle' := (removals_le_step h).trans hle
  have hold : ∀ {u}, ∀ f ∈ s.threads u, f.pc.collected = some l → k ∈ l :=
    fun f hf => hs hle' _ f hf l
  have hmoved : ∀ {t g g' rest}, s.threads t = g :: rest → g'.pc.collected = none →
      f ∈ Function.update s.threads t (g' :: rest) u → k ∈ l := by
    intro t g g' rest ht hg' hf
    obtain ⟨rfl,rfl⟩ | hf := mem_moved ht hf
    · simp [hg'] at hl
    · exact hold f hf hl
  cases h with
  | send h =>
    obtain ⟨rfl,rfl⟩ | hf := mem_push hf
    · cases hl
    · exact hold f hf hl
  | silent ht h =>
    obtain ⟨rfl,rfl⟩ | hf := mem_moved ht hf
    · exact h.collected (htracked.kept hle') (hs hle' _ _ (mem_top ht)) hl
    · exact hold f hf hl
  | hit ht h => exact hold f (mem_popped ht hf) hl
  | miss ht h => exact hmoved ht rfl hf
  | put ht => exact hmoved ht rfl hf
  | apply ht => exact hmoved ht rfl hf
  | applyReturn ht => exact hmoved ht rfl hf
  | remove ht hrequest hresponse h => exact hmoved ht rfl hf
  | complete ht => exact hmoved ht rfl hf
  | release ht => exact hold f (mem_popped ht hf) hl
  | fail ht h => exact hold f (mem_popped ht hf) hl

theorem SnapshotTaken.recollected (h : SnapshotTaken t k c requestList s₀)
    (hk : k' ∈ requestList) : Recollected s₀ k' s₀ := by
  intro _ u f hf l hl
  obtain ⟨rest,ht⟩ := h.top
  obtain ⟨hinside,hcalls⟩ := Pc.inside_of_collected hl
  obtain rfl := (reachable_monitorCounts h.reachable).exclusive hf (mem_top ht) hinside rfl
  obtain ⟨rest',hrest⟩ := (reachable_suspended h.reachable u).top hf hcalls
  obtain ⟨rfl,-⟩ := List.cons.inj (ht.symm.trans hrest)
  obtain rfl : requestList = l := by simpa [Pc.collected] using hl
  exact hk

/-- While no mapping of a request of the snapshot is removed, it stays in the cache, and every call
that has collected the keys has collected it. -/
theorem SnapshotTaken.followed (h : SnapshotTaken t k c requestList s₀)
    (hrun : (machine T R Tid).Reaches (fun _ _ => True) s₀ s) (hk : k' ∈ requestList) :
    ∃ c', Tracked s₀ k' c' s ∧ Recollected s₀ k' s := by
  obtain ⟨c',hc⟩ := h.mapped hk
  refine ⟨c',?_⟩
  apply hrun.invariant (fun _ _ => id) h.reachable
    (I := fun s => Tracked s₀ k' c' s ∧ Recollected s₀ k' s)
  · exact ⟨.init (reachable_registered h.reachable) hc,h.recollected hk⟩
  · exact fun s a s' hr ih _ hs => ⟨ih.1.step (reachable_registered hr) (step_cases hs),
      ih.2.step ih.1 (step_cases hs)⟩

/-- At the point of the history the request of the snapshot waits for its response: no mapping of it
was removed since. -/
def Waiting (s₀ : State T R Tid) (history : List (Event T R Tid)) (k : T) : Prop :=
  removals k history = removals k s₀.history

instance (s₀ : State T R Tid) (history : List (Event T R Tid)) (k : T) :
    Decidable (Waiting s₀ history k) :=
  inferInstanceAs (Decidable (_ = _))

deriving instance DecidableEq for Pc, Frame

def after (actions : List (Action ℕ ℕ Bool)) : State ℕ ℕ Bool :=
  (machine ℕ ℕ Bool).after (fun _ _ => True) actions

end AggregatorMachine
end Potimizer

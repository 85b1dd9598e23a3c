import Mathlib.Data.List.Infix
import Mathlib.Tactic

/-! Histories of runs that each start from the state the one before has left. What holds after a
history is decided by a condition on every run where it starts, and what a log holds to which each
run appends, by one on its message. -/
namespace Potimizer
namespace RunHistory

variable {σ ρ : Type} {run : σ → ρ → σ} {ok : σ → ρ → Prop} {s : σ} {runs before : List ρ} {r : ρ}

/-- Every run of the history meets the condition in the state it starts from. -/
def Permitted (run : σ → ρ → σ) (ok : σ → ρ → Prop) (s : σ) (runs : List ρ) : Prop :=
  ∀ before r, before ++ [r] <+: runs → ok (before.foldl run s) r

theorem permitted_nil : Permitted run ok s [] := by
  intro before r hpre
  simp at hpre

theorem permitted_append :
    Permitted run ok s (runs ++ [r]) ↔ Permitted run ok s runs ∧ ok (runs.foldl run s) r := by
  constructor
  · intro h
    exact ⟨fun before r' hpre => h before r' (hpre.trans (List.prefix_append runs [r])),
      h runs r List.prefix_rfl⟩
  · rintro ⟨h,hlast⟩ before r' hpre
    obtain heq | hpre := List.prefix_concat_iff.mp hpre
    · obtain ⟨rfl,hr⟩ := List.append_inj' heq rfl
      obtain rfl := List.singleton_inj.mp hr
      exact hlast
    · exact h before r' hpre

theorem Permitted.of_prefix (h : Permitted run ok s runs) (hpre : before <+: runs) :
    Permitted run ok s before :=
  fun before' r hpre' => h before' r (hpre'.trans hpre)

theorem Permitted.invariant {I : σ → Prop} (h : Permitted run ok s runs) (hs : I s)
    (hstep : ∀ s r, I s → ok s r → I (run s r)) : I (runs.foldl run s) := by
  induction runs using List.reverseRecOn with
  | nil => exact hs
  | append_singleton runs r ih =>
    obtain ⟨hruns,hlast⟩ := permitted_append.mp h
    rw [List.foldl_append]
    exact hstep _ r (ih hruns) hlast

/-- A property that the invariant implies, and that a run breaks if it is not permitted, holds
throughout exactly the permitted histories. -/
theorem throughout_iff {I P : σ → Prop} (hs : I s) (himplies : ∀ s, I s → P s)
    (hstep : ∀ s r, I s → ok s r → I (run s r)) (hbreak : ∀ s r, I s → P (run s r) → ok s r) :
    (∀ before, before <+: runs → P (before.foldl run s)) ↔ Permitted run ok s runs := by
  constructor
  · intro h
    induction runs using List.reverseRecOn with
    | nil => exact permitted_nil
    | append_singleton runs r ih =>
      have hruns := ih fun before hpre => h before (hpre.trans (List.prefix_append runs [r]))
      have hlast := h (runs ++ [r]) List.prefix_rfl
      rw [List.foldl_append] at hlast
      exact permitted_append.mpr ⟨hruns,hbreak _ r (hruns.invariant hs hstep) hlast⟩
  · exact fun h before hpre => himplies _ ((h.of_prefix hpre).invariant hs hstep)

section Breaking

variable {P Broken : σ → Prop}

/-- What a permitted run keeps, another breaks and no run repairs is kept after permitted histories
and broken after the others. -/
theorem kept_or_broken (hs : P s) (hkeep : ∀ s r, P s → ok s r → P (run s r))
    (hbreak : ∀ s r, P s → ¬ ok s r → Broken (run s r))
    (hbroken : ∀ s r, Broken s → Broken (run s r)) :
    Permitted run ok s runs ∧ P (runs.foldl run s) ∨
      ¬ Permitted run ok s runs ∧ Broken (runs.foldl run s) := by
  induction runs using List.reverseRecOn with
  | nil => exact .inl ⟨permitted_nil,hs⟩
  | append_singleton runs r ih =>
    rw [List.foldl_append,permitted_append]
    obtain ⟨hruns,hP⟩ | ⟨hruns,hB⟩ := ih
    · by_cases hlast : ok (runs.foldl run s) r
      · exact .inl ⟨⟨hruns,hlast⟩,hkeep _ r hP hlast⟩
      · exact .inr ⟨fun h => hlast h.2,hbreak _ r hP hlast⟩
    · exact .inr ⟨fun h => hruns h.1,hbroken _ r hB⟩

theorem holds_iff (hs : P s) (hkeep : ∀ s r, P s → ok s r → P (run s r))
    (hbreak : ∀ s r, P s → ¬ ok s r → Broken (run s r))
    (hbroken : ∀ s r, Broken s → Broken (run s r)) (hnot : ∀ s, Broken s → ¬ P s) :
    P (runs.foldl run s) ↔ Permitted run ok s runs := by
  obtain ⟨hruns,hP⟩ | ⟨hruns,hB⟩ := kept_or_broken hs hkeep hbreak hbroken
  · exact iff_of_true hP hruns
  · exact iff_of_false (hnot _ hB) hruns

end Breaking

section Log

variable {β : Type} {L : σ → List β → Prop} {encode : ρ → List β} {sound : ρ → Prop} {limit : ℕ}

theorem flatMap_concat (runs : List ρ) (r : ρ) :
    (runs ++ [r]).flatMap encode = runs.flatMap encode ++ encode r := by
  rw [List.flatMap_append,List.flatMap_singleton]

/-- Runs that append their messages to a log up to a limit: if a run keeps the log exactly if it is
sound, the log is right throughout a history that fits exactly if every run of it is sound. -/
theorem log_iff (hs : L s [])
    (hstep : ∀ s log r, L s log → log.length + (encode r).length ≤ limit →
      (L (run s r) (log ++ encode r) ↔ sound r))
    (hfit : (runs.flatMap encode).length ≤ limit) :
    (∀ done, done <+: runs → L (done.foldl run s) (done.flatMap encode)) ↔
      ∀ r ∈ runs, sound r := by
  induction runs using List.reverseRecOn with
  | nil =>
    refine iff_of_true (fun done hpre => ?_) (by simp)
    obtain rfl := List.prefix_nil.mp hpre
    exact hs
  | append_singleton runs r ih =>
    rw [flatMap_concat,List.length_append] at hfit
    have hruns := ih (by omega)
    constructor
    · intro h
      have hbefore := fun done hpre => h done (List.IsPrefix.trans hpre (List.prefix_append runs [r]))
      have hlast := h (runs ++ [r]) List.prefix_rfl
      rw [List.foldl_append,flatMap_concat] at hlast
      have hr := (hstep _ _ r (hbefore runs List.prefix_rfl) hfit).1 hlast
      exact List.forall_mem_append.mpr ⟨hruns.1 hbefore,List.forall_mem_singleton.mpr hr⟩
    · intro hsound done hpre
      have hbefore := hruns.2 fun r' hmem => hsound r' (List.mem_append_left [r] hmem)
      obtain rfl | hpre := List.prefix_concat_iff.mp hpre
      · rw [List.foldl_append,flatMap_concat]
        exact (hstep _ _ r (hbefore runs List.prefix_rfl) hfit).2 (hsound r (by simp))
      · exact hbefore done hpre

end Log

end RunHistory
end Potimizer

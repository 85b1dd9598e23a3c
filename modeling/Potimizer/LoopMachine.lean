import Mathlib.Tactic

/-! Imperative while loops whose body may fault, leave the enclosing function, or go on. A loop
carries the measure that bounds its iterations, so that running it is a total function, and the
rules below reduce a statement about a run to one about a single pass. -/
namespace Potimizer
namespace LoopMachine

/-- What a pass through the body hands back when it does not fault. -/
inductive Outcome (σ ρ : Type)
  | next (state : σ)
  | exit (result : ρ)

structure Loop (ε σ ρ : Type) where
  guard : σ → Bool
  body : σ → Except ε (Outcome σ ρ)
  measure : σ → ℕ
  decreases : ∀ s t, guard s = true → body s = .ok (.next t) → measure t < measure s

variable {ε σ ρ : Type}

/-- Run until the guard fails, the body exits, or the body faults. -/
def Loop.run (l : Loop ε σ ρ) (s : σ) : Except ε (Outcome σ ρ) :=
  if _hg : l.guard s = true then
    match _hb : l.body s with
    | .error e => .error e
    | .ok (.exit r) => .ok (.exit r)
    | .ok (.next t) => l.run t
  else .ok (.next s)
termination_by l.measure s
decreasing_by exact l.decreases s t _hg _hb

theorem Loop.run_stop (l : Loop ε σ ρ) {s : σ} (hg : l.guard s = false) :
    l.run s = .ok (.next s) := by
  rw [Loop.run,dif_neg (by simp [hg])]

theorem Loop.run_error (l : Loop ε σ ρ) {s : σ} {e : ε} (hg : l.guard s = true)
    (hb : l.body s = .error e) : l.run s = .error e := by
  rw [Loop.run,dif_pos hg]
  split <;> simp_all

theorem Loop.run_exit (l : Loop ε σ ρ) {s : σ} {r : ρ} (hg : l.guard s = true)
    (hb : l.body s = .ok (.exit r)) : l.run s = .ok (.exit r) := by
  rw [Loop.run,dif_pos hg]
  split <;> simp_all

theorem Loop.run_next (l : Loop ε σ ρ) {s t : σ} (hg : l.guard s = true)
    (hb : l.body s = .ok (.next t)) : l.run s = l.run t := by
  rw [Loop.run,dif_pos hg]
  split <;> simp_all

/-- Induction over the passes of a run: a relation between the state at a loop head and the
result of running from it holds when every way of making one pass establishes it. -/
theorem Loop.run_induct (l : Loop ε σ ρ) {P : σ → Except ε (Outcome σ ρ) → Prop}
    (stop : ∀ s, l.guard s = false → P s (.ok (.next s)))
    (error : ∀ s e, l.guard s = true → l.body s = .error e → P s (.error e))
    (exit : ∀ s r, l.guard s = true → l.body s = .ok (.exit r) → P s (.ok (.exit r)))
    (next : ∀ s t, l.guard s = true → l.body s = .ok (.next t) → P t (l.run t) → P s (l.run t))
    (s : σ) : P s (l.run s) := by
  induction hm : l.measure s using Nat.strong_induction_on generalizing s with
  | _ n ih =>
    cases hg : l.guard s with
    | false => rw [l.run_stop hg]; exact stop s hg
    | true =>
      match hb : l.body s with
      | .error e => rw [l.run_error hg hb]; exact error s e hg hb
      | .ok (.exit r) => rw [l.run_exit hg hb]; exact exit s r hg hb
      | .ok (.next t) =>
        rw [l.run_next hg hb]
        exact next s t hg hb (ih _ (hm ▸ l.decreases s t hg hb) t rfl)

/-- Total correctness: an invariant under which no pass faults carries to the end of the run,
where either the guard has failed or the body has left with a result satisfying `Q`. -/
theorem Loop.run_total (l : Loop ε σ ρ) (I : σ → Prop) (Q : ρ → Prop)
    (pass : ∀ s, I s → l.guard s = true →
      (∃ t, l.body s = .ok (.next t) ∧ I t) ∨ ∃ r, l.body s = .ok (.exit r) ∧ Q r)
    (s : σ) (hs : I s) :
    (∃ t, l.run s = .ok (.next t) ∧ I t ∧ l.guard t = false) ∨
      ∃ r, l.run s = .ok (.exit r) ∧ Q r := by
  induction s using l.run_induct with
  | stop s hg => exact .inl ⟨s,rfl,hs,hg⟩
  | error s e hg hb =>
    rcases pass s hs hg with ⟨t,ht,_⟩ | ⟨r,hr,_⟩ <;> simp_all
  | exit s r hg hb =>
    rcases pass s hs hg with ⟨t,ht,_⟩ | ⟨r',hr,hq⟩
    · simp_all
    · exact .inr ⟨r,rfl,by simp_all⟩
  | next s t hg hb ih =>
    apply ih
    rcases pass s hs hg with ⟨t',ht,hi⟩ | ⟨r,hr,_⟩
    · simp_all
    · simp_all

theorem Loop.run_total_of_isEmpty [IsEmpty ρ] (l : Loop ε σ ρ) (I : σ → Prop)
    (pass : ∀ s, I s → l.guard s = true → ∃ t, l.body s = .ok (.next t) ∧ I t)
    (s : σ) (hs : I s) : ∃ t, l.run s = .ok (.next t) ∧ I t ∧ l.guard t = false := by
  rcases l.run_total I (fun _ => False) (fun s hi hg => .inl (pass s hi hg)) s hs with h | ⟨r,_⟩
  · exact h
  · exact isEmptyElim r

/-- The states at the heads of the passes of a run. -/
inductive Loop.Visits (l : Loop ε σ ρ) : σ → σ → Prop
  | head (s) : l.Visits s s
  | next {s t u} (hg : l.guard s = true) (hb : l.body s = .ok (.next t)) (h : l.Visits t u) :
      l.Visits s u

theorem Loop.Visits.invariant {l : Loop ε σ ρ} {I : σ → Prop} {s t : σ} (h : l.Visits s t)
    (pass : ∀ s t, I s → l.guard s = true → l.body s = .ok (.next t) → I t) (hs : I s) : I t := by
  induction h with
  | head s => exact hs
  | next hg hb h ih => exact ih (pass _ _ hs hg hb)

theorem Loop.Visits.concat {l : Loop ε σ ρ} {s t u : σ} (h : l.Visits s t) (hg : l.guard t = true)
    (hb : l.body t = .ok (.next u)) : l.Visits s u := by
  induction h with
  | head s => exact .next hg hb (.head u)
  | next hg' hb' h ih => exact .next hg' hb' (ih hg hb)

theorem Loop.visits_of_run (l : Loop ε σ ρ) {s t : σ} (h : l.run s = .ok (.next t)) :
    l.Visits s t := by
  revert h
  induction s using l.run_induct with
  | stop s hg =>
    intro h
    cases h
    exact .head _
  | error s e hg hb => intro h; cases h
  | exit s r hg hb => intro h; cases h
  | next s t hg hb ih => exact fun h => .next hg hb (ih h)

end LoopMachine
end Potimizer

import Mathlib.Tactic

/-! A monitor that its owner may enter again: free, or held by one thread with the number of its
entries beyond the first. -/
namespace Potimizer
namespace ReentrantMonitor

inductive Monitor (Tid : Type)
  | free
  | held (owner : Tid) (again : ℕ)
  deriving DecidableEq

namespace Monitor

variable {Tid : Type} [DecidableEq Tid] {m m' : Monitor Tid} {t u : Tid}

/-- A thread that cannot enter waits: there is no next state. -/
def enter (t : Tid) : Monitor Tid → Option (Monitor Tid)
  | free => some (held t 0)
  | held owner again => if owner = t then some (held t (again+1)) else none

def exit : Monitor Tid → Monitor Tid
  | free => free
  | held _ 0 => free
  | held owner (again+1) => held owner again

def entries (t : Tid) : Monitor Tid → ℕ
  | free => 0
  | held owner again => if owner = t then again+1 else 0

@[simp] theorem entries_free : (free : Monitor Tid).entries t = 0 := rfl

theorem entries_exclusive (ht : 0 < m.entries t) (hu : 0 < m.entries u) : t = u := by
  cases m with
  | free => simp at ht
  | held owner again =>
    have howner : ∀ v, 0 < (held owner again).entries v → owner = v := by
      intro v hv
      by_contra hne
      simp [entries,hne] at hv
    exact (howner t ht).symm.trans (howner u hu)

theorem entries_enter (h : m.enter t = some m') :
    m'.entries u = m.entries u + if t = u then 1 else 0 := by
  cases m with
  | free =>
    obtain rfl : held t 0 = m' := Option.some.inj h
    simp [entries]
  | held owner again =>
    simp only [enter] at h
    split_ifs at h with howner
    obtain rfl : held t (again+1) = m' := Option.some.inj h
    by_cases htu : t = u <;> simp [entries,howner,htu]

theorem eq_free_of_enter (h : m.enter t = some m') (ht : m.entries t = 0) : m = free := by
  cases m with
  | free => rfl
  | held owner again =>
    simp only [enter] at h
    split_ifs at h with howner
    simp [entries,howner] at ht

theorem entries_exit (h : 0 < m.entries t) :
    m.exit.entries u + (if t = u then 1 else 0) = m.entries u := by
  cases m with
  | free => simp at h
  | held owner again =>
    obtain rfl : owner = t := by
      by_contra hne
      simp [entries,hne] at h
    cases again with
    | zero => simp [exit,entries]
    | succ again => by_cases howner : owner = u <;> simp [exit,entries,howner]

end Monitor

end ReentrantMonitor
end Potimizer

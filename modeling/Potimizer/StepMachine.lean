import Mathlib.Logic.Relation
import Mathlib.Tactic

/-! Transition systems given by a partial step function. Runs are restricted by a condition on the
state and the action, so that an assumption about the environment is a parameter of reachability,
and an invariant is proved from one step. -/
namespace Potimizer
namespace StepMachine

structure Machine (σ α : Type) where
  init : σ
  step : σ → α → Option σ

variable {σ α β : Type}

def Machine.Next (m : Machine σ α) (ok : σ → α → Prop) (s t : σ) : Prop :=
  ∃ a, ok s a ∧ m.step s a = some t

def Machine.Reachable (m : Machine σ α) (ok : σ → α → Prop) (s : σ) : Prop :=
  Relation.ReflTransGen (m.Next ok) m.init s

variable {m : Machine σ α} {ok ok' : σ → α → Prop} {s t : σ} {a : α}

theorem Machine.Reachable.init : m.Reachable ok m.init := .refl

theorem Machine.Reachable.step (h : m.Reachable ok s) (hok : ok s a) (hs : m.step s a = some t) :
    m.Reachable ok t :=
  h.tail ⟨a,hok,hs⟩

/-- What holds at first and is kept by each permitted step from a reachable state holds
throughout. -/
theorem Machine.Reachable.invariant {I : σ → Prop} (h : m.Reachable ok s) (hinit : I m.init)
    (hstep : ∀ s a t, m.Reachable ok s → I s → ok s a → m.step s a = some t → I t) : I s := by
  induction h with
  | refl => exact hinit
  | tail hrun hnext ih =>
    obtain ⟨a,hok,hs⟩ := hnext
    exact hstep _ a _ hrun ih hok hs

def Machine.Reaches (m : Machine σ α) (ok : σ → α → Prop) (s t : σ) : Prop :=
  Relation.ReflTransGen (m.Next ok) s t

theorem Machine.Reachable.trans (h : m.Reachable ok s) (hrun : m.Reaches ok s t) :
    m.Reachable ok t :=
  Relation.ReflTransGen.trans h hrun

theorem Machine.Reaches.invariant {I : σ → Prop} (hrun : m.Reaches ok s t)
    (hok : ∀ s a, ok s a → ok' s a) (h : m.Reachable ok' s) (hs : I s)
    (hstep : ∀ s a t, m.Reachable ok' s → I s → ok s a → m.step s a = some t → I t) : I t := by
  have hboth : m.Reachable ok' t ∧ I t := by
    induction hrun with
    | refl => exact ⟨h,hs⟩
    | tail _ hnext ih =>
      obtain ⟨a,ha,hs⟩ := hnext
      exact ⟨ih.1.step (hok _ a ha) hs,hstep _ a _ ih.1 ih.2 ha hs⟩
  exact hboth.2

theorem Machine.Reachable.mono (h : m.Reachable ok s) (hok : ∀ s a, ok s a → ok' s a) :
    m.Reachable ok' s :=
  h.invariant .init fun s a _ _ ih ha hs => ih.step (hok s a ha) hs

theorem Machine.Reaches.mono (h : m.Reaches ok s t) (hok : ∀ s a, ok s a → ok' s a) :
    m.Reaches ok' s t := by
  have hnext : m.Next ok ≤ m.Next ok' := fun s _ ⟨a,ha,hs⟩ => ⟨a,hok s a ha,hs⟩
  exact Relation.ReflTransGen.mono hnext s t h

/-- Perform a list of actions, checking that each is permitted. -/
def Machine.exec (m : Machine σ α) (ok : σ → α → Prop) [∀ s a, Decidable (ok s a)] (s : σ) :
    List α → Option σ
  | [] => some s
  | a :: actions => if ok s a then (m.step s a).bind fun t => m.exec ok t actions else none

theorem Machine.reaches_of_exec [∀ s a, Decidable (ok s a)] {actions : List α}
    (h : m.exec ok s actions = some t) : m.Reaches ok s t := by
  induction actions generalizing s with
  | nil =>
    obtain rfl : s = t := Option.some.inj h
    exact .refl
  | cons a actions ih =>
    rw [Machine.exec] at h
    split_ifs at h with hok
    obtain ⟨u,hu,hrest⟩ := Option.bind_eq_some_iff.mp h
    exact .head ⟨a,hok,hu⟩ (ih hrest)

theorem Machine.reachable_of_exec [∀ s a, Decidable (ok s a)] {actions : List α}
    (hs : m.Reachable ok s) (h : m.exec ok s actions = some t) : m.Reachable ok t :=
  hs.trans (Machine.reaches_of_exec h)

theorem Machine.exec_mono [∀ s a, Decidable (ok s a)] [∀ s a, Decidable (ok' s a)]
    {actions : List α} (hok : ∀ s a, ok s a → ok' s a) (h : m.exec ok s actions = some t) :
    m.exec ok' s actions = some t := by
  induction actions generalizing s with
  | nil => exact h
  | cons a actions ih =>
    rw [Machine.exec] at h ⊢
    split_ifs at h with ha
    obtain ⟨u,hu,hrest⟩ := Option.bind_eq_some_iff.mp h
    rw [if_pos (hok s a ha),hu]
    exact ih hrest

/-- In a run that is not permitted throughout, some step is the first that is not permitted. -/
theorem Machine.exec_or_leaves (ok : σ → α → Prop) [∀ s a, Decidable (ok s a)]
    [∀ s a, Decidable (ok' s a)] {actions : List α} (h : m.exec ok' s actions = some t) : m.exec ok s actions = some t ∨
      ∃ u v a, m.Reaches ok s u ∧ ¬ ok u a ∧ m.step u a = some v ∧ m.Reaches ok' v t := by
  induction actions generalizing s with
  | nil => exact .inl h
  | cons a actions ih =>
    rw [Machine.exec] at h
    split_ifs at h
    obtain ⟨v,hv,hrest⟩ := Option.bind_eq_some_iff.mp h
    by_cases ha : ok s a
    · obtain hall | ⟨u,w,b,hu,hb,hw,hw'⟩ := ih hrest
      · left
        rw [Machine.exec,if_pos ha,hv]
        exact hall
      · exact .inr ⟨u,w,b,.head ⟨a,ha,hv⟩ hu,hb,hw,hw'⟩
    · exact .inr ⟨s,v,a,.refl,ha,hv,Machine.reaches_of_exec hrest⟩

theorem Machine.exists_reachable [∀ s a, Decidable (ok s a)] (actions : List α) (observe : σ → β)
    {b : β} (h : (m.exec ok m.init actions).map observe = some b) :
    ∃ s, m.Reachable ok s ∧ observe s = b := by
  obtain ⟨s,hs,hb⟩ := Option.map_eq_some_iff.mp h
  exact ⟨s,Machine.reachable_of_exec .init hs,hb⟩

section Computed

variable [∀ s a, Decidable (ok s a)] {actions more : List α}

def Machine.after (m : Machine σ α) (ok : σ → α → Prop) [∀ s a, Decidable (ok s a)]
    (actions : List α) : σ :=
  (m.exec ok m.init actions).getD m.init

theorem Machine.exec_append :
    m.exec ok s (actions ++ more) = (m.exec ok s actions).bind fun t => m.exec ok t more := by
  induction actions generalizing s with
  | nil => rfl
  | cons a actions ih =>
    simp only [List.cons_append,Machine.exec]
    split_ifs
    · simp only [Option.bind_assoc,ih]
    · rfl

theorem Machine.exec_eq_after (h : (m.exec ok m.init actions).isSome) :
    m.exec ok m.init actions = some (m.after ok actions) := by
  obtain ⟨s,hs⟩ := Option.isSome_iff_exists.mp h
  simp [Machine.after,hs]

theorem Machine.reachable_after (h : (m.exec ok m.init actions).isSome) :
    m.Reachable ok (m.after ok actions) :=
  Machine.reachable_of_exec .init (Machine.exec_eq_after h)

theorem Machine.exec_after (h : (m.exec ok m.init (actions ++ more)).isSome) :
    m.exec ok (m.after ok actions) more = some (m.after ok (actions ++ more)) := by
  have hmore := Machine.exec_eq_after h
  rw [Machine.exec_append] at hmore
  obtain ⟨s,hs,hrest⟩ := Option.bind_eq_some_iff.mp hmore
  rw [Machine.exec_eq_after (hs ▸ rfl)] at hs
  exact Option.some.inj hs ▸ hrest

theorem Machine.reaches_after (h : (m.exec ok m.init (actions ++ more)).isSome) :
    m.Reaches ok (m.after ok actions) (m.after ok (actions ++ more)) :=
  Machine.reaches_of_exec (Machine.exec_after h)

theorem Machine.step_after (h : (m.exec ok m.init (actions ++ [a])).isSome) :
    m.step (m.after ok actions) a = some (m.after ok (actions ++ [a])) := by
  have hstep := Machine.exec_after h
  rw [Machine.exec] at hstep
  split_ifs at hstep with hok
  obtain ⟨t,ht,hnil⟩ := Option.bind_eq_some_iff.mp hstep
  rw [ht]
  exact hnil

end Computed

section Accounts

variable {ι : Type} {account : σ → α → ι} {charges : List ι}

/-- A run whose every step is charged to an account; the charges are listed newest first. -/
inductive Machine.Charged (m : Machine σ α) (ok : σ → α → Prop) (account : σ → α → ι) :
    List ι → σ → Prop
  | init : Charged m ok account [] m.init
  | step {l : List ι} {x y : σ} {b : α} (h : Charged m ok account l x) (hok : ok x b)
      (hs : m.step x b = some y) : Charged m ok account (account x b :: l) y

theorem Machine.Charged.reachable (h : m.Charged ok account charges s) : m.Reachable ok s := by
  induction h with
  | init => exact .init
  | step _ hok hs ih => exact ih.step hok hs

theorem Machine.Charged.exec [∀ s a, Decidable (ok s a)] {actions : List α}
    (h : m.Charged ok account charges s) (hexec : m.exec ok s actions = some t) :
    ∃ more, m.Charged ok account more t ∧ more.length = charges.length + actions.length := by
  induction actions generalizing s charges with
  | nil =>
    obtain rfl : s = t := Option.some.inj hexec
    exact ⟨charges,h,rfl⟩
  | cons a actions ih =>
    rw [Machine.exec] at hexec
    split_ifs at hexec with hok
    obtain ⟨u,hu,hrest⟩ := Option.bind_eq_some_iff.mp hexec
    obtain ⟨more,hmore,hlength⟩ := ih (h.step hok hu) hrest
    exact ⟨more,hmore,by simp [hlength]; omega⟩

/-- A run is no longer than the accounts together allow. -/
theorem length_le_of_charges [DecidableEq ι] {accounts : Finset ι} {n : ℕ}
    (haccounts : ∀ i ∈ charges, i ∈ accounts) (hn : ∀ i ∈ accounts, charges.count i ≤ n) :
    charges.length ≤ accounts.card*n := by
  have hsum := Multiset.sum_count_eq_card (m := (charges : Multiset ι)) haccounts
  calc
    charges.length = ∑ i ∈ accounts, charges.count i := by simpa using hsum.symm
    _ ≤ accounts.card*n := by simpa using Finset.sum_le_card_nsmul accounts _ n hn

end Accounts

end StepMachine
end Potimizer

import Mathlib.Tactic

/-! A log with a limit on its length. A message that fits is appended whole; another is refused and
changes nothing. -/
namespace Potimizer

structure BoundedLog (β : Type) (limit : ℕ) where
  content : List β
  fits : content.length ≤ limit

namespace BoundedLog

variable {β : Type} {limit : ℕ} {log : BoundedLog β limit} {message : List β}

def empty (β : Type) (limit : ℕ) : BoundedLog β limit := ⟨[],Nat.zero_le limit⟩

def Accepts (log : BoundedLog β limit) (message : List β) : Prop :=
  log.content.length + message.length ≤ limit

instance (log : BoundedLog β limit) (message : List β) : Decidable (log.Accepts message) :=
  inferInstanceAs (Decidable (_ ≤ _))

def offer (log : BoundedLog β limit) (message : List β) : BoundedLog β limit :=
  if h : log.Accepts message then ⟨log.content ++ message,List.length_append.trans_le h⟩ else log

@[simp] theorem content_empty : (empty β limit).content = [] := rfl

theorem content_offer (h : log.Accepts message) :
    (log.offer message).content = log.content ++ message := by
  rw [offer,dif_pos h]

theorem offer_of_refused (h : ¬ log.Accepts message) : log.offer message = log := dif_neg h

def accepted (log : BoundedLog β limit) : List (List β) → List (List β)
  | [] => []
  | message :: messages =>
    if log.Accepts message then message :: (log.offer message).accepted messages
    else log.accepted messages

/-- The log after any offers is the log before with the accepted messages, each whole and in
order. -/
theorem content_offers (log : BoundedLog β limit) (messages : List (List β)) :
    (messages.foldl offer log).content = log.content ++ (log.accepted messages).flatten := by
  induction messages generalizing log with
  | nil => simp [accepted]
  | cons message messages ih =>
    rw [List.foldl_cons,ih,accepted]
    split_ifs with h
    · rw [content_offer h,List.flatten_cons,List.append_assoc]
    · rw [offer_of_refused h]

section Refinement

variable {σ ρ : Type} {run : σ → ρ → σ} {encode : ρ → List β} {holds : σ → List β → Prop} {s : σ}
  {runs : List ρ}

theorem holds_offers (hs : holds s log.content)
    (hstep : ∀ s (log : BoundedLog β limit), ∀ r ∈ runs, holds s log.content →
      holds (run s r) (log.offer (encode r)).content) :
    holds (runs.foldl run s) ((runs.map encode).foldl offer log).content := by
  induction runs generalizing s log with
  | nil => exact hs
  | cons r runs ih =>
    have hnext := hstep s log r List.mem_cons_self hs
    exact ih hnext fun s log r' hr' => hstep s log r' (List.mem_cons_of_mem r hr')

end Refinement

end BoundedLog
end Potimizer

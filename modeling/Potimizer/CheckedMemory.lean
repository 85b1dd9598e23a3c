import Mathlib.Tactic

/-! Memory accesses that fault instead of leaving their object: reads of an input sequence, block
loads, and a fixed-capacity output buffer written through a moving pointer. A computation that
returns has therefore made no access out of bounds. Sizes are natural numbers: no object is large
enough for an index sum to wrap. -/
namespace Potimizer
namespace CheckedMemory

/-- What ends a computation early: a thrown exception, or an access outside its object. -/
inductive Fault
  | runtimeError (what : String)
  | outOfBounds (index size : ℕ)
  deriving DecidableEq

variable {α : Type} {n : ℕ}

def read (xs : List α) (i : ℕ) : Except Fault α :=
  match xs[i]? with
  | some x => .ok x
  | none => .error (.outOfBounds i xs.length)

/-- Load `n` consecutive elements; the access reaches up to index `i+n-1`. -/
def load (n : ℕ) (xs : List α) (i : ℕ) : Except Fault (Vector α n) :=
  if h : i+n ≤ xs.length then .ok (Vector.ofFn fun j => xs[i+j.val])
  else .error (.outOfBounds (i+n-1) xs.length)

theorem read_ok {xs : List α} {i : ℕ} {x : α} (h : xs[i]? = some x) : read xs i = .ok x := by
  rw [read,h]

theorem load_ok {xs : List α} {i : ℕ} (h : i+n ≤ xs.length) :
    load n xs i = .ok (Vector.ofFn fun j => xs[i+j.val]) := by
  rw [load,dif_pos h]

/-- An array of `n` cells and the offset of the write pointer into it. -/
structure Buffer (α : Type) (n : ℕ) where
  cells : Vector α n
  output : ℕ
  output_le : output ≤ n

namespace Buffer

/-- Store through the pointer and advance it: `*output++ = x`. -/
def put (b : Buffer α n) (x : α) : Except Fault (Buffer α n) :=
  if h : b.output < n then .ok ⟨b.cells.set b.output x,b.output+1,h⟩
  else .error (.outOfBounds b.output n)

def reset (b : Buffer α n) : Buffer α n := ⟨b.cells,0,Nat.zero_le n⟩

/-- What has been written since the last reset. -/
def contents (b : Buffer α n) : List α := b.cells.toList.take b.output

@[simp] theorem reset_contents (b : Buffer α n) : b.reset.contents = [] := by
  simp [reset,contents]

@[simp] theorem contents_length (b : Buffer α n) : b.contents.length = b.output := by
  simp [contents,b.output_le]

theorem put_ok (b : Buffer α n) (x : α) (h : b.contents.length < n) :
    ∃ b', b.put x = .ok b' ∧ b'.contents = b.contents ++ [x] := by
  rw [contents_length] at h
  refine ⟨_,dif_pos h,?_⟩
  simp only [contents,Vector.toList_set]
  rw [List.take_succ_eq_append_getElem (by simpa using h),List.take_set_of_le (le_refl _)]
  simp

def puts (b : Buffer α n) (xs : List α) : Except Fault (Buffer α n) := xs.foldlM put b

@[simp] theorem puts_nil (b : Buffer α n) : b.puts [] = .ok b := rfl

theorem puts_cons (b : Buffer α n) (x : α) (xs : List α) :
    b.puts (x :: xs) = b.put x >>= fun b' => b'.puts xs := rfl

theorem puts_append (b : Buffer α n) (xs ys : List α) :
    b.puts (xs ++ ys) = b.puts xs >>= fun b' => b'.puts ys := by
  simp [puts,List.foldlM_append]

theorem puts_ok (b : Buffer α n) (xs : List α) (h : b.contents.length + xs.length ≤ n) :
    ∃ b', b.puts xs = .ok b' ∧ b'.contents = b.contents ++ xs := by
  induction xs generalizing b with
  | nil => exact ⟨b,rfl,by simp⟩
  | cons x xs ih =>
    rw [List.length_cons] at h
    obtain ⟨b₁,hput,hcontents⟩ := b.put_ok x (by omega)
    obtain ⟨b₂,hputs,hall⟩ := ih b₁ (by rw [hcontents,List.length_append,List.length_singleton]; omega)
    refine ⟨b₂,?_,?_⟩
    · rw [puts_cons,hput]; exact hputs
    · rw [hall,hcontents,List.append_assoc,List.singleton_append]

/-- A loop whose passes each write a known piece writes the pieces one after the other. -/
theorem foldlM_puts {β : Type} (js : List β) (f : Buffer α n → β → Except Fault (Buffer α n))
    (piece : β → List α) (hf : ∀ b, ∀ j ∈ js, f b j = b.puts (piece j)) (b : Buffer α n) :
    js.foldlM f b = b.puts (js.flatMap piece) := by
  induction js generalizing b with
  | nil => rfl
  | cons j js ih =>
    rw [List.foldlM_cons,hf b j (by simp),List.flatMap_cons,puts_append]
    congr 1
    funext b'
    exact ih (fun b j hj => hf b j (by simp [hj])) b'

theorem range_flatMap_getElem? (xs : List α) (i k : ℕ) :
    (List.range k).flatMap (fun j => xs[i+j]?.toList) = (xs.drop i).take k := by
  induction k with
  | zero => simp
  | succ k ih => simp [List.range_succ,List.flatMap_append,ih,List.take_add_one,List.getElem?_drop]

theorem foldlM_segment {β : Type} (xs : List β) (i k : ℕ) (h : i+k ≤ xs.length)
    (f : Buffer α n → ℕ → Except Fault (Buffer α n)) (code : β → List α)
    (hf : ∀ b j x, xs[i+j]? = some x → f b j = b.puts (code x)) (b : Buffer α n) :
    (List.range k).foldlM f b = b.puts (((xs.drop i).take k).flatMap code) := by
  rw [foldlM_puts (List.range k) f (fun j => xs[i+j]?.toList.flatMap code),
    ← range_flatMap_getElem?,List.flatMap_assoc]
  intro b j hj
  have hlt : i+j < xs.length := by
    have := List.mem_range.mp hj
    omega
  have hx : xs[i+j]? = some xs[i+j] := List.getElem?_eq_getElem hlt
  rw [hf b j _ hx,hx]
  simp

end Buffer

end CheckedMemory
end Potimizer

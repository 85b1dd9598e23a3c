import Mathlib.Data.List.Infix

/-! Prefix codes: every symbol has a nonempty word and no word continues another one. Texts are
encoded symbol by symbol, and the encoding keeps and reflects the order of extension. -/
namespace Potimizer

structure PrefixCode (α β : Type*) where
  word : α → List β
  nonempty : ∀ x, word x ≠ []
  eq_of_extends : ∀ {x y}, word x <+: word y → x = y

namespace PrefixCode

variable {α β : Type*} (code : PrefixCode α β) {x y : α} {xs ys : List α} {s t : List β}

theorem word_injective : Function.Injective code.word := fun _ _ h =>
  code.eq_of_extends (h ▸ List.prefix_refl _)

def encode (xs : List α) : List β := xs.flatMap code.word

@[simp] theorem encode_nil : code.encode [] = [] := rfl

@[simp] theorem encode_cons (x : α) (xs : List α) :
    code.encode (x :: xs) = code.word x ++ code.encode xs := rfl

theorem eq_of_append_extends (h : code.word x ++ s <+: code.word y ++ t) : x = y := by
  have hx : code.word x <+: code.word y ++ t := (List.prefix_append _ s).trans h
  obtain hxy | hyx := List.prefix_or_prefix_of_prefix hx (List.prefix_append (code.word y) t)
  · exact code.eq_of_extends hxy
  · exact (code.eq_of_extends hyx).symm

/-- One encoding extends another exactly when the one text extends the other. -/
theorem encode_extends_iff : code.encode xs <+: code.encode ys ↔ xs <+: ys := by
  induction xs generalizing ys with
  | nil => simp
  | cons x xs ih =>
    cases ys with
    | nil =>
      have hne : code.word x ++ code.encode xs ≠ [] := fun h =>
        code.nonempty x (List.append_eq_nil_iff.mp h).1
      simp [hne]
    | cons y ys =>
      constructor
      · intro h
        obtain rfl := code.eq_of_append_extends h
        exact List.cons_prefix_cons.mpr ⟨rfl,ih.mp ((List.prefix_append_right_inj _).mp h)⟩
      · intro h
        obtain ⟨rfl,hrest⟩ := List.cons_prefix_cons.mp h
        exact (List.prefix_append_right_inj _).mpr (ih.mpr hrest)

end PrefixCode
end Potimizer

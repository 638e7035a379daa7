import Mathlib.Algebra.BigOperators.Group.List.Basic

/-!
# Inverting many elements with one inversion

A first pass keeps the products of the elements before each one. From an inverse of the product of all, a second pass
in the other direction gets an inverse of every element. -/

namespace BatchInverse

variable {M : Type*} [CommMonoid M]

/-- The products before each element, from `acc` on, and the product of all. -/
def forward (acc : M) : List M → List M × M
  | [] => ([], acc)
  | x :: l => (acc :: (forward (acc * x) l).1, (forward (acc * x) l).2)

/-- From the last element to the first, each with the product before it. -/
def backward (acc : M) : List (M × M) → List M × M
  | [] => ([], acc)
  | (x, before) :: l => ((backward acc l).2 * before :: (backward acc l).1, (backward acc l).2 * x)

theorem forward_snd (acc : M) (l : List M) : (forward acc l).2 = acc * l.prod := by
  induction l generalizing acc with
  | nil => rw [List.prod_nil, mul_one]; rfl
  | cons x l ih => rw [forward, ih, List.prod_cons, mul_assoc]

theorem backward_spec {acc inv : M} {l : List M} (h : inv * (forward acc l).2 = 1) :
    (backward inv (l.zip (forward acc l).1)).2 * acc = 1 ∧
      List.Forall₂ (fun d x => d * x = 1) (backward inv (l.zip (forward acc l).1)).1 l := by
  induction l generalizing acc with
  | nil => exact ⟨h, .nil⟩
  | cons x l ih =>
    obtain ⟨hacc, hall⟩ := @ih (acc * x) h
    rw [forward, List.zip_cons_cons, backward]
    refine ⟨?_, .cons ?_ hall⟩
    · rw [mul_assoc, mul_comm x acc]
      exact hacc
    · rw [mul_assoc]
      exact hacc

end BatchInverse

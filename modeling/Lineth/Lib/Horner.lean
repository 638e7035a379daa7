import Mathlib.Algebra.BigOperators.Ring.List
import Mathlib.Algebra.Order.BigOperators.Group.List
import Mathlib.Data.List.GetD
import Mathlib.Tactic.Ring
import Mathlib.Tactic.LinearCombination

/-!
# Digits in a base

A list of coefficients, least significant first, at a point; products of two such lists; and carries: a list of
coefficients that sums to zero at `B` is a multiple of `B - x`, and the quotient's coefficients are what is carried
from digit to digit. -/

namespace Horner

open List

variable {R S ι : Type*}

theorem foldl_add [AddCommMonoid R] {β : Type*} (μ : β → R) (P : β → Prop) (step : β → ι → β) (g : ι → R) (is : List ι)
    (h : ∀ b, P b → ∀ i ∈ is, P (step b i) ∧ μ (step b i) = μ b + g i) {b : β} (hb : P b) :
    P (is.foldl step b) ∧ μ (is.foldl step b) = μ b + (is.map g).sum := by
  induction is generalizing b with
  | nil => simpa using hb
  | cons i is ih =>
    obtain ⟨hP, hμ⟩ := h b hb i mem_cons_self
    obtain ⟨hP', hμ'⟩ := ih (fun b hb j hj => h b hb j (mem_cons_of_mem i hj)) hP
    exact ⟨hP', by rw [foldl_cons, hμ', hμ, map_cons, sum_cons, add_assoc]⟩

section Semiring

variable [CommSemiring R] [CommSemiring S]

/-- `l₀ + l₁ x + l₂ x² + …`. -/
def eval (x : R) (l : List R) : R := l.foldr (fun a r => a + x * r) 0

@[simp] theorem eval_nil (x : R) : eval x [] = 0 := rfl

@[simp] theorem eval_cons (x a : R) (l : List R) : eval x (a :: l) = a + x * eval x l := rfl

@[simp] theorem eval_replicate_zero (x : R) (n : Nat) : eval x (replicate n 0) = 0 := by
  induction n with
  | zero => rfl
  | succ n ih => simp [replicate_succ, ih]

variable (f : R →+* S)

theorem eval_map (x : R) (l : List R) : eval (f x) (l.map f) = f (eval x l) := by
  induction l with
  | nil => simp
  | cons a l ih => simp [ih]

theorem eval_eq_sum (x : R) (l : List R) :
    eval x l = ((range l.length).map fun i => l.getD i 0 * x ^ i).sum := by
  induction l with
  | nil => simp
  | cons a l ih =>
    rw [eval_cons, ih, length_cons, range_succ_eq_map, map_cons, sum_cons, map_map,
      ← sum_map_mul_left]
    simp only [getD_cons_zero, pow_zero, mul_one, Function.comp_def, getD_cons_succ, pow_succ', mul_left_comm]

theorem eval_one (l : List R) : eval 1 l = l.sum := by
  induction l with
  | nil => rfl
  | cons a l ih => simp [ih]

theorem eval_modify (x a : R) {l : List R} {k : Nat} (hk : k < l.length) :
    eval x (l.modify k (· + a)) = eval x l + a * x ^ k := by
  induction l generalizing k with
  | nil => simp at hk
  | cons b l ih =>
    cases k with
    | zero => simp only [modify_zero_cons, eval_cons]; ring
    | succ k =>
      rw [modify_succ_cons, eval_cons, ih (by simpa using hk), eval_cons]
      ring

theorem map_getD_range (l : List R) : (range l.length).map (fun i => l.getD i 0) = l := by
  refine ext_getElem (by simp) fun i h₁ h₂ => ?_
  simp [h₂]

/-! ### Schoolbook multiplication -/

/-- One row of the multiplication: add `a` times `r` from place `i` on. -/
def addRow (a : R) (r : List R) (i : Nat) (res : List R) : List R :=
  (range r.length).foldl (fun res j => res.modify (i + j) (· + a * r.getD j 0)) res

def mul (l r : List R) : List R :=
  (range l.length).foldl (fun res i => addRow (l.getD i 0) r i res) (replicate (l.length + r.length - 1) 0)

theorem addRow_spec (x a : R) {r res : List R} {i n : Nat} (hres : res.length = n) (hn : i + r.length ≤ n) :
    (addRow a r i res).length = n ∧ eval x (addRow a r i res) = eval x res + a * x ^ i * eval x r := by
  have h := foldl_add (eval x) (fun res => res.length = n) (fun res j => res.modify (i + j) (· + a * r.getD j 0))
    (fun j => a * x ^ i * (r.getD j 0 * x ^ j)) (range r.length) ?_ hres
  · rwa [sum_map_mul_left, ← eval_eq_sum] at h
  · intro res hres j hj
    rw [mem_range] at hj
    refine ⟨by rw [length_modify, hres], ?_⟩
    rw [eval_modify x _ (by omega)]
    ring

theorem mul_spec (x : R) (l r : List R) :
    (mul l r).length = l.length + r.length - 1 ∧ eval x (mul l r) = eval x l * eval x r := by
  have h := foldl_add (eval x) (fun res => res.length = l.length + r.length - 1)
    (fun res i => addRow (l.getD i 0) r i res) (fun i => l.getD i 0 * x ^ i * eval x r) (range l.length) ?_
    (length_replicate (a := 0))
  · rwa [sum_map_mul_right, ← eval_eq_sum, eval_replicate_zero, zero_add] at h
  · intro res hres i hi
    rw [mem_range] at hi
    exact addRow_spec x _ hres (by omega)

theorem map_modify_add (res : List R) (k : Nat) (a : R) :
    (res.modify k (· + a)).map f = (res.map f).modify k (· + f a) := by
  induction res generalizing k with
  | nil => simp
  | cons b res ih => cases k <;> simp [ih]

theorem getD_map (l : List R) (i : Nat) : (l.map f).getD i 0 = f (l.getD i 0) := by
  rw [← map_zero f, List.getD_map]

theorem addRow_map (a : R) (r : List R) (i : Nat) (res : List R) :
    addRow (f a) (r.map f) i (res.map f) = (addRow a r i res).map f := by
  rw [addRow, addRow, length_map]
  refine foldl_hom (map f) fun res j => ?_
  rw [map_modify_add, getD_map, map_mul]

theorem mul_map (l r : List R) : mul (l.map f) (r.map f) = (mul l r).map f := by
  rw [mul, mul, length_map, length_map, ← map_zero f, ← map_replicate]
  exact foldl_hom (map f) fun res i => by rw [map_zero, getD_map, addRow_map]

end Semiring

/-! ### Carries -/

section Ring

variable [CommRing R] [CommRing S]

/-- `cs` carries `c` through the digits `ds`: each sum is a multiple of `B`, which is carried on, and nothing is left.
-/
inductive Carries (B : R) : R → List R → List R → Prop
  | nil : Carries B 0 [] []
  | cons {c d c' : R} {ds cs : List R} (h : c + d = B * c') (hs : Carries B c' ds cs) : Carries B c (d :: ds) (c' :: cs)

variable {ds cs : List R}

theorem Carries.eval_eq {B c : R} (h : Carries B c ds cs) (x : R) :
    c + eval x ds = eval x cs * (B - x) := by
  induction h with
  | nil => simp
  | cons h _ ih =>
    rw [eval_cons, eval_cons]
    linear_combination h + x * ih

theorem Carries.map (f : R →+* S) {B c : R} (h : Carries B c ds cs) :
    Carries (f B) (f c) (ds.map f) (cs.map f) := by
  induction h with
  | nil => rw [map_zero]; exact .nil
  | cons h _ ih =>
    refine .cons ?_ ih
    rw [← map_add, h, map_mul]

theorem Carries.length_eq {B c : R} (h : Carries B c ds cs) : cs.length = ds.length := by
  induction h with
  | nil => rfl
  | cons _ _ ih => rw [length_cons, length_cons, ih]

end Ring

theorem eval_map_sub [CommRing R] (x : R) (f g : ι → R) (is : List ι) :
    eval x (is.map fun i => f i - g i) = eval x (is.map f) - eval x (is.map g) := by
  induction is with
  | nil => simp
  | cons i is ih => simp only [map_cons, eval_cons, ih]; ring

/-- In a field there are carries for every list of digits that is 0 at `B`. -/
theorem exists_carries [Field R] {B : R} (hB : B ≠ 0) {c : R} {ds : List R} (h : c + eval B ds = 0) :
    ∃ cs, Carries B c ds cs := by
  induction ds generalizing c with
  | nil =>
    rw [eval_nil, add_zero] at h
    subst h
    exact ⟨[], .nil⟩
  | cons d ds ih =>
    have hc : c + d = B * ((c + d) / B) := by rw [mul_div_cancel₀ _ hB]
    have hrest : (c + d) / B + eval B ds = 0 := by
      refine mul_left_cancel₀ hB ?_
      rw [eval_cons] at h
      linear_combination h - hc
    obtain ⟨cs, hcs⟩ := ih hrest
    exact ⟨_ :: cs, .cons hc hcs⟩

end Horner

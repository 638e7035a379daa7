import Mathlib.Data.List.Induction
import Mathlib.Data.List.GetD

/-!
# Straight-line programs

A list of instructions, each of which computes one value from those of instructions before it. -/

namespace Straightline

open List

variable {ι V : Type*} (step : ι → (Nat → V) → V) (d : V)

/-- The values of all instructions, in order; `d` is what an instruction reads that is not there. -/
def values (l : List ι) : List V := l.foldl (fun vs i => vs ++ [step i fun a => vs.getD a d]) []

def value (l : List ι) (k : Nat) : V := (values step d l).getD k d

variable {step d} {l : List ι}

theorem values_append_singleton (l : List ι) (i : ι) :
    values step d (l ++ [i]) = values step d l ++ [step i (value step d l)] := by
  rw [values, foldl_append]
  rfl

@[simp] theorem length_values (l : List ι) : (values step d l).length = l.length := by
  induction l using reverseRecOn with
  | nil => rfl
  | append_singleton l i ih => rw [values_append_singleton, length_append, length_append, ih]; rfl

theorem value_append_singleton {i : ι} {k : Nat} (hk : k < l.length) :
    value step d (l ++ [i]) k = value step d l k := by
  rw [value, values_append_singleton, getD_append _ _ _ _ (by simpa using hk)]
  rfl

theorem value_append {l' : List ι} {k : Nat} (hk : k < l.length) : value step d (l ++ l') k = value step d l k := by
  induction l' using reverseRecOn with
  | nil => rw [append_nil]
  | append_singleton l' i ih =>
    rw [← List.append_assoc, value_append_singleton (by rw [length_append]; omega), ih]

theorem value_append_self (l : List ι) (i : ι) : value step d (l ++ [i]) l.length = step i (value step d l) := by
  rw [value, values_append_singleton, getD_append_right _ _ _ _ (by simp), length_values, Nat.sub_self]
  rfl

theorem value_eq {k : Nat} {i : ι} (hi : l[k]? = some i)
    (hreads : ∀ f g : Nat → V, (∀ a < k, f a = g a) → step i f = step i g) :
    value step d l k = step i (value step d l) := by
  obtain ⟨hk, rfl⟩ := List.getElem?_eq_some_iff.1 hi
  have hsplit : l = l.take k ++ [l[k]] ++ l.drop (k + 1) := by
    rw [List.append_assoc, List.singleton_append, ← List.drop_eq_getElem_cons hk, List.take_append_drop]
  have htake : (l.take k).length = k := by
    rw [length_take]
    omega
  have hbelow : ∀ a < k, value step d (l.take k) a = value step d l a := by
    intro a ha
    conv_rhs => rw [hsplit, List.append_assoc, value_append (by omega)]
  calc value step d l k = value step d (l.take k ++ [l[k]]) k := by
        conv_lhs => rw [hsplit]
        rw [value_append (by rw [length_append, htake]; exact Nat.lt_succ_self k)]
    _ = step l[k] (value step d (l.take k)) := by
        have h := @value_append_self _ _ step d (l.take k) l[k]
        rwa [htake] at h
    _ = step l[k] (value step d l) := hreads _ _ hbelow

end Straightline

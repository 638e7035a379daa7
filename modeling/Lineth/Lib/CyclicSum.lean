import Mathlib.Algebra.BigOperators.Intervals
import Mathlib.Tactic.Abel

/-!
# Sums around a cycle

A cycle of values can rise by `v i - c` at every step exactly if `c` is the average of the `v i`; the running sums of
the steps are then such values. -/

namespace CyclicSum

open Finset

variable {K : Type} [AddCommGroup K] {n : Nat}

def prev (n i : Nat) : Nat := (i + (n - 1)) % n

theorem prev_zero (hn : 0 < n) : prev n 0 = n - 1 := by
  rw [prev, Nat.zero_add, Nat.mod_eq_of_lt (by omega)]

theorem prev_succ {i : Nat} (hi : i + 1 < n) : prev n (i + 1) = i := by
  rw [prev, show i + 1 + (n - 1) = i + n by omega, Nat.add_mod_right, Nat.mod_eq_of_lt (by omega)]

theorem sum_prev (hn : 0 < n) (z : Nat → K) : ∑ i ∈ range n, z (prev n i) = ∑ i ∈ range n, z i := by
  obtain ⟨n, rfl⟩ : ∃ k, n = k + 1 := ⟨n - 1, by omega⟩
  rw [sum_range_succ', sum_range_succ, prev_zero hn]
  refine congrArg₂ (· + ·) (sum_congr rfl fun i hi => ?_) rfl
  rw [prev_succ (Nat.succ_lt_succ (mem_range.1 hi))]

/-- The values rise by `v i - c` at each step of the cycle. -/
def Rises (n : Nat) (v : Nat → K) (c : K) (z : Nat → K) : Prop := ∀ i < n, z i - z (prev n i) = v i - c

theorem Rises.average {v : Nat → K} {c : K} {z : Nat → K} (hn : 0 < n) (h : Rises n v c z) :
    n • c = ∑ i ∈ range n, v i := by
  have hsum : ∑ i ∈ range n, (z i - z (prev n i)) = ∑ i ∈ range n, (v i - c) :=
    sum_congr rfl fun i hi => h i (mem_range.1 hi)
  rw [sum_sub_distrib, sum_prev hn, sub_self, sum_sub_distrib, sum_const, card_range] at hsum
  exact (sub_eq_zero.1 hsum.symm).symm

theorem rises_running {v : Nat → K} {c : K} (h : n • c = ∑ i ∈ range n, v i) {z : Nat → K}
    (hz : ∀ i < n, z i = ∑ k ∈ range (i + 1), v k - (i + 1) • c) : Rises n v c z := by
  intro i hi
  cases i with
  | zero =>
    -- the running sum is back at zero on the last position
    have hlast : z (n - 1) = 0 := by
      rw [hz (n - 1) (by omega), Nat.sub_add_cancel (by omega), ← h, sub_self]
    rw [prev_zero hi, hlast, hz 0 hi, sum_range_one, zero_add, one_nsmul, sub_zero]
  | succ i =>
    rw [prev_succ hi, hz _ hi, hz i (by omega), sum_range_succ, succ_nsmul _ (i + 1)]
    abel

theorem exists_rises_iff (hn : 0 < n) (v : Nat → K) (c : K) :
    (∃ z, Rises n v c z) ↔ n • c = ∑ i ∈ range n, v i :=
  ⟨fun ⟨_, hz⟩ => hz.average hn, fun h => ⟨_, rises_running h fun _ _ => rfl⟩⟩

end CyclicSum

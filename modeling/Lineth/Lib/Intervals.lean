import Mathlib.Data.List.Range

/-!
# Consecutive intervals

`Tiles lo hi n is m`: the intervals `is` are non-empty, the first starts right after `n`, each next one right after
the previous one, and the last ends at `m`. -/

namespace Intervals

open List

variable {I : Type*} {lo hi : I → Nat}

def Tiles (lo hi : I → Nat) : Nat → List I → Nat → Prop
  | n, [], m => n = m
  | n, i :: is, m => lo i = n + 1 ∧ lo i ≤ hi i ∧ Tiles lo hi (hi i) is m

def points (lo hi : I → Nat) (i : I) : List Nat := range' (lo i) (hi i + 1 - lo i)

variable {n m : Nat}

@[simp]
theorem tiles_nil : Tiles lo hi n [] m ↔ n = m := Iff.rfl

theorem tiles_append {is js : List I} :
    Tiles lo hi n (is ++ js) m ↔ ∃ k, Tiles lo hi n is k ∧ Tiles lo hi k js m := by
  induction is generalizing n with
  | nil => simp [Tiles]
  | cons i is ih => simp only [cons_append, Tiles, ih]; grind

variable {is : List I}

theorem tiles_concat {i : I} :
    Tiles lo hi n (is ++ [i]) m ↔ Tiles lo hi n is (lo i - 1) ∧ 0 < lo i ∧ lo i ≤ hi i ∧ hi i = m := by
  rw [tiles_append]
  constructor
  · rintro ⟨k, h, hk, hle, hm⟩
    exact ⟨by rwa [hk], by omega, hle, hm⟩
  · rintro ⟨h, hpos, hle, hm⟩
    exact ⟨_, h, by omega, hle, hm⟩

theorem Tiles.le (h : Tiles lo hi n is m) : n ≤ m := by
  induction is generalizing n with
  | nil => exact le_of_eq h
  | cons i is ih =>
    obtain ⟨hlo, hle, h⟩ := h
    have := ih h
    omega

theorem Tiles.unique {n m m' : Nat} (h : Tiles lo hi n is m) (h' : Tiles lo hi n is m') : m = m' := by
  induction is generalizing n with
  | nil => exact (tiles_nil.mp h).symm.trans (tiles_nil.mp h')
  | cons i is ih => exact ih h.2.2 h'.2.2

theorem Tiles.mem_le (h : Tiles lo hi n is m) {i : I} (hi' : i ∈ is) :
    n < lo i ∧ lo i ≤ hi i ∧ hi i ≤ m := by
  induction is generalizing n with
  | nil => simp at hi'
  | cons j is ih =>
    obtain ⟨hlo, hle, h⟩ := h
    have := h.le
    rcases mem_cons.mp hi' with rfl | hi'
    · omega
    · have := ih h hi'
      omega

theorem Tiles.flatMap_points (h : Tiles lo hi n is m) :
    is.flatMap (points lo hi) = range' (n + 1) (m - n) := by
  induction is generalizing n with
  | nil => rw [tiles_nil.mp h]; simp
  | cons i is ih =>
    obtain ⟨hlo, hle, h⟩ := h
    have := h.le
    rw [flatMap_cons, ih h, points, hlo, show hi i + 1 = n + 1 + (hi i + 1 - (n + 1)) by omega,
      show m - n = (n + 1 + (hi i + 1 - (n + 1)) - (n + 1)) + (m - hi i) by omega, ← range'_append_1]
    congr 2
    omega

end Intervals

import Mathlib.Data.List.Range

/-!
# Ranges cut into pieces

Loops over a range are split into contiguous pieces: strides of one length, or one piece for each of several workers.
Going through the pieces in order visits the range in order. -/

namespace Tiling

open List

inductive Tiles : Nat → Nat → List (Nat × Nat) → Prop
  | nil (a : Nat) : Tiles a a []
  | cons {a b c : Nat} {ps : List (Nat × Nat)} (hab : a ≤ b) (h : Tiles b c ps) : Tiles a c ((a, b) :: ps)

def members (p : Nat × Nat) : List Nat := range' p.1 (p.2 - p.1)

theorem mem_members {p : Nat × Nat} {c : Nat} : c ∈ members p ↔ p.1 ≤ c ∧ c < p.2 := by
  rw [members, mem_range'_1]
  omega

variable {ps : List (Nat × Nat)} {a b : Nat}

theorem Tiles.le (h : Tiles a b ps) : a ≤ b := by
  induction h with
  | nil a => exact Nat.le_refl a
  | cons hab _ ih => exact hab.trans ih

theorem Tiles.mem_bounds (h : Tiles a b ps) {p : Nat × Nat} (hp : p ∈ ps) :
    a ≤ p.1 ∧ p.1 ≤ p.2 ∧ p.2 ≤ b := by
  induction h with
  | nil a => cases hp
  | cons hab hrest ih =>
    rcases mem_cons.1 hp with rfl | hp
    · exact ⟨Nat.le_refl _, hab, hrest.le⟩
    · obtain ⟨h1, h2, h3⟩ := ih hp
      exact ⟨hab.trans h1, h2, h3⟩

theorem Tiles.pairwise (h : Tiles a b ps) : ps.Pairwise fun p q => p.2 ≤ q.1 := by
  induction h with
  | nil a => exact .nil
  | cons _ hrest ih => exact pairwise_cons.2 ⟨fun q hq => (hrest.mem_bounds hq).1, ih⟩

theorem Tiles.exists_piece (h : Tiles a b ps) {i : Nat} (hai : a ≤ i) (hib : i < b) :
    ∃ p ∈ ps, p.1 ≤ i ∧ i < p.2 := by
  induction h with
  | nil a => omega
  | @cons a b c ps hab hrest ih =>
    by_cases hi : i < b
    · exact ⟨(a, b), mem_cons_self, hai, hi⟩
    · obtain ⟨p, hp, hpi⟩ := ih (Nat.le_of_not_lt hi) hib
      exact ⟨p, mem_cons_of_mem _ hp, hpi⟩

/-- `tasks` pieces of `per` members from `start` on, of which the first `extra` have one more. -/
def shares (per : Nat) : Nat → Nat → Nat → List (Nat × Nat)
  | 0, _, _ => []
  | tasks + 1, extra, start =>
    if extra > 0 then (start, start + per + 1) :: shares per tasks (extra - 1) (start + per + 1)
    else (start, start + per) :: shares per tasks 0 (start + per)

theorem tiles_shares (per tasks : Nat) {extra : Nat} (start : Nat) (h : extra ≤ tasks) :
    Tiles start (start + tasks * per + extra) (shares per tasks extra start) := by
  induction tasks generalizing extra start with
  | zero =>
    have : extra = 0 := by omega
    subst this
    rw [Nat.zero_mul]
    exact .nil start
  | succ tasks ih =>
    rw [shares, Nat.succ_mul]
    by_cases hextra : extra > 0
    · rw [if_pos hextra]
      have := ih (start + per + 1) (show extra - 1 ≤ tasks by omega)
      rw [show start + per + 1 + tasks * per + (extra - 1) = start + (tasks * per + per) + extra by omega] at this
      exact .cons (by omega) this
    · rw [if_neg hextra]
      have := ih (start + per) (Nat.zero_le tasks)
      rw [show start + per + tasks * per + 0 = start + (tasks * per + per) + extra by omega] at this
      exact .cons (by omega) this

/-- The range up to `n` shared out among workers: with more workers than members, each member is a piece. -/
def shareOut (n workers : Nat) : List (Nat × Nat) :=
  let tasks := max 1 workers
  if tasks = 1 then [(0, n)]
  else if n / tasks < 1 then shares 1 n 0 0
  else shares (n / tasks) tasks (n - tasks * (n / tasks)) 0

theorem tiles_shareOut (n workers : Nat) : Tiles 0 n (shareOut n workers) := by
  unfold shareOut
  dsimp only
  by_cases hone : max 1 workers = 1
  · rw [if_pos hone]
    exact .cons (Nat.zero_le n) (.nil n)
  · rw [if_neg hone]
    by_cases hper : n / max 1 workers < 1
    · rw [if_pos hper]
      have := tiles_shares 1 n 0 (Nat.zero_le n)
      rwa [Nat.mul_one, Nat.zero_add, Nat.add_zero] at this
    · rw [if_neg hper]
      have hdiv := Nat.div_add_mod n (max 1 workers)
      have hmod := Nat.mod_lt n (show 0 < max 1 workers by omega)
      have := tiles_shares (n / max 1 workers) (max 1 workers) 0
        (show n - max 1 workers * (n / max 1 workers) ≤ max 1 workers by omega)
      rwa [show 0 + max 1 workers * (n / max 1 workers) + (n - max 1 workers *
        (n / max 1 workers)) = n by omega] at this

end Tiling

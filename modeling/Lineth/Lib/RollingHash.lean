import Mathlib.Data.List.Basic
import Mathlib.Data.List.Induction
import Mathlib.Data.Set.Function

/-!
# Rolling hashes

A rolling hash is the left fold of a hash over the items in order of arrival. If the hash has no collision among the
pairs (`inputs`) hashed for two lists of the same length, equal rolling hashes mean equal lists. -/

namespace RollingHash

open List

variable {H M : Type*} {f : H → M → H} {z : H}

/-- The pairs hashed when folding `f` over a list from `z`. -/
def inputs (f : H → M → H) (z : H) : List M → List (H × M)
  | [] => []
  | m :: ms => (z, m) :: inputs f (f z m) ms

theorem inputs_append (us vs : List M) : inputs f z (us ++ vs) = inputs f z us ++ inputs f (us.foldl f z) vs := by
  induction us generalizing z with
  | nil => rfl
  | cons u us ih => simp [inputs, ih]

theorem foldl_injOn_start {Q : Set (H × M)} (hQ : Set.InjOn (fun p => f p.1 p.2) Q) {z z' : H} {us vs : List M}
    (hu : ∀ p ∈ inputs f z us, p ∈ Q) (hv : ∀ p ∈ inputs f z' vs, p ∈ Q) (hlen : us.length = vs.length)
    (h : us.foldl f z = vs.foldl f z') : z = z' ∧ us = vs := by
  -- from the last item: equal results give equal last pairs, hence equal items and equal prefixes
  induction us using reverseRecOn generalizing vs with
  | nil =>
    rw [eq_nil_of_length_eq_zero hlen.symm] at h ⊢
    exact ⟨h, rfl⟩
  | append_singleton us u ih =>
    rcases eq_nil_or_concat' vs with rfl | ⟨vs, v, rfl⟩
    · simp at hlen
    simp only [inputs_append, inputs, mem_append, mem_singleton] at hu hv
    rw [foldl_concat, foldl_concat] at h
    have hlast : (us.foldl f z, u) = (vs.foldl f z', v) := hQ (hu _ (.inr rfl)) (hv _ (.inr rfl)) h
    rw [Prod.mk.injEq] at hlast
    obtain ⟨hz, huv⟩ := ih (fun p hp => hu p (.inl hp)) (fun p hp => hv p (.inl hp)) (by simpa using hlen) hlast.1
    exact ⟨hz, by rw [huv, hlast.2]⟩

end RollingHash

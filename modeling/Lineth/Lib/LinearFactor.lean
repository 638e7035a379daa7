import Mathlib.Algebra.MvPolynomial.Monad
import Mathlib.RingTheory.MvPolynomial.Basic
import Mathlib.RingTheory.UniqueFactorizationDomain.Basic
import Mathlib.RingTheory.SimpleRing.Principal

/-!
# Polynomials that are linear in one of some variables

Some of the variables are marked. A linear factor is `X i + c`, where `i` is marked and `c` has no marked variable. It
divides exactly what vanishes when `X i` is replaced by `-c`, so it is prime, and a product of linear factors
determines them. -/

namespace Lineth

open MvPolynomial

variable {σ R : Type} [DecidableEq σ] [CommRing R]

/-- The polynomial with `e` in the place of the variable `i`. -/
noncomputable def replaceVar (i : σ) (e : MvPolynomial σ R) : MvPolynomial σ R →ₐ[R] MvPolynomial σ R :=
  aeval (Function.update X i e)

@[simp] theorem replaceVar_X_self (i : σ) (e : MvPolynomial σ R) : replaceVar i e (X i) = e := by simp [replaceVar]

theorem replaceVar_X_of_ne {i j : σ} (h : j ≠ i) (e : MvPolynomial σ R) :
    replaceVar i e (X j) = X j := by simp [replaceVar, h]

theorem dvd_sub_replaceVar (i : σ) (e f : MvPolynomial σ R) : X i - e ∣ f - replaceVar i e f := by
  induction f using MvPolynomial.induction_on with
  | C a => simp [replaceVar]
  | add p q hp hq =>
    rw [map_add, add_sub_add_comm]
    exact dvd_add hp hq
  | mul_X p j hp =>
    have hX : X i - e ∣ X j - replaceVar i e (X j) := by
      by_cases h : j = i
      · rw [h, replaceVar_X_self]
      · simp [replaceVar_X_of_ne h]
    have := dvd_add (hp.mul_right (X j)) (hX.mul_left (replaceVar i e p))
    rwa [sub_mul, mul_sub, sub_add_sub_cancel, ← map_mul] at this

/-- The polynomial does not have the variable `i`. -/
def AvoidsVar (i : σ) (f : MvPolynomial σ R) : Prop := ∀ e, replaceVar i e f = f

theorem avoidsVar_C (i : σ) (r : R) : AvoidsVar i (C r : MvPolynomial σ R) := fun e => by simp [replaceVar]

/-- `X lead + tail`, where the variable is marked and the tail has no marked variable. -/
@[ext] structure LinearFactor (R : Type) [CommRing R] (marked : σ → Prop) where
  lead : σ
  tail : MvPolynomial σ R
  lead_marked : marked lead
  tail_avoids : ∀ i, marked i → AvoidsVar i tail

namespace LinearFactor

variable {marked : σ → Prop} (u v : LinearFactor R marked)

noncomputable def poly : MvPolynomial σ R := X u.lead + u.tail

theorem dvd_iff (f : MvPolynomial σ R) : u.poly ∣ f ↔ replaceVar u.lead (-u.tail) f = 0 := by
  have hsub := dvd_sub_replaceVar u.lead (-u.tail) f
  rw [sub_neg_eq_add] at hsub
  constructor
  · rintro ⟨g, rfl⟩
    rw [map_mul, poly, map_add, replaceVar_X_self, u.tail_avoids _ u.lead_marked, neg_add_cancel, zero_mul]
  · intro h
    rwa [h, sub_zero] at hsub

theorem not_dvd_C {r : R} (hr : r ≠ 0) : ¬ u.poly ∣ C r := by
  rw [dvd_iff, avoidsVar_C]
  exact fun h => hr (C_eq_zero.1 h)

variable [IsDomain R]

theorem eq_of_dvd (h : u.poly ∣ v.poly) : u = v := by
  rw [dvd_iff, poly, map_add, v.tail_avoids _ u.lead_marked] at h
  by_cases hlead : v.lead = u.lead
  · rw [hlead, replaceVar_X_self, neg_add_eq_zero] at h
    exact LinearFactor.ext hlead.symm h
  · rw [replaceVar_X_of_ne hlead] at h
    -- the other variable can take a value at which its factor is one
    have hone := congrArg (replaceVar v.lead (1 - v.tail)) h
    rw [map_add, replaceVar_X_self, v.tail_avoids _ v.lead_marked, sub_add_cancel, map_zero] at hone
    exact absurd hone one_ne_zero

theorem poly_ne_zero : u.poly ≠ 0 := by
  intro h
  have hone := congrArg (replaceVar u.lead (1 - u.tail)) h
  rw [poly, map_add, replaceVar_X_self, u.tail_avoids _ u.lead_marked, sub_add_cancel, map_zero] at hone
  exact absurd hone one_ne_zero

theorem prime : Prime u.poly := by
  refine ⟨u.poly_ne_zero, fun hunit => ?_, fun f g h => ?_⟩
  · exact u.not_dvd_C one_ne_zero hunit.dvd
  · rw [dvd_iff, map_mul, mul_eq_zero] at h
    rw [dvd_iff, dvd_iff]
    exact h

theorem prod_inj {s t : Multiset (LinearFactor R marked)} : (s.map poly).prod = (t.map poly).prod ↔ s = t := by
  refine ⟨fun h => ?_, fun h => h ▸ rfl⟩
  have hprime (s : Multiset (LinearFactor R marked)) : ∀ p ∈ s.map poly, Prime p := by
    intro p hp
    obtain ⟨u, -, rfl⟩ := Multiset.mem_map.1 hp
    exact u.prime
  have hrel := prime_factors_unique (hprime s) (hprime t) (Associated.of_eq h)
  rw [Multiset.rel_map] at hrel
  exact Multiset.rel_eq.1 (hrel.mono fun u _ v _ huv => eq_of_dvd u v huv.dvd)

end LinearFactor

end Lineth

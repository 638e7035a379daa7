import Mathlib.Algebra.BigOperators.Field
import Mathlib.Algebra.BigOperators.Intervals
import Mathlib.Algebra.BigOperators.GroupWithZero.Action
import Mathlib.Tactic.FieldSimp
import Mathlib.Tactic.Ring

/-!
# Running products

A column `z` that starts at `num 0 / den 0` and is multiplied by `num i / den i` at every following row ends with the
product of all the quotients. Where the step to some rows is left unchecked, the last row is still forced if a zero
numerator comes after every such row, and can be anything otherwise. -/

namespace Lineth

open List Nat

variable {K : Type} [Field K]

structure RunningProduct (K : Type) [Field K] where
  rows : Nat
  num : Nat → K
  den : Nat → K
  /-- The step from the row before to this row is checked. -/
  checked : Nat → Prop
  rows_pos : 0 < rows

namespace RunningProduct

variable (r : RunningProduct K)

structure Solves (z : Nat → K) : Prop where
  first : z 0 * r.den 0 = r.num 0
  step : ∀ i, i + 1 < r.rows → r.checked (i + 1) → z (i + 1) * r.den (i + 1) = z i * r.num (i + 1)

def Defined : Prop := ∀ i < r.rows, r.den i ≠ 0

def Ends (v : K) : Prop := ∃ z, r.Solves z ∧ z (r.rows - 1) = v

def partialProduct (k : Nat) : K := ∏ i ∈ Finset.range k, r.num i / r.den i

def total : K := r.partialProduct r.rows

/-- A zero numerator follows every unchecked row. -/
def Forced : Prop := ∀ i, 0 < i → i < r.rows → ¬ r.checked i → ∃ j, i < j ∧ j < r.rows ∧ r.num j = 0

theorem partialProduct_succ (k : Nat) : r.partialProduct (k + 1) = r.partialProduct k * (r.num k / r.den k) :=
  Finset.prod_range_succ _ _

theorem partialProduct_eq_zero {j k : Nat} (hj : j < k) (h : r.num j = 0) : r.partialProduct k = 0 :=
  Finset.prod_eq_zero (Finset.mem_range.2 hj) (by rw [h, zero_div])

section

variable {r} (hd : r.Defined)

include hd

theorem Defined.solves_partialProduct : r.Solves fun k => r.partialProduct (k + 1) where
  first := by
    simp [partialProduct, div_mul_cancel₀ _ (hd 0 r.rows_pos)]
  step i hi _ := by
    rw [partialProduct_succ, mul_assoc, div_mul_cancel₀ _ (hd _ hi)]

theorem Defined.ends_total : r.Ends r.total :=
  ⟨_, hd.solves_partialProduct, by rw [Nat.sub_add_cancel r.rows_pos]; rfl⟩

/-- Up to a row, a solution is the product of the rows so far, unless a zero numerator is still to come. -/
theorem Defined.eq_or_zero {z : Nat → K} (hz : r.Solves z) (hr : r.Forced) {k : Nat} (hk : k < r.rows) :
    z k = r.partialProduct (k + 1) ∨ ∃ j, k < j ∧ j < r.rows ∧ r.num j = 0 := by
  induction k with
  | zero =>
    left
    rw [partialProduct_succ, partialProduct, Finset.range_zero, Finset.prod_empty, one_mul, eq_div_iff (hd 0 hk)]
    exact hz.first
  | succ k ih =>
    by_cases hc : r.checked (k + 1)
    · have hden := hd _ hk
      have hstep := hz.step k hk hc
      rcases ih (lt_of_succ_lt hk) with heq | ⟨j, hkj, hj, hzero⟩
      · left
        rw [partialProduct_succ, ← heq, ← mul_div_assoc, eq_div_iff hden, hstep]
      · rcases eq_or_lt_of_le (succ_le_of_lt hkj) with rfl | hlt
        · left
          rw [r.partialProduct_eq_zero (lt_succ_self _) hzero]
          rw [hzero, mul_zero] at hstep
          exact (mul_eq_zero.1 hstep).resolve_right hden
        · exact .inr ⟨j, hlt, hj, hzero⟩
    · exact .inr (hr (k + 1) k.succ_pos hk hc)

theorem Defined.last_eq_total {z : Nat → K} (hz : r.Solves z) (hr : r.Forced) : z (r.rows - 1) = r.total := by
  have hlast : r.rows - 1 < r.rows := sub_lt r.rows_pos one_pos
  rcases hd.eq_or_zero hz hr hlast with h | ⟨j, hj, hj', -⟩
  · rw [h, Nat.sub_add_cancel r.rows_pos]
    rfl
  · omega

/-- After the unchecked row `i`, the solution that ends with `v`; before it, the running product. -/
noncomputable def endingWith (i : Nat) (v : K) (k : Nat) : K :=
  if k < i then r.partialProduct (k + 1) else v * ∏ l ∈ Finset.Ioo k r.rows, r.den l / r.num l

theorem Defined.ends_of_not_forced (h : ¬ r.Forced) (v : K) : r.Ends v := by
  obtain ⟨i, hpos, hi, hunchecked, hnum⟩ : ∃ i, 0 < i ∧ i < r.rows ∧ ¬ r.checked i ∧ ∀ j, i < j →
    j < r.rows → r.num j ≠ 0 := by
    by_contra hno
    refine h fun i hpos hi hc => ?_
    by_contra hno'
    exact hno ⟨i, hpos, hi, hc, fun j hij hj h0 => hno' ⟨j, hij, hj, h0⟩⟩
  refine ⟨r.endingWith i v, ⟨?_, fun k hk hc => ?_⟩, ?_⟩
  · rw [endingWith, if_pos hpos]
    exact hd.solves_partialProduct.first
  · rcases lt_trichotomy (k + 1) i with hlt | rfl | hgt
    · rw [endingWith, endingWith, if_pos hlt, if_pos (lt_of_succ_lt hlt)]
      exact hd.solves_partialProduct.step k hk hc
    · exact absurd hc hunchecked
    · have hIoo : Finset.Ioo k r.rows = insert (k + 1) (Finset.Ioo (k + 1) r.rows) := by
        ext l
        simp only [Finset.mem_Ioo, Finset.mem_insert]
        omega
      rw [endingWith, endingWith, if_neg (by omega), if_neg (by omega), hIoo, Finset.prod_insert (by simp)]
      have := hnum (k + 1) hgt hk
      have := hd (k + 1) hk
      field_simp
  · rw [endingWith, if_neg (by omega), Finset.prod_eq_one, mul_one]
    intro l hl
    have := Finset.mem_Ioo.1 hl
    omega

theorem Defined.ends_iff (v : K) : r.Ends v ↔ ¬ r.Forced ∨ v = r.total := by
  constructor
  · rintro ⟨z, hz, rfl⟩
    by_cases h : r.Forced
    · exact .inr (hd.last_eq_total hz h)
    · exact .inl h
  · rintro (h | rfl)
    · exact hd.ends_of_not_forced h v
    · exact hd.ends_total

theorem Defined.exists_ends_ne_zero (h : r.Forced → r.total ≠ 0) : ∃ v, r.Ends v ∧ v ≠ 0 := by
  by_cases hr : r.Forced
  · exact ⟨r.total, hd.ends_total, h hr⟩
  · exact ⟨1, hd.ends_of_not_forced hr 1, one_ne_zero⟩

end

/-! ### Several running products -/

def EndsAll (rs : List (RunningProduct K)) (v : K) : Prop := ∃ vs, List.Forall₂ Ends rs vs ∧ vs.prod = v

theorem endsAll_cons {rs : List (RunningProduct K)} {v : K} :
    EndsAll (r :: rs) v ↔ ∃ a b, r.Ends a ∧ EndsAll rs b ∧ a * b = v := by
  constructor
  · rintro ⟨vs, hvs, rfl⟩
    obtain ⟨a, vs, ha, hvs', rfl⟩ := forall₂_cons_left_iff.1 hvs
    exact ⟨a, vs.prod, ha, ⟨vs, hvs', rfl⟩, by rw [prod_cons]⟩
  · rintro ⟨a, b, ha, ⟨vs, hvs, rfl⟩, rfl⟩
    exact ⟨a :: vs, .cons ha hvs, by rw [prod_cons]⟩

/-- All the last rows together are forced: each is, or one of them is forced to be zero. -/
def AllForced (rs : List (RunningProduct K)) : Prop :=
  (∀ r ∈ rs, r.Forced) ∨ ∃ r ∈ rs, r.Forced ∧ r.total = 0

section

variable {rs : List (RunningProduct K)} (hd : ∀ r ∈ rs, r.Defined)

include hd

theorem endsAll_total : EndsAll rs (rs.map total).prod := by
  induction rs with
  | nil => exact ⟨[], .nil, rfl⟩
  | cons r rs ih =>
    rw [forall_mem_cons] at hd
    exact (r.endsAll_cons).2 ⟨r.total, _, hd.1.ends_total, ih hd.2, by rw [map_cons, prod_cons]⟩

theorem prod_eq_of_forced (h : ∀ r ∈ rs, r.Forced) {vs : List K} (hvs : List.Forall₂ Ends rs vs) :
    vs.prod = (rs.map total).prod := by
  induction hvs with
  | nil => rfl
  | @cons r v rs vs hv _ ih =>
    rw [forall_mem_cons] at hd h
    rw [map_cons, prod_cons, prod_cons, ih hd.2 h.2, ((hd.1.ends_iff v).1 hv).resolve_left (not_not_intro h.1)]

theorem prod_eq_zero_of_forced {r : RunningProduct K} (hr : r ∈ rs) (h : r.Forced) (h0 : r.total = 0) {vs : List K}
    (hvs : List.Forall₂ Ends rs vs) : vs.prod = 0 := by
  induction hvs with
  | nil => cases hr
  | @cons r' v rs vs hv _ ih =>
    rw [forall_mem_cons] at hd
    rw [prod_cons]
    rcases mem_cons.1 hr with rfl | hr
    · rw [((hd.1.ends_iff v).1 hv).resolve_left (not_not_intro h), h0, zero_mul]
    · rw [ih hd.2 hr, mul_zero]

theorem exists_endsAll_ne_zero (h : ∀ r ∈ rs, r.Forced → r.total ≠ 0) : ∃ v, EndsAll rs v ∧ v ≠ 0 := by
  induction rs with
  | nil => exact ⟨1, ⟨[], .nil, rfl⟩, one_ne_zero⟩
  | cons r rs ih =>
    rw [forall_mem_cons] at hd h
    obtain ⟨a, ha, ha0⟩ := hd.1.exists_ends_ne_zero h.1
    obtain ⟨b, hb, hb0⟩ := ih hd.2 h.2
    exact ⟨a * b, (r.endsAll_cons).2 ⟨a, b, ha, hb, rfl⟩, mul_ne_zero ha0 hb0⟩

theorem endsAll_of_not_allForced (h : ¬ AllForced rs) (v : K) : EndsAll rs v := by
  simp only [AllForced, not_or, not_forall, not_exists, not_and] at h
  obtain ⟨⟨r, hr, hfree⟩, hne⟩ := h
  induction rs generalizing v with
  | nil => cases hr
  | cons r' rs ih =>
    rw [forall_mem_cons] at hd hne
    rcases mem_cons.1 hr with rfl | hr'
    · -- the free end makes up for the others
      obtain ⟨b, hb, hb0⟩ := exists_endsAll_ne_zero hd.2 hne.2
      exact (r.endsAll_cons).2 ⟨v / b, b, hd.1.ends_of_not_forced hfree _, hb, div_mul_cancel₀ _ hb0⟩
    · obtain ⟨a, ha, ha0⟩ := hd.1.exists_ends_ne_zero hne.1
      exact (r'.endsAll_cons).2 ⟨a, v / a, ha, ih hd.2 (v / a) hne.2 hr', mul_div_cancel₀ _ ha0⟩

theorem endsAll_iff_total : (∀ v, EndsAll rs v ↔ v = (rs.map total).prod) ↔ AllForced rs := by
  constructor
  · intro h
    by_contra hfree
    have h0 := (h 0).1 (endsAll_of_not_allForced hd hfree 0)
    have h1 := (h 1).1 (endsAll_of_not_allForced hd hfree 1)
    exact zero_ne_one (h0.trans h1.symm)
  · rintro h v
    refine ⟨?_, fun hv => hv ▸ endsAll_total hd⟩
    rintro ⟨vs, hvs, rfl⟩
    rcases h with hall | ⟨r, hr, hforced, h0⟩
    · exact prod_eq_of_forced hd hall hvs
    · rw [prod_eq_zero_of_forced hd hr hforced h0 hvs, prod_eq_zero (h0 ▸ mem_map_of_mem hr)]

end

end RunningProduct

end Lineth

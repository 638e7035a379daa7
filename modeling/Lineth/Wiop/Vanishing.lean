import Lineth.Wiop.Runtime

/-!
# Vanishing constraints

A vanishing constraint asks of an expression to be zero on every row of a module, apart from the cancelled ones, a
local constraint on one row only: the views of the expression are replaced by the positions that they read there. -/

namespace Lineth.Wiop

open Except List Expression

variable {F C K L : Type}

/-! ### Constraints on every row -/

structure Vanishing (L : Type) where
  expression : Expression L
  /-- A negative position counts from the end. -/
  cancelledPositions : List Int

def collectShifts (e : Expression (Leaf F C)) : List Int :=
  e.leaves.filterMap fun
    | .column _ shift => if shift ≠ 0 then some shift else none
    | _ => none

/-- A shift by `k > 0` cancels the last `k` rows, a shift by `-k` the first `k`. -/
def cancelledPositionsFromShifts (shifts : List Int) : List Int :=
  let positions := shifts.flatMap fun off =>
    if off > 0 then (range off.toNat).map fun i : Nat => -(i + 1 : Int)
    else (range (-off).toNat).map fun i : Nat => (i : Int)
  positions.dedup.mergeSort

def newVanishing (e : Expression (Leaf F C)) : Vanishing (Leaf F C) :=
  ⟨e, cancelledPositionsFromShifts (collectShifts e)⟩

/-- The row is one of those that are not checked, in a module of `n` rows. -/
def Vanishing.Cancels (v : Vanishing L) (n row : Nat) : Prop :=
  ∃ p ∈ v.cancelledPositions, (if p < 0 then n + p else p) = row

/-- `Vanishing.Check`, for the given values of the leaves on each row. -/
def Vanishing.Holds [Field K] (v : Vanishing L) (n : Nat) (value : Nat → L → K) : Prop :=
  ∀ row < n, ¬ v.Cancels n row → v.expression.eval (value row) = 0

variable {e : Expression (Leaf F C)}

theorem mem_collectShifts {s : Int} :
    s ∈ collectShifts e ↔ s ≠ 0 ∧ ∃ c, Leaf.column c s ∈ e.leaves := by
  rw [collectShifts, mem_filterMap]
  constructor
  · rintro ⟨l, hl, h⟩
    split at h
    · next c shift =>
      split_ifs at h with hshift
      cases h
      exact ⟨hshift, c, hl⟩
    · cases h
  · rintro ⟨hs, c, hc⟩
    exact ⟨.column c s, hc, if_pos hs⟩

/-- The rows that the shifts of an expression take away. -/
theorem cancels_newVanishing {n row : Nat} (hrow : row < n) :
    (newVanishing e).Cancels n row ↔ ∃ c s, Leaf.column c s ∈ e.leaves ∧ (0 < s ∧ n ≤ row + s ∨ row < -s) := by
  constructor
  · rintro ⟨p, hp, hrow'⟩
    simp only [newVanishing, cancelledPositionsFromShifts, mem_mergeSort, mem_dedup, mem_flatMap] at hp
    obtain ⟨s, hs, hp⟩ := hp
    obtain ⟨-, c, hc⟩ := mem_collectShifts.1 hs
    refine ⟨c, s, hc, ?_⟩
    split_ifs at hp with hpos <;> obtain ⟨i, hi, rfl⟩ := mem_map.1 hp <;> rw [mem_range] at hi
    · rw [if_pos (by omega)] at hrow'
      omega
    · rw [if_neg (by omega)] at hrow'
      omega
  · rintro ⟨c, s, hc, h⟩
    have hs : s ∈ collectShifts e := mem_collectShifts.2 ⟨by omega, c, hc⟩
    rcases h with ⟨hpos, hle⟩ | hneg
    · refine ⟨row - n, ?_, by rw [if_pos (by omega)]; omega⟩
      simp only [newVanishing, cancelledPositionsFromShifts, mem_mergeSort, mem_dedup, mem_flatMap]
      refine ⟨s, hs, ?_⟩
      rw [if_pos hpos]
      exact mem_map.2 ⟨n - 1 - row, mem_range.2 (by omega), by omega⟩
    · refine ⟨row, ?_, by rw [if_neg (by omega)]⟩
      simp only [newVanishing, cancelledPositionsFromShifts, mem_mergeSort, mem_dedup, mem_flatMap]
      refine ⟨s, hs, ?_⟩
      rw [if_neg (by omega)]
      exact mem_map.2 ⟨row, mem_range.2 (by omega), rfl⟩

/-! ### Constraints on one row -/

inductive LocalConstraintPanic where
  /-- A row before the first, in a module whose size is not known yet. -/
  | unsized (row position shift : Int)
deriving DecidableEq

def columnViewAtRow (m : Module) (c : C) (shift position : Int) : Except LocalConstraintPanic (Leaf F C) :=
  let target := position + shift
  if m.isSized then .ok (.columnPosition c (target % m.size))
  else do
    failIf (target < 0) (.unsized target position shift)
    return .columnPosition c target

/-- A leaf as a local constraint at the row `position` reads it. -/
def lowerLeaf (modOf : C → Module) (position : Int) : Leaf F C → Except LocalConstraintPanic (Leaf F C)
  | .column c shift => columnViewAtRow (modOf c) c shift position
  | .constantVector _ v => .ok (.constant v)
  | l => .ok l

def newLocalConstraint (modOf : C → Module) (e : Expression (Leaf F C)) (position : Int) :
    Except LocalConstraintPanic (Expression (Leaf F C)) := e.mapM (lowerLeaf modOf position)

def Leaf.InBounds (n : Nat) : Leaf F C → Prop
  | .columnPosition _ position => (resolvedRow n position).isSome
  | _ => True

/-- `Vanishing.Check` of a scalar expression, which panics at a position outside of its column. -/
def ScalarHolds [Field F] [Field K] [Algebra F K] (v : Values C K) (n : Nat) (e : Expression (Leaf F C)) : Prop :=
  (∀ l ∈ e.leaves, l.InBounds n) ∧ e.eval (Leaf.value v n 0) = 0

/-- What a leaf is lowered to at row 0, if it can be. -/
def loweredLeaf (modOf : C → Module) : Leaf F C → Leaf F C
  | .column c shift => .columnPosition c (if (modOf c).isSized then shift % (modOf c).size else shift)
  | .constantVector _ v => .constant v
  | l => l

/-- At row 0, only a view of an earlier row needs the size. -/
def Leaf.Lowers (modOf : C → Module) : Leaf F C → Prop
  | .column c shift => (modOf c).isSized ∨ 0 ≤ shift
  | _ => True

variable {modOf : C → Module}

theorem lowerLeaf_zero {l : Leaf F C} (h : l.Lowers modOf) :
    lowerLeaf modOf 0 l = .ok (loweredLeaf modOf l) := by
  cases l with
  | column c shift =>
    simp only [lowerLeaf, columnViewAtRow, loweredLeaf, zero_add]
    split_ifs with hs
    · rfl
    · rw [failIf_of_not (by have := h.resolve_left hs; omega)]
      rfl
  | _ => rfl

theorem lowers_of_lowerLeaf {l l' : Leaf F C} (h : lowerLeaf modOf 0 l = .ok l') : l.Lowers modOf := by
  cases l with
  | column c shift =>
    by_contra hno
    simp only [Leaf.Lowers, not_or, not_le] at hno
    rw [lowerLeaf, columnViewAtRow, if_neg hno.1, failIf_of (by omega)] at h
    cases h
  | _ => trivial

theorem newLocalConstraint_zero {e e' : Expression (Leaf F C)} :
    newLocalConstraint modOf e 0 = .ok e' ↔ (∀ l ∈ e.leaves, l.Lowers modOf) ∧ e' = e.map (loweredLeaf modOf) := by
  constructor
  · intro h
    have hok : ∀ l ∈ e.leaves, l.Lowers modOf := fun l hl =>
      let ⟨_, hl'⟩ := exists_ok_of_mapM h l hl
      lowers_of_lowerLeaf hl'
    refine ⟨hok, ?_⟩
    rw [newLocalConstraint, mapM_of_ok fun l hl => lowerLeaf_zero (hok l hl)] at h
    exact (Except.ok.inj h).symm
  · rintro ⟨hok, rfl⟩
    exact mapM_of_ok fun l hl => lowerLeaf_zero (hok l hl)

theorem resolvedRow_natCast {n k : Nat} (h : k < n) : resolvedRow n k = some k := by
  rw [resolvedRow, if_neg (by omega), if_neg (by omega), Int.toNat_natCast]

theorem resolvedRow_neg_one {n : Nat} (h : 0 < n) : resolvedRow n (-1) = some (n - 1) := by
  simp only [resolvedRow]
  rw [if_pos (show (-1 : Int) < 0 by omega), if_neg (by omega)]
  exact congrArg some (by omega)

/-- The leaf reads a row that exists, whatever the size was known to be when it was lowered. -/
def Leaf.ReadsRow (modOf : C → Module) (n : Nat) : Leaf F C → Prop
  | .column c shift => (modOf c).isSized ∨ shift < n
  | .columnPosition _ position => (resolvedRow n position).isSome
  | _ => True

theorem loweredLeaf_spec [Field F] [Field K] [Algebra F K] {n : Nat} (hn : 0 < n) {l : Leaf F C}
    (hsize : ∀ c s, l = .column c s → (modOf c).isSized → n = (modOf c).size) (hl : l.Lowers modOf) (v : Values C K) :
    ((loweredLeaf modOf l).InBounds n ↔ l.ReadsRow modOf n) ∧
      (l.ReadsRow modOf n → (loweredLeaf modOf l).value v n 0 = l.value v n 0) := by
  cases l with
  | column c shift =>
    -- the position is the row that the view reads
    have hrow : (Leaf.column c shift : Leaf F C).ReadsRow modOf n →
        (if (modOf c).isSized then shift % ((modOf c).size : Int) else shift) = (viewRow n shift 0 : Nat) := by
      intro h
      simp only [viewRow, Nat.cast_zero, zero_add]
      have hmod := Int.emod_nonneg shift (b := n) (by omega)
      split_ifs with hs
      · rw [← hsize c shift rfl hs]
        omega
      · have hlt : shift < n := h.resolve_left hs
        rw [Int.emod_eq_of_lt (hl.resolve_left hs) hlt]
        have := hl.resolve_left hs
        omega
    have hview : viewRow n shift 0 < n := by
      have := Int.emod_lt_of_pos shift (b := n) (by omega)
      simp only [viewRow, Nat.cast_zero, zero_add]
      omega
    constructor
    · constructor
      · intro h
        by_cases hs : (modOf c).isSized
        · exact .inl hs
        · refine .inr ?_
          simp only [loweredLeaf, Leaf.InBounds, if_neg hs, resolvedRow, if_neg (not_lt.2 (hl.resolve_left hs))] at h
          split_ifs at h with hb
          · cases h
          · omega
      · intro h
        rw [loweredLeaf, Leaf.InBounds, hrow h, resolvedRow_natCast hview]
        rfl
    · intro h
      rw [loweredLeaf, hrow h]
      show v.column c ((resolvedRow n (viewRow n shift 0 : Nat)).getD 0) = v.column c (viewRow n shift 0)
      rw [resolvedRow_natCast hview, Option.getD_some]
  | columnPosition c p => exact ⟨Iff.rfl, fun _ => rfl⟩
  | _ => exact ⟨Iff.rfl, fun _ => rfl⟩

theorem scalarHolds_lowered [Field F] [Field K] [Algebra F K] {n : Nat} (hn : 0 < n)
    (hsize : ∀ c s, .column c s ∈ e.leaves → (modOf c).isSized → n = (modOf c).size)
    (hl : ∀ l ∈ e.leaves, l.Lowers modOf) (v : Values C K) :
    ScalarHolds v n (e.map (loweredLeaf modOf)) ↔
      (∀ l ∈ e.leaves, l.ReadsRow modOf n) ∧ e.eval (Leaf.value v n 0) = 0 := by
  have hspec (l) (hmem : l ∈ e.leaves) := loweredLeaf_spec hn (fun c s hc => hsize c s (hc ▸ hmem)) (hl l hmem) v
  simp only [ScalarHolds, leaves_map, forall_mem_map]
  constructor
  · rintro ⟨hb, h0⟩
    have hr : ∀ l ∈ e.leaves, l.ReadsRow modOf n := fun l hmem => (hspec l hmem).1.1 (hb l hmem)
    refine ⟨hr, ?_⟩
    rw [← h0, eval_map]
    exact eval_congr fun l hmem => ((hspec l hmem).2 (hr l hmem)).symm
  · rintro ⟨hr, h0⟩
    refine ⟨fun l hmem => (hspec l hmem).1.2 (hr l hmem), ?_⟩
    rw [← h0, eval_map]
    exact eval_congr fun l hmem => (hspec l hmem).2 (hr l hmem)

end Lineth.Wiop

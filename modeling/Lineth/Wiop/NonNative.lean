import Mathlib.Data.BitVec
import Mathlib.Data.List.GetD
import Mathlib.Data.Nat.Digits.Lemmas
import Lineth.Lib.Horner
import Lineth.Koalabear.Field
import Lineth.Wiop.Expression

/-!
# Non-native multiplication

A query `NonNative` says of each row that `left * right = quotient * modulus + result`, for integers given by their
limbs. The compiler reduces it to an identity of polynomials in a coin `X`, with columns of carries for a multiple of
`2 ^ b - X`. Nothing bounds these columns, so the identity speaks about the integers modulo the field's characteristic
only. -/

namespace Lineth.Wiop

open Koalabear Except List Horner

/-! ### The query -/

structure NonNative where
  module : Nat
  inputRound : Nat
  nbBitsPerLimb : Nat
  left : List Column
  right : List Column
  modulus : List Column
  result : List Column
  quotient : List Column

inductive NonNativePanic where
  | nbBitsPerLimb (got : Nat)
  | emptyLimbs (name : String)
  | lengthMismatch (got : Nat) (name : String) (expected : Nat)
  | foreignModule (name : String) (limb : Nat)
  | roundMismatch (name : String) (limb round expected : Nat)
deriving DecidableEq

/-- One column of a group: all columns are of the module and of one round. -/
def checkColumn (m : Nat) (name : String) (inputRound : Option Nat) (c : Column × Nat) :
    Except NonNativePanic (Option Nat) := do
  failIf (c.1.module ≠ m) (.foreignModule name c.2)
  match inputRound with
  | none => return some c.1.round
  | some round => do
    failIf (c.1.round ≠ round) (.roundMismatch name c.2 c.1.round round)
    return some round

/-- One of the five groups of limbs, with the number of limbs and the round seen so far. -/
def checkGroup (m : Nat) (st : Nat × Option Nat) (group : String × List Column) :
    Except NonNativePanic (Nat × Option Nat) := do
  failIf (group.2.length = 0) (.emptyLimbs group.1)
  failIf (st.1 ≠ 0 ∧ group.2.length ≠ st.1) (.lengthMismatch group.2.length group.1 st.1)
  let inputRound ← group.2.zipIdx.foldlM (checkColumn m group.1) st.2
  return (group.2.length, inputRound)

def newNonNative (m nbBitsPerLimb : Nat) (left right modulus result quotient : List Column) :
    Except NonNativePanic NonNative := do
  -- headroom for operations
  failIf (nbBitsPerLimb ≤ 0 ∨ nbBitsPerLimb ≥ bits - 3) (.nbBitsPerLimb nbBitsPerLimb)
  let st ← [("Left", left), ("Right", right), ("Modulus", modulus), ("Result", result), ("Quotient", quotient)].foldlM
    (checkGroup m) (0, none)
  return { module := m, inputRound := st.2.getD 0, nbBitsPerLimb, left, right, modulus, result, quotient }

abbrev Row := Column → Element

def Row.limbs (row : Row) (cols : List Column) : List Nat := cols.map fun c => (row c).val

/-- `composeLimbsRow`: the integer with the given limbs. -/
def composeLimbsRow (row : Row) (cols : List Column) (nbBitsPerLimb : Nat) : Nat :=
  (row.limbs cols).foldr (fun limb res => res <<< nbBitsPerLimb ||| limb) 0

/-- Every limb of every operand has at most `nbBitsPerLimb` bits on the row. -/
def NonNative.InRange (q : NonNative) (row : Row) : Prop :=
  ∀ c ∈ q.left ++ q.right ++ q.modulus ++ q.result ++ q.quotient, (row c).val < 2 ^ q.nbBitsPerLimb

def NonNative.Holds (q : NonNative) (row : Row) : Prop :=
  composeLimbsRow row q.left q.nbBitsPerLimb * composeLimbsRow row q.right q.nbBitsPerLimb =
    composeLimbsRow row q.quotient q.nbBitsPerLimb * composeLimbsRow row q.modulus q.nbBitsPerLimb +
      composeLimbsRow row q.result q.nbBitsPerLimb

/-! ### The compiled identity -/

/-- The columns of the identity: the query's, and the carries that the compiler adds. -/
inductive NonNativeColumn where
  | operand (c : Column)
  | carry (i : Nat)

abbrev NonNativeExpression := Expression (Leaf Element NonNativeColumn)

def nbMultiplicationResLimbs (lenLeft lenRight : Nat) : Nat := max (lenLeft + lenRight - 1) 0

def newCarryColumns (q : NonNative) : List NonNativeColumn :=
  (range (nbMultiplicationResLimbs q.left.length q.right.length)).map .carry

def NonNativeColumn.view (c : NonNativeColumn) : NonNativeExpression := .leaf (.column c 0)

/-- Horner's rule from the last limb down; there is at least one. -/
def polyEval (ls : List NonNativeColumn) (x : NonNativeExpression) : NonNativeExpression :=
  match ls.reverse with
  | [] => .leaf (.constant 0)
  | last :: rest => rest.foldl (fun res c => .add (.mul res x) c.view) last.view

def identityExpr (q : NonNative) (x : NonNativeExpression) (carry : List NonNativeColumn) : NonNativeExpression :=
  let leftEval := polyEval (q.left.map .operand) x
  let rightEval := polyEval (q.right.map .operand) x
  let modEval := polyEval (q.modulus.map .operand) x
  let quoEval := polyEval (q.quotient.map .operand) x
  let resEval := polyEval (q.result.map .operand) x
  let carryEval := polyEval carry x
  let carryCoef := .sub (.leaf (.constant ((2 ^ q.nbBitsPerLimb : Nat) : Element))) x
  .sub (.sub (.sub (.mul leftEval rightEval) (.mul modEval quoEval)) resEval) (.mul carryEval carryCoef)

/-- The identity of a query, in the coin that all queries share. -/
def NonNative.identity (q : NonNative) : NonNativeExpression := identityExpr q (.leaf (.coin 0)) (newCarryColumns q)

variable {K : Type} [Field K] [Algebra Element K]

def rowValue (row : Row) (carry : Nat → Element) (x : K) : Leaf Element NonNativeColumn → K
  | .column (.operand c) _ => algebraMap Element K (row c)
  | .column (.carry i) _ => algebraMap Element K (carry i)
  | .constant v => algebraMap Element K v
  | .coin _ => x
  | _ => 0

def NonNative.Vanishes (K : Type) [Field K] [Algebra Element K] (q : NonNative) (row : Row)
    (carry : Nat → Element) : Prop :=
  ∀ x : K, q.identity.eval (rowValue row carry x) = 0

/-! ### The prover's carries -/

/-- The schoolbook product, in 64-bit words. -/
def limbMul (lhs rhs : List (BitVec 64)) : List (BitVec 64) := mul lhs rhs

def carryStep (nbBitsPerLimb : Nat) (lhsProd rhsProd : List (BitVec 64)) (st : Int × List Element) (j : Nat) :
    Int × List Element :=
  let carry := if j < lhsProd.length then st.1 + (lhsProd.getD j 0).toNat else st.1
  let carry := if j < rhsProd.length then carry - (rhsProd.getD j 0).toNat else carry
  let carry := carry >>> nbBitsPerLimb
  (carry, st.2 ++ [(carry : Element)])

def carryRow (left right quo mod res : List (BitVec 64)) (nbBitsPerLimb : Nat) : List Element :=
  let lhsProd := limbMul left right
  let rhsProd := limbMul quo mod
  let rhsProd := (range res.length).foldl
    (fun rhsProd j => if j < rhsProd.length then rhsProd.modify j (· + res.getD j 0) else rhsProd) rhsProd
  let nbCarry := max lhsProd.length rhsProd.length
  ((range nbCarry).foldl (carryStep nbBitsPerLimb lhsProd rhsProd) (0, [])).2

def readRow (row : Row) (cols : List Column) : List (BitVec 64) := (row.limbs cols).map (BitVec.ofNat 64)

def NonNative.proverCarry (q : NonNative) (row : Row) (i : Nat) : Element :=
  (carryRow (readRow row q.left) (readRow row q.right) (readRow row q.quotient) (readRow row q.modulus)
    (readRow row q.result) q.nbBitsPerLimb).getD i 0

/-- The reduction is exact on a row: there are carries for which the identity vanishes if and only if the query holds,
and then those of the prover are such. -/
def NonNative.Exact (K : Type) [Field K] [Algebra Element K] (q : NonNative) (row : Row) : Prop :=
  ((∃ carry, q.Vanishes K row carry) ↔ q.Holds row) ∧ (q.Holds row → q.Vanishes K row (q.proverCarry row))

/-! ### The identity in numbers -/

variable {q : NonNative} {row : Row} {carry : Nat → Element}

section

variable (row : Row) (carry : Nat → Element) (x : K)

theorem foldl_polyEval (ls : List NonNativeColumn) (e : NonNativeExpression) :
    (ls.foldl (fun res c => .add (.mul res (.leaf (.coin 0))) c.view) e).eval (rowValue row carry x) =
      ls.foldl (fun r c => r * x + c.view.eval (rowValue row carry x)) (e.eval (rowValue row carry x)) := by
  induction ls generalizing e with
  | nil => rfl
  | cons c ls ih =>
    rw [foldl_cons, ih]
    rfl

theorem polyEval_eval (ls : List NonNativeColumn) :
    (polyEval ls (.leaf (.coin 0))).eval (rowValue row carry x) =
      eval x (ls.map fun c => c.view.eval (rowValue row carry x)) := by
  have hfold : eval x (ls.map fun c => c.view.eval (rowValue row carry x)) =
      ls.reverse.foldl (fun r c => r * x + c.view.eval (rowValue row carry x)) 0 := by
    rw [eval, foldr_map, foldl_reverse]
    simp only [add_comm, mul_comm]
  rw [hfold, polyEval]
  cases ls.reverse with
  | nil => exact map_zero _
  | cons last rest => rw [foldl_polyEval, foldl_cons, zero_mul, zero_add]

theorem map_operand_eval (cols : List Column) :
    (cols.map NonNativeColumn.operand).map (fun c => c.view.eval (rowValue row carry x)) =
      (row.limbs cols).map (Nat.cast : Nat → K) := by
  simp only [Row.limbs, map_map]
  refine map_congr_left fun c _ => ?_
  change algebraMap Element K (row c) = ((row c).val : K)
  rw [← map_natCast (algebraMap Element K), ZMod.natCast_zmod_val]

end

def limbsAt {R : Type*} [CommSemiring R] (x : R) (row : Row) (cols : List Column) : R :=
  eval x ((row.limbs cols).map Nat.cast)

/-- The two sides of the identity without the carries, at `x`. -/
def NonNative.differenceAt {R : Type*} [CommRing R] (q : NonNative) (row : Row) (x : R) : R :=
  limbsAt x row q.left * limbsAt x row q.right - limbsAt x row q.modulus * limbsAt x row q.quotient -
    limbsAt x row q.result

theorem identity_eval (q : NonNative) (row : Row) (carry : Nat → Element) (x : K) :
    q.identity.eval (rowValue row carry x) =
      q.differenceAt row x -
        eval x ((range (nbMultiplicationResLimbs q.left.length q.right.length)).map
          fun i => algebraMap Element K (carry i)) * (2 ^ q.nbBitsPerLimb - x) := by
  simp only [NonNative.identity, identityExpr, Expression.eval, polyEval_eval, map_operand_eval, newCarryColumns]
  have hcoef : rowValue row carry x (.constant ((2 ^ q.nbBitsPerLimb : Nat) : Element)) = 2 ^ q.nbBitsPerLimb := by
    change algebraMap Element K _ = _
    rw [map_natCast, Nat.cast_pow, Nat.cast_ofNat]
  rw [hcoef, map_map]
  rfl

variable {cols : List Column} {b : Nat}

theorem composeLimbsRow_eq (h : ∀ c ∈ cols, (row c).val < 2 ^ b) :
    composeLimbsRow row cols b = eval (2 ^ b) (row.limbs cols) := by
  induction cols with
  | nil => rfl
  | cons c cols ih =>
    have ih := ih fun c hc => h c (mem_cons_of_mem _ hc)
    have hc := h c mem_cons_self
    rw [composeLimbsRow] at ih ⊢
    rw [Row.limbs, map_cons, foldr_cons, eval_cons, ← Row.limbs, ih,
      ← Nat.shiftLeft_add_eq_or_of_lt hc, Nat.shiftLeft_eq]
    ring

variable {R : Type*}

theorem limbsAt_base [CommSemiring R] (h : ∀ c ∈ cols, (row c).val < 2 ^ b) :
    limbsAt (2 ^ b : R) row cols = (composeLimbsRow row cols b : R) := by
  have hmap := eval_map (Nat.castRingHom R) (2 ^ b) (row.limbs cols)
  rw [map_pow, map_ofNat] at hmap
  rw [composeLimbsRow_eq h]
  exact hmap

def NonNative.defect (q : NonNative) (row : Row) : Int :=
  (composeLimbsRow row q.left q.nbBitsPerLimb * composeLimbsRow row q.right q.nbBitsPerLimb : Nat) -
    (composeLimbsRow row q.quotient q.nbBitsPerLimb * composeLimbsRow row q.modulus q.nbBitsPerLimb +
      composeLimbsRow row q.result q.nbBitsPerLimb : Nat)

theorem holds_iff_defect : q.Holds row ↔ q.defect row = 0 := by
  rw [NonNative.Holds, NonNative.defect, sub_eq_zero, Nat.cast_inj]

theorem NonNative.InRange.differenceAt [CommRing R] (h : q.InRange row) :
    q.differenceAt row (2 ^ q.nbBitsPerLimb : R) = (q.defect row : R) := by
  simp only [NonNative.InRange, mem_append] at h
  rw [NonNative.differenceAt, limbsAt_base fun c hc => h c (by simp [hc]), limbsAt_base fun c hc => h c (by simp [hc]),
    limbsAt_base fun c hc => h c (by simp [hc]), limbsAt_base fun c hc => h c (by simp [hc]),
    limbsAt_base fun c hc => h c (by simp [hc]), NonNative.defect]
  push_cast
  ring

/-- At the challenge `2 ^ b` the carries drop out: what is left is the defect, modulo the characteristic. -/
theorem modulus_dvd_defect (h : q.InRange row) (hv : q.Vanishes K row carry) : (modulus : Int) ∣ q.defect row := by
  have hzero := hv (2 ^ q.nbBitsPerLimb)
  rw [identity_eval, sub_self, mul_zero, sub_zero, h.differenceAt, ← map_intCast (algebraMap Element K)] at hzero
  rwa [FaithfulSMul.algebraMap_eq_zero_iff, ZMod.intCast_zmod_eq_zero_iff_dvd] at hzero

/-! ### Carries -/

/-- The coefficients of `left * right`, and those of `quotient * modulus + result`. -/
def lhsDigits (q : NonNative) (row : Row) : List Nat := mul (row.limbs q.left) (row.limbs q.right)

def rhsDigits (q : NonNative) (row : Row) : List Nat :=
  addRow 1 (row.limbs q.result) 0 (mul (row.limbs q.quotient) (row.limbs q.modulus))

/-- A query with `n` limbs to each operand. -/
structure NonNative.HasLimbs (q : NonNative) (n : Nat) : Prop where
  pos : 0 < n
  left : q.left.length = n
  right : q.right.length = n
  modulus : q.modulus.length = n
  result : q.result.length = n
  quotient : q.quotient.length = n

theorem Row.length_limbs (row : Row) (cols : List Column) : (row.limbs cols).length = cols.length := length_map _

variable {n : Nat}

theorem NonNative.HasLimbs.lhsDigits_spec [CommSemiring R] (hq : q.HasLimbs n) (row : Row) (x : R) :
    (lhsDigits q row).length = 2 * n - 1 ∧
      eval x ((lhsDigits q row).map Nat.cast) = limbsAt x row q.left * limbsAt x row q.right := by
  have hcast := mul_map (Nat.castRingHom R) (row.limbs q.left) (row.limbs q.right)
  obtain ⟨hlength, heval⟩ := mul_spec x ((row.limbs q.left).map (Nat.castRingHom R))
    ((row.limbs q.right).map (Nat.castRingHom R))
  rw [hcast] at hlength heval
  refine ⟨?_, heval⟩
  simpa [lhsDigits, row.length_limbs, hq.left, hq.right, ← two_mul] using hlength

theorem NonNative.HasLimbs.rhsDigits_spec [CommSemiring R] (hq : q.HasLimbs n) (row : Row) (x : R) :
    (rhsDigits q row).length = 2 * n - 1 ∧
      eval x ((rhsDigits q row).map Nat.cast) =
        limbsAt x row q.quotient * limbsAt x row q.modulus + limbsAt x row q.result := by
  have hpos := hq.pos
  obtain ⟨hlength, heval⟩ := mul_spec x ((row.limbs q.quotient).map (Nat.castRingHom R))
    ((row.limbs q.modulus).map (Nat.castRingHom R))
  have hlength : (mul ((row.limbs q.quotient).map (Nat.castRingHom R))
      ((row.limbs q.modulus).map (Nat.castRingHom R))).length = 2 * n - 1 := by
    simpa [row.length_limbs, hq.quotient, hq.modulus, ← two_mul] using hlength
  obtain ⟨hlength', heval'⟩ := addRow_spec x 1 (r := (row.limbs q.result).map (Nat.castRingHom R)) (i := 0) hlength
    (by rw [length_map, row.length_limbs, hq.result]; omega)
  have hcast : addRow 1 ((row.limbs q.result).map (Nat.castRingHom R)) 0
      (mul ((row.limbs q.quotient).map (Nat.castRingHom R)) ((row.limbs q.modulus).map (Nat.castRingHom R))) =
      (rhsDigits q row).map (Nat.castRingHom R) := by
    rw [mul_map, ← map_one (Nat.castRingHom R), addRow_map]
    rfl
  rw [hcast] at hlength' heval'
  refine ⟨by simpa using hlength', heval'.trans ?_⟩
  rw [heval, pow_zero, mul_one, one_mul]
  rfl

def digits (q : NonNative) (row : Row) : List Int :=
  (range (lhsDigits q row).length).map fun j => ((lhsDigits q row).getD j 0 : Int) - (rhsDigits q row).getD j 0

theorem NonNative.HasLimbs.eval_digits [CommRing R] (hq : q.HasLimbs n) (row : Row) (x : R) :
    eval x ((digits q row).map Int.cast) = q.differenceAt row x := by
  obtain ⟨hlhs, hleft⟩ := hq.lhsDigits_spec row x
  obtain ⟨hrhs, hright⟩ := hq.rhsDigits_spec row x
  have hcast : ∀ ds : List Nat, ds.length = 2 * n - 1 →
      (range (2 * n - 1)).map (fun j => (ds.getD j 0 : R)) = ds.map Nat.cast := by
    intro ds hds
    rw [← hds, ← map_getD_range ds, map_map, map_getD_range]
    rfl
  simp only [digits, map_map, Function.comp_def, Int.cast_sub, Int.cast_natCast]
  rw [eval_map_sub, hlhs, hcast _ hlhs, hcast _ hrhs, hleft, hright, NonNative.differenceAt]
  ring

theorem NonNative.HasLimbs.vanishes_of_carries (hq : q.HasLimbs n) {cs : List Element}
    (h : Horner.Carries (2 ^ q.nbBitsPerLimb) 0 ((digits q row).map Int.cast) cs) :
    q.Vanishes K row fun i => cs.getD i 0 := by
  intro x
  have hlength : cs.length = nbMultiplicationResLimbs q.left.length q.right.length := by
    rw [h.length_eq, length_map, digits, length_map, length_range, (hq.lhsDigits_spec row (1 : Nat)).1,
      nbMultiplicationResLimbs, hq.left, hq.right]
    omega
  have hcarry : (range cs.length).map (fun i => algebraMap Element K (cs.getD i 0)) =
      cs.map (algebraMap Element K) := by
    conv_rhs => rw [← map_getD_range cs, map_map]
    rfl
  have heval := (h.map (algebraMap Element K)).eval_eq x
  have hdigits : ((digits q row).map Int.cast).map (algebraMap Element K) = (digits q row).map
    (Int.cast : Int → K) := by
    rw [map_map]
    exact map_congr_left fun d _ => map_intCast (algebraMap Element K) d
  rw [map_zero, zero_add, hdigits, hq.eval_digits, map_pow, map_ofNat] at heval
  rw [identity_eval, ← hlength, hcarry, heval, sub_self]

/-! ### The prover's carries are carries -/

/-- What `carryRow` computes from the coefficients, as integers. -/
def carryList (b : Nat) : Int → List Int → List Int
  | _, [] => []
  | c, d :: ds => (c + d) >>> b :: carryList b ((c + d) >>> b) ds

theorem carryList_carries {c : Int} {ds : List Int} (h : c + eval (2 ^ b) ds = 0) :
    Horner.Carries (2 ^ b) c ds (carryList b c ds) := by
  induction ds generalizing c with
  | nil =>
    rw [eval_nil, add_zero] at h
    subst h
    exact .nil
  | cons d ds ih =>
    have hpos : (2 : Int) ^ b ≠ 0 := by positivity
    rw [eval_cons] at h
    have hshift : (c + d) >>> b = -eval (2 ^ b) ds := by
      rw [Int.shiftRight_eq_div_pow, Nat.cast_pow, Nat.cast_ofNat]
      exact Int.ediv_eq_of_eq_mul_right hpos (by linear_combination h)
    refine .cons ?_ (ih ?_)
    · rw [hshift]
      linear_combination h
    · rw [hshift, neg_add_cancel]

theorem foldl_carry (b : Nat) (ds : List Int) (c : Int) (out : List Element) :
    (ds.foldl (fun (st : Int × List Element) d => ((st.1 + d) >>> b, st.2 ++ [(((st.1 + d) >>> b : Int) : Element)]))
        (c, out)).2 =
      out ++ (carryList b c ds).map Int.cast := by
  induction ds generalizing c out with
  | nil => simp [carryList]
  | cons d ds ih => simp [carryList, ih]

theorem readRow_eq (row : Row) (cols : List Column) :
    readRow row cols = (row.limbs cols).map (Nat.castRingHom (BitVec 64)) := rfl

theorem addResult_eq (res rhsProd : List (BitVec 64)) :
    (range res.length).foldl
      (fun rhsProd j => if j < rhsProd.length then rhsProd.modify j (· + res.getD j 0) else rhsProd) rhsProd =
      addRow 1 res 0 rhsProd := by
  refine foldl_ext _ _ _ fun rhsProd j _ => ?_
  rw [zero_add, one_mul]
  by_cases hj : j < rhsProd.length
  · rw [if_pos hj]
  · rw [if_neg hj, modify_eq_self (by omega)]

theorem NonNative.HasLimbs.proverCarry_eq (hq : q.HasLimbs n) (hlhs : ∀ d ∈ lhsDigits q row, d < 2 ^ 64)
    (hrhs : ∀ d ∈ rhsDigits q row, d < 2 ^ 64) (i : Nat) :
    q.proverCarry row i = ((carryList q.nbBitsPerLimb 0 (digits q row)).map Int.cast).getD i 0 := by
  have hleft : limbMul (readRow row q.left) (readRow row q.right) =
      (lhsDigits q row).map (Nat.castRingHom (BitVec 64)) := by
    rw [limbMul, readRow_eq, readRow_eq, mul_map, lhsDigits]
  have hright : addRow 1 (readRow row q.result) 0 (limbMul (readRow row q.quotient) (readRow row q.modulus)) =
      (rhsDigits q row).map (Nat.castRingHom (BitVec 64)) := by
    rw [limbMul, readRow_eq, readRow_eq, readRow_eq, mul_map, ← map_one (Nat.castRingHom (BitVec 64)),
      addRow_map, rhsDigits]
  have hlength : (rhsDigits q row).length = (lhsDigits q row).length :=
    (hq.rhsDigits_spec row (1 : Nat)).1.trans (hq.lhsDigits_spec row (1 : Nat)).1.symm
  have htoNat : ∀ ds : List Nat, (∀ d ∈ ds, d < 2 ^ 64) → ∀ j,
      ((ds.map (Nat.castRingHom (BitVec 64))).getD j 0).toNat = ds.getD j 0 := by
    intro ds hds j
    rw [Horner.getD_map]
    change (BitVec.ofNat 64 (ds.getD j 0)).toNat = _
    rw [BitVec.toNat_ofNat, Nat.mod_eq_of_lt]
    by_cases hj : j < ds.length
    · rw [getD_eq_getElem _ _ hj]
      exact hds _ (getElem_mem hj)
    · rw [getD_eq_default _ _ (by omega)]
      decide
  rw [NonNative.proverCarry, carryRow]
  simp only [addResult_eq, hleft, hright, length_map, hlength, max_self]
  rw [← nil_append ((carryList q.nbBitsPerLimb 0 (digits q row)).map Int.cast), ← foldl_carry, digits, foldl_map]
  congr 2
  refine foldl_ext _ _ _ fun st j hj => ?_
  rw [mem_range] at hj
  simp only [carryStep, length_map, hlength, if_pos hj, htoNat _ hlhs, htoNat _ hrhs, add_sub_assoc]

theorem NonNative.HasLimbs.vanishes_proverCarry (hq : q.HasLimbs n) (hrange : q.InRange row) (hholds : q.Holds row)
    (hlhs : ∀ d ∈ lhsDigits q row, d < 2 ^ 64) (hrhs : ∀ d ∈ rhsDigits q row, d < 2 ^ 64) :
    q.Vanishes K row (q.proverCarry row) := by
  have hzero : 0 + eval (2 ^ q.nbBitsPerLimb) (digits q row) = 0 := by
    have heval := hq.eval_digits row (2 ^ q.nbBitsPerLimb : Int)
    rw [hrange.differenceAt, holds_iff_defect.1 hholds, Int.cast_zero] at heval
    have hcast : (digits q row).map (Int.cast : Int → Int) = digits q row := by
      rw [show (Int.cast : Int → Int) = id from funext fun _ => Int.cast_id, List.map_id]
    rw [zero_add, ← hcast, heval]
  have hcarries := (carryList_carries hzero).map (Int.castRingHom Element)
  rw [map_zero, map_pow, map_ofNat] at hcarries
  rw [funext (hq.proverCarry_eq hlhs hrhs)]
  exact hq.vanishes_of_carries hcarries

section

variable (hq : q.HasLimbs n) (hrange : q.InRange row)

include hq hrange

/-- Some carries make the identity vanish on a row exactly if the defect is a multiple of the field's modulus. -/
theorem NonNative.HasLimbs.exists_vanishes_iff :
    (∃ carry, q.Vanishes K row carry) ↔ (Koalabear.modulus : Int) ∣ q.defect row := by
  constructor
  · rintro ⟨carry, hv⟩
    exact modulus_dvd_defect hrange hv
  · intro hdvd
    have hbase : (2 : Element) ^ q.nbBitsPerLimb ≠ 0 := pow_ne_zero _ (by decide)
    have hzero : (0 : Element) + eval (2 ^ q.nbBitsPerLimb) ((digits q row).map Int.cast) = 0 := by
      rw [zero_add, hq.eval_digits, hrange.differenceAt]
      exact (ZMod.intCast_zmod_eq_zero_iff_dvd _ _).2 hdvd
    obtain ⟨cs, hcs⟩ := exists_carries hbase hzero
    exact ⟨_, hq.vanishes_of_carries hcs⟩

/-- On a row, the identity says what the query says if the defect is zero or no multiple of the modulus, and only
then. -/
theorem NonNative.HasLimbs.vanishes_iff_holds :
    ((∃ carry, q.Vanishes K row carry) ↔ q.Holds row) ↔
      q.defect row = 0 ∨ ¬ (Koalabear.modulus : Int) ∣ q.defect row := by
  rw [hq.exists_vanishes_iff hrange, holds_iff_defect]
  constructor
  · intro h
    by_contra hno
    rw [not_or, not_not] at hno
    exact hno.1 (h.1 hno.2)
  · rintro (h | h)
    · exact ⟨fun _ => h, fun _ => h ▸ dvd_zero _⟩
    · exact ⟨fun hdvd => absurd hdvd h, fun hzero => hzero ▸ dvd_zero _⟩

end

/-! ### What the constructor accepts -/

theorem checkGroup_ok {m : Nat} {st st' : Nat × Option Nat} {group : String × List Column}
    (h : checkGroup m st group = .ok st') :
    0 < group.2.length ∧ (st.1 ≠ 0 → group.2.length = st.1) ∧ st'.1 = group.2.length := by
  simp only [checkGroup, bind_eq_ok, failIf_eq_ok, pure_eq_ok, Except.ok.injEq] at h
  obtain ⟨-, hempty, -, hlength, round, -, rfl⟩ := h
  exact ⟨by omega, fun hst => by tauto, rfl⟩

theorem newNonNative_spec {m b : Nat} {left right modulus result quotient : List Column}
    (h : newNonNative m b left right modulus result quotient = .ok q) :
    q.nbBitsPerLimb = b ∧ 0 < b ∧ b < 28 ∧ q.HasLimbs left.length := by
  simp only [newNonNative, foldlM_cons, foldlM_nil, bind_eq_ok, failIf_eq_ok, pure_eq_ok, Except.ok.injEq] at h
  obtain ⟨-, hbits, _, ⟨st₁, hleft, st₂, hright, st₃, hmodulus, st₄, hresult, st₅, hquotient, rfl⟩, rfl⟩ := h
  obtain ⟨hpos, -, h₁⟩ := checkGroup_ok hleft
  obtain ⟨-, hlength₂, h₂⟩ := checkGroup_ok hright
  obtain ⟨-, hlength₃, h₃⟩ := checkGroup_ok hmodulus
  obtain ⟨-, hlength₄, h₄⟩ := checkGroup_ok hresult
  obtain ⟨-, hlength₅, -⟩ := checkGroup_ok hquotient
  simp only [bits] at hbits
  simp only at hpos h₁ h₂ h₃ h₄ hlength₂ hlength₃ hlength₄ hlength₅
  have hr : right.length = left.length := by omega
  have hm : modulus.length = left.length := by omega
  have hs : result.length = left.length := by omega
  have hq : quotient.length = left.length := by omega
  exact ⟨rfl, by omega, by omega, by omega, rfl, hr, hm, hs, hq⟩

theorem foldlM_checkColumn {m r : Nat} (name : String) {cols : List (Column × Nat)}
    (h : ∀ c ∈ cols, c.1.module = m ∧ c.1.round = r) : ∀ round : Option Nat, (round = none ∨ round = some r) →
    ∃ round', cols.foldlM (checkColumn m name) round = .ok round' ∧ (round' = none ∨ round' = some r) := by
  induction cols with
  | nil => exact fun round hround => ⟨round, rfl, hround⟩
  | cons c cols ih =>
    intro round hround
    obtain ⟨hm, hr⟩ := h c mem_cons_self
    have hc : checkColumn m name round c = .ok (some r) := by
      rcases hround with rfl | rfl
      · simp [checkColumn, failIf, hm, hr]
      · simp [checkColumn, failIf, hm, hr]
    rw [foldlM_cons, hc, ok_bind]
    exact ih (fun c hc => h c (mem_cons_of_mem _ hc)) _ (.inr rfl)

theorem checkGroup_eq_ok {m r n : Nat} (name : String) (hn : 0 < n) (hlength : cols.length = n)
    (h : ∀ c ∈ cols, c.module = m ∧ c.round = r) (st : Nat × Option Nat) (hst : st.1 = 0 ∨ st.1 = n)
    (hround : st.2 = none ∨ st.2 = some r) :
    ∃ round, checkGroup m st (name, cols) = .ok (n, round) ∧ (round = none ∨ round = some r) := by
  obtain ⟨round, hcols, hround⟩ := foldlM_checkColumn name
    (fun c (hc : c ∈ cols.zipIdx) => h c.1 (fst_mem_of_mem_zipIdx hc)) st.2 hround
  refine ⟨round, ?_, hround⟩
  have hempty : ¬ cols.length = 0 := by omega
  have hsame : ¬ (st.1 ≠ 0 ∧ cols.length ≠ st.1) := by omega
  rw [checkGroup, failIf_of_not hempty, ok_bind, failIf_of_not hsame, ok_bind, hcols, ok_bind, hlength]
  rfl

theorem newNonNative_eq_ok {m r b n : Nat} {left right modulus result quotient : List Column} (hb : 0 < b ∧ b < 28)
    (hn : 0 < n) (hleft : left.length = n) (hright : right.length = n) (hmodulus : modulus.length = n)
    (hresult : result.length = n) (hquotient : quotient.length = n)
    (h : ∀ c ∈ left ++ right ++ modulus ++ result ++ quotient, c.module = m ∧ c.round = r) :
    ∃ q, newNonNative m b left right modulus result quotient = .ok q ∧ q.left = left ∧ q.right = right ∧
      q.modulus = modulus ∧ q.result = result ∧ q.quotient = quotient := by
  simp only [mem_append] at h
  have hbits : ¬ (b ≤ 0 ∨ b ≥ bits - 3) := by
    simp only [bits]
    omega
  obtain ⟨r₁, h₁, hr₁⟩ := checkGroup_eq_ok "Left" hn hleft (fun c hc => h c (by simp [hc]))
    (0, none) (.inl rfl) (.inl rfl)
  obtain ⟨r₂, h₂, hr₂⟩ := checkGroup_eq_ok "Right" hn hright (fun c hc => h c (by simp [hc]))
    (n, r₁) (.inr rfl) hr₁
  obtain ⟨r₃, h₃, hr₃⟩ := checkGroup_eq_ok "Modulus" hn hmodulus (fun c hc => h c (by simp [hc]))
    (n, r₂) (.inr rfl) hr₂
  obtain ⟨r₄, h₄, hr₄⟩ := checkGroup_eq_ok "Result" hn hresult (fun c hc => h c (by simp [hc]))
    (n, r₃) (.inr rfl) hr₃
  obtain ⟨r₅, h₅, -⟩ := checkGroup_eq_ok "Quotient" hn hquotient (fun c hc => h c (by simp [hc]))
    (n, r₄) (.inr rfl) hr₄
  rw [newNonNative, failIf_of_not hbits, ok_bind]
  simp only [foldlM_cons, foldlM_nil, h₁, h₂, h₃, h₄, h₅, ok_bind, pure_eq_ok]
  exact ⟨_, rfl, rfl, rfl, rfl, rfl, rfl⟩

/-! ### Small operands -/

theorem compose_lt (h : ∀ c ∈ cols, (row c).val < 2 ^ b) :
    composeLimbsRow row cols b < 2 ^ (b * cols.length) := by
  rw [composeLimbsRow_eq h]
  induction cols with
  | nil => simp [Row.limbs]
  | cons c cols ih =>
    have ih := ih fun c hc => h c (mem_cons_of_mem _ hc)
    have hc := h c mem_cons_self
    rw [Row.limbs, map_cons, eval_cons, ← Row.limbs, length_cons, Nat.mul_succ, add_comm, pow_add]
    calc _ < 2 ^ b * eval (2 ^ b) (row.limbs cols) + 2 ^ b := by omega
      _ = 2 ^ b * (eval (2 ^ b) (row.limbs cols) + 1) := by ring
      _ ≤ 2 ^ b * 2 ^ (b * cols.length) := Nat.mul_le_mul_left _ ih
      _ = _ := by rw [mul_comm]

theorem limbsAt_one_le (h : ∀ c ∈ cols, (row c).val < 2 ^ b) :
    limbsAt 1 row cols ≤ cols.length * 2 ^ b := by
  have hsum := List.sum_le_card_nsmul (row.limbs cols) (2 ^ b) fun d hd => by
    obtain ⟨c, hc, rfl⟩ := List.mem_map.1 hd
    exact (h c hc).le
  rw [limbsAt, show (Nat.cast : Nat → Nat) = id from rfl, List.map_id, eval_one]
  rwa [row.length_limbs, smul_eq_mul] at hsum

theorem lt_of_eval_one_lt {ds : List Nat} {m : Nat} (h : eval 1 (ds.map Nat.cast) < m) : ∀ d ∈ ds, d < m := by
  intro d hd
  rw [show (Nat.cast : Nat → Nat) = id from rfl, List.map_id, eval_one] at h
  exact (List.single_le_sum (fun _ _ => Nat.zero_le _) d hd).trans_lt h

/-- Operands of at most 15 bits: the defect is too small for a non-zero multiple of the modulus. -/
theorem exact_of_le (hq : q.HasLimbs n) (hrange : q.InRange row) (hb : 0 < q.nbBitsPerLimb)
    (hsize : q.nbBitsPerLimb * n ≤ 15) : q.Exact K row := by
  have hmem := hrange
  simp only [NonNative.InRange, mem_append] at hmem
  have hleft : ∀ c ∈ q.left, (row c).val < 2 ^ q.nbBitsPerLimb := fun c hc => hmem c (by simp [hc])
  have hright : ∀ c ∈ q.right, (row c).val < 2 ^ q.nbBitsPerLimb := fun c hc => hmem c (by simp [hc])
  have hmodulus : ∀ c ∈ q.modulus, (row c).val < 2 ^ q.nbBitsPerLimb := fun c hc => hmem c (by simp [hc])
  have hresult : ∀ c ∈ q.result, (row c).val < 2 ^ q.nbBitsPerLimb := fun c hc => hmem c (by simp [hc])
  have hquotient : ∀ c ∈ q.quotient, (row c).val < 2 ^ q.nbBitsPerLimb := fun c hc => hmem c (by simp [hc])
  have hn : n ≤ 15 := (Nat.le_mul_of_pos_left n hb).trans hsize
  have hbits : q.nbBitsPerLimb ≤ 15 := (Nat.le_mul_of_pos_right _ hq.pos).trans hsize
  have hlimb : 2 ^ q.nbBitsPerLimb ≤ 2 ^ 15 := Nat.pow_le_pow_right (by decide) hbits
  -- the sum of an operand's limbs, and with it every coefficient of a product, is far below `2 ^ 64`
  have hsum : ∀ cols : List Column, cols.length = n → (∀ c ∈ cols, (row c).val < 2 ^ q.nbBitsPerLimb) →
      limbsAt 1 row cols ≤ 15 * 2 ^ 15 := fun cols hcols h =>
    (limbsAt_one_le h).trans (Nat.mul_le_mul (hcols ▸ hn) hlimb)
  have hproduct : ∀ {a b : Nat}, a ≤ 15 * 2 ^ 15 → b ≤ 15 * 2 ^ 15 → a * b ≤ 225 * 2 ^ 30 := fun ha hb =>
    (Nat.mul_le_mul ha hb).trans (by decide)
  have hlhs : ∀ d ∈ lhsDigits q row, d < 2 ^ 64 := by
    refine lt_of_eval_one_lt ?_
    rw [(hq.lhsDigits_spec row 1).2]
    have := hproduct (hsum _ hq.left hleft) (hsum _ hq.right hright)
    omega
  have hrhs : ∀ d ∈ rhsDigits q row, d < 2 ^ 64 := by
    refine lt_of_eval_one_lt ?_
    rw [(hq.rhsDigits_spec row 1).2]
    have := hproduct (hsum _ hq.quotient hquotient) (hsum _ hq.modulus hmodulus)
    have := hsum _ hq.result hresult
    omega
  have hprover : q.Holds row → q.Vanishes K row (q.proverCarry row) := fun hholds =>
    hq.vanishes_proverCarry hrange hholds hlhs hrhs
  refine ⟨(hq.vanishes_iff_holds hrange).2 ?_, hprover⟩
  have hvalue : ∀ cols : List Column, cols.length = n → (∀ c ∈ cols, (row c).val < 2 ^ q.nbBitsPerLimb) →
      composeLimbsRow row cols q.nbBitsPerLimb ≤ 2 ^ 15 := fun cols hcols h =>
    (compose_lt h).le.trans (Nat.pow_le_pow_right (by decide) (hcols ▸ hsize))
  have hsmall : |q.defect row| < modulus := by
    have h₁ := Nat.mul_le_mul (hvalue _ hq.left hleft) (hvalue _ hq.right hright)
    have h₂ := Nat.mul_le_mul (hvalue _ hq.quotient hquotient) (hvalue _ hq.modulus hmodulus)
    have h₃ := hvalue _ hq.result hresult
    rw [NonNative.defect, abs_lt, modulus]
    omega
  exact or_iff_not_imp_right.2 fun hdvd => Int.eq_zero_of_abs_lt_dvd (not_not.1 hdvd) hsmall

/-! ### Operands whose defect is the modulus -/

def limb (b v i : Nat) : Nat := v / 2 ^ (b * i) % 2 ^ b

theorem eval_limb (b v n : Nat) : eval (2 ^ b) ((range n).map (limb b v)) = v % 2 ^ (b * n) := by
  induction n generalizing v with
  | zero => simp [Nat.mod_one]
  | succ n ih =>
    have hshift : (range n).map (limb b v ∘ Nat.succ) = (range n).map (limb b (v / 2 ^ b)) := by
      refine map_congr_left fun i _ => ?_
      simp only [limb, Function.comp_apply, Nat.succ_eq_add_one, Nat.mul_add, Nat.mul_one,
        pow_add, Nat.div_div_eq_div_mul]
      rw [mul_comm]
    rw [range_succ_eq_map, map_cons, map_map, hshift, eval_cons, ih, limb, Nat.mul_zero, pow_zero,
      Nat.div_one, Nat.mul_succ, add_comm (b * n), pow_add, Nat.mod_mul]

def operandColumns (n group : Nat) : List Column := (range n).map fun i => ⟨0, 0, group * n + i⟩

/-- Values of the operands with `left = right = 0` and `quotient * modulus + result` the field's modulus. -/
def wrapValue (b n : Nat) : Nat → Nat
  | 2 => 2 ^ (b * n) - 1
  | 3 => modulus % (2 ^ (b * n) - 1)
  | 4 => modulus / (2 ^ (b * n) - 1)
  | _ => 0

def wrapRow (b n : Nat) : Row := fun c => (limb b (wrapValue b n (c.index / n)) (c.index % n) : Element)

theorem wrapRow_operand {b n group i : Nat} (hb : b < 28) (hi : i < n) :
    (wrapRow b n ⟨0, 0, group * n + i⟩).val = limb b (wrapValue b n group) i := by
  have hdiv : (group * n + i) / n = group := by
    rw [mul_comm, Nat.mul_add_div (by omega), Nat.div_eq_of_lt hi, add_zero]
  have hmod : (group * n + i) % n = i := by
    rw [mul_comm, Nat.mul_add_mod, Nat.mod_eq_of_lt hi]
  have hlimb : limb b (wrapValue b n group) i < modulus := by
    have hlt : limb b (wrapValue b n group) i < 2 ^ b := Nat.mod_lt _ (by positivity)
    have hle : 2 ^ b ≤ 2 ^ 27 := Nat.pow_le_pow_right (by decide) (by omega)
    rw [modulus]
    omega
  simp only [wrapRow, hdiv, hmod]
  rw [ZMod.val_natCast, Nat.mod_eq_of_lt hlimb]

variable {b n : Nat}

theorem wrapRow_limbs (group : Nat) (hb : b < 28) :
    (wrapRow b n).limbs (operandColumns n group) = (range n).map (limb b (wrapValue b n group)) := by
  rw [Row.limbs, operandColumns, map_map]
  exact map_congr_left fun i hi => wrapRow_operand hb (mem_range.1 hi)

theorem wrapRow_lt (group : Nat) (hb : b < 28) :
    ∀ c ∈ operandColumns n group, (wrapRow b n c).val < 2 ^ b := by
  intro c hc
  obtain ⟨i, hi, rfl⟩ := List.mem_map.1 hc
  rw [wrapRow_operand hb (mem_range.1 hi)]
  exact Nat.mod_lt _ (by positivity)

/-- From 16 bits on, the operands can hold these values. -/
theorem wrapValue_lt (hsize : 16 ≤ b * n) (group : Nat) : wrapValue b n group < 2 ^ (b * n) := by
  have hle : 2 ^ 16 ≤ 2 ^ (b * n) := Nat.pow_le_pow_right (by decide) hsize
  have hm : 2 ^ 16 - 1 ≤ 2 ^ (b * n) - 1 := by omega
  unfold wrapValue
  split
  · omega
  · have := Nat.mod_lt modulus (show 0 < 2 ^ (b * n) - 1 by omega)
    omega
  · calc modulus / (2 ^ (b * n) - 1) ≤ modulus / (2 ^ 16 - 1) := Nat.div_le_div_left hm (by decide)
      _ < 2 ^ 16 := by decide
      _ ≤ 2 ^ (b * n) := hle
  · positivity

theorem wrapRow_compose (group : Nat) (hb : b < 28) (hsize : 16 ≤ b * n) :
    composeLimbsRow (wrapRow b n) (operandColumns n group) b = wrapValue b n group := by
  rw [composeLimbsRow_eq (wrapRow_lt group hb), wrapRow_limbs group hb, eval_limb,
    Nat.mod_eq_of_lt (wrapValue_lt hsize group)]

theorem exists_wrapQuery (hb : 0 < b ∧ b < 28) (hn : 0 < n) :
    ∃ q, newNonNative 0 b (operandColumns n 0) (operandColumns n 1) (operandColumns n 2) (operandColumns n 3)
        (operandColumns n 4) = .ok q ∧
      q.left = operandColumns n 0 ∧ q.right = operandColumns n 1 ∧ q.modulus = operandColumns n 2 ∧
      q.result = operandColumns n 3 ∧ q.quotient = operandColumns n 4 := by
  have hlength : ∀ group, (operandColumns n group).length = n := fun group => by simp [operandColumns]
  refine newNonNative_eq_ok (r := 0) hb hn (hlength 0) (hlength 1) (hlength 2) (hlength 3) (hlength 4) fun c hc => ?_
  simp only [mem_append, operandColumns, List.mem_map] at hc
  rcases hc with (((⟨i, -, rfl⟩ | ⟨i, -, rfl⟩) | ⟨i, -, rfl⟩) | ⟨i, -, rfl⟩) | ⟨i, -, rfl⟩ <;> exact ⟨rfl, rfl⟩

/-- The identity vanishes on this row for suitable carries, although the defect is the modulus. -/
theorem wrapRow_vanishes (hb : 0 < b ∧ b < 28) (hn : 0 < n) (hsize : 16 ≤ b * n) :
    ∃ q, newNonNative 0 b (operandColumns n 0) (operandColumns n 1) (operandColumns n 2) (operandColumns n 3)
        (operandColumns n 4) = .ok q ∧
      q.InRange (wrapRow b n) ∧ (∃ carry, q.Vanishes K (wrapRow b n) carry) ∧ ¬ q.Holds (wrapRow b n) := by
  obtain ⟨q, hq, hleft, hright, hmodulus, hresult, hquotient⟩ := exists_wrapQuery hb hn
  obtain ⟨hbits, -, -, hlimbs⟩ := newNonNative_spec hq
  have hdefect : q.defect (wrapRow b n) = -(modulus : Int) := by
    rw [NonNative.defect, hbits, hleft, hright, hmodulus, hresult, hquotient, wrapRow_compose 0 hb.2 hsize,
      wrapRow_compose 1 hb.2 hsize, wrapRow_compose 2 hb.2 hsize, wrapRow_compose 3 hb.2 hsize,
      wrapRow_compose 4 hb.2 hsize]
    simp only [wrapValue]
    rw [mul_comm (modulus / _), Nat.div_add_mod]
    simp
  have hrange : q.InRange (wrapRow b n) := by
    rw [NonNative.InRange, hbits, hleft, hright, hmodulus, hresult, hquotient]
    intro c hc
    simp only [mem_append] at hc
    rcases hc with (((hc | hc) | hc) | hc) | hc <;> exact wrapRow_lt _ hb.2 c hc
  refine ⟨q, hq, hrange, (hlimbs.exists_vanishes_iff hrange).2 (by rw [hdefect, Int.dvd_neg]), ?_⟩
  rw [holds_iff_defect, hdefect]
  decide

/-- For `n` limbs of `b` bits, the reduction is exact on every row of limbs in range if and only if the operands have
at most 15 bits. -/
theorem nonNative_exact_iff (K : Type) [Field K] [Algebra Element K] {b n : Nat}
    (hb : 0 < b ∧ b < bits - 3) (hn : 0 < n) :
    (∀ m left right modulus result quotient q, newNonNative m b left right modulus result quotient = .ok q →
        left.length = n → ∀ row, q.InRange row → q.Exact K row) ↔ b * n ≤ 15 := by
  constructor
  · intro h
    by_contra hsize
    obtain ⟨q, hq, hrange, hvanishes, hholds⟩ := wrapRow_vanishes (K := K) hb hn (by omega)
    have hexact := h _ _ _ _ _ _ q hq (by simp [operandColumns]) _ hrange
    exact hholds (hexact.1.1 hvanishes)
  · intro hsize m left right modulus result quotient q hq hlength row hrange
    obtain ⟨hbits, hpos, -, hlimbs⟩ := newNonNative_spec hq
    rw [hlength] at hlimbs
    rw [← hbits] at hpos hsize
    exact exact_of_le hlimbs hrange hpos hsize

/-- Three limbs of 5 bits. -/
theorem nonNative_exact_iff_three :
    ∃ q, newNonNative 0 5 (operandColumns 3 0) (operandColumns 3 1) (operandColumns 3 2) (operandColumns 3 3)
        (operandColumns 3 4) = .ok q ∧ ∀ row, q.InRange row → q.Exact Element row := by
  obtain ⟨q, hq, -⟩ := exists_wrapQuery (b := 5) (n := 3) (by decide) (by decide)
  exact ⟨q, hq, (nonNative_exact_iff Element (by decide) (by decide)).2 (by decide) _ _ _ _ _ _ q hq rfl⟩

/-- One limb of 16 bits: `0 * 0` passes for `32512 * 65535 + 32513`. -/
theorem nonNative_wraps :
    (wrapRow 16 1).limbs (operandColumns 1 0) = [0] ∧ (wrapRow 16 1).limbs (operandColumns 1 1) = [0] ∧
    (wrapRow 16 1).limbs (operandColumns 1 2) = [65535] ∧ (wrapRow 16 1).limbs (operandColumns 1 3) = [32513] ∧
    (wrapRow 16 1).limbs (operandColumns 1 4) = [32512] ∧
    ∀ (K : Type) [Field K] [Algebra Element K],
      ∃ q, newNonNative 0 16 (operandColumns 1 0) (operandColumns 1 1) (operandColumns 1 2) (operandColumns 1 3)
          (operandColumns 1 4) = .ok q ∧
        q.InRange (wrapRow 16 1) ∧ (∃ carry, q.Vanishes K (wrapRow 16 1) carry) ∧ ¬ q.Holds (wrapRow 16 1) :=
  ⟨by decide, by decide, by decide, by decide, by decide, fun K _ _ =>
    wrapRow_vanishes (by decide) (by decide) (by decide)⟩

end Lineth.Wiop

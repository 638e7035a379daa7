import Lineth.Koalabear.Field
import Lineth.Koalabear.PrefixScan
import Lineth.Lib.CyclicSum
import Lineth.Wiop.GrandProduct
import Lineth.Wiop.Table

/-!
# Sums of fractions

A log-derivative sum is the sum of `filter * numerator / denominator` over some fractions and all rows of their
modules. The compiler packs the fractions of a module in groups, by cross products, and gives each group a column `Z`
and a cell with the average of the group over the rows. On every row, `Z` rises from the row before, around the cycle,
by what the row adds and the average takes away. The averages, each times the number of rows, must sum to the result. -/

namespace Lineth.Wiop

variable {F C K : Type}

/-- A leaf at a row of its own module. -/
def Leaf.rowValue [CommSemiring F] [Semiring K] [Algebra F K] (module : C → Nat) (size : Nat → Nat)
    (v : Values C K) (row : Nat) :
    Leaf F C → K
  | .column c shift => v.column c (viewRow (size (module c)) shift row)
  | .columnPosition c position => v.column c ((resolvedRow (size (module c)) position).getD 0)
  | .constant x => algebraMap F K x
  | .constantVector _ x => algebraMap F K x
  | .cell id => v.cell id
  | .coin id => v.coin id
  | .lagrangeSelector m position => if resolvedRow (size m) position = some row then 1 else 0

def Leaf.degreeFactor : Leaf F C → Nat
  | .column _ _ => 1
  | .columnPosition _ _ => 0
  | .constant _ => 0
  | .constantVector _ _ => 1
  | .cell _ => 0
  | .coin _ => 0
  | .lagrangeSelector _ _ => 1

/-- `DegreeFactor` is asked for an expression that is not a polynomial. -/
inductive DegreePanic where
  | div
  | inverse
deriving DecidableEq

def Expression.degreeFactor : Expression (Leaf F C) → Except DegreePanic Nat
  | leaf l => .ok l.degreeFactor
  | add a b | sub a b => do return max (← a.degreeFactor) (← b.degreeFactor)
  | mul a b => do return (← a.degreeFactor) + (← b.degreeFactor)
  | double a | negate a => a.degreeFactor
  | square a => do return 2 * (← a.degreeFactor)
  -- the operands are asked first
  | div a b => do
    let _ ← a.degreeFactor
    let _ ← b.degreeFactor
    .error .div
  | inverse a => do
    let _ ← a.degreeFactor
    .error .inverse

/-- There is no quotient and no inverse. -/
def Expression.IsPolynomial {L : Type} : Expression L → Prop
  | leaf _ => True
  | add a b | sub a b | mul a b => a.IsPolynomial ∧ b.IsPolynomial
  | double a | negate a | square a => a.IsPolynomial
  | div _ _ | inverse _ => False

namespace LogDerivative

/-! ### The query -/

structure Fraction (K : Type) where
  filter : Option (Factor K)
  numerator : Factor K
  denominator : Factor K
  module : Nat
  module_eq : numerator.module?.or denominator.module? = some module
  ofModule : ∀ e ∈ numerator :: denominator :: filter.toList, ∀ l ∈ e.leaves, ∀ m ∈ l.module, m = module

def Fraction.IsPolynomial (f : Fraction K) : Prop :=
  ∀ e ∈ f.numerator :: f.denominator :: f.filter.toList, e.IsPolynomial

section

variable [Field K] {mods : Nat → Module} (rt : Runtime mods K)

def valueAt (e : Factor K) (row : Nat) : K := e.eval (Leaf.rowValue Column.module rt.runtimeSize rt.values row)

/-- Without a filter, every row counts. -/
def Fraction.filterAt (f : Fraction K) (row : Nat) : K := f.filter.elim 1 fun e => valueAt rt e row

def Fraction.denominatorAt (f : Fraction K) (row : Nat) : K := valueAt rt f.denominator row

def Fraction.at (f : Fraction K) (row : Nat) : K :=
  f.filterAt rt row * (valueAt rt f.numerator row / f.denominatorAt rt row)

def total (fractions : List (Fraction K)) : K :=
  (fractions.map fun f => ∑ row ∈ Finset.range (rt.runtimeSize f.module), f.at rt row).sum

end

/-! ### The compiler -/

def packingArity : Nat := 4

def maxPackedDegree : Nat := 5

structure FractionBucket (K : Type) where
  module : Nat
  fractions : List (Fraction K)

/-- The fraction goes to the bucket of its module, which is opened if there is none. -/
def addToBucket (f : Fraction K) : List (FractionBucket K) → List (FractionBucket K)
  | [] => [⟨f.module, [f]⟩]
  | b :: bs => if b.module = f.module then { b with fractions := b.fractions ++ [f] } :: bs else b :: addToBucket f bs

def bucketByModule (fractions : List (Fraction K)) : List (FractionBucket K) :=
  fractions.foldl (fun bs f => addToBucket f bs) []

def packedDegree (fractions : List (Fraction K)) : Except DegreePanic Nat := do
  let dens ← fractions.mapM fun f => f.denominator.degreeFactor
  let sumDen := dens.sum
  fractions.foldlM (fun deg f => do
    let num ← f.numerator.degreeFactor
    let num ← match f.filter with
      | some e => do pure (num + (← e.degreeFactor))
      | none => pure num
    return max deg (num + sumDen - (← f.denominator.degreeFactor))) (1 + sumDen)

structure Packed (K : Type) where
  first : Fraction K
  rest : List (Fraction K)

def Packed.all (p : Packed K) : List (Fraction K) := p.first :: p.rest

/-- How many of the fractions the first group takes, if it has `n` already. -/
def growGroup (fractions : List (Fraction K)) : Nat → Nat → Except DegreePanic Nat
  | 0, n => .ok n
  | fuel + 1, n =>
    if n < min packingArity fractions.length then do
      let degree ← packedDegree (fractions.take (n + 1))
      if degree ≤ maxPackedDegree then growGroup fractions fuel (n + 1) else return n
    else .ok n

/-- The groups of at most `fuel` fractions. -/
def packLoop : Nat → List (Fraction K) → Except DegreePanic (List (Packed K))
  | 0, _ => .ok []
  | _ + 1, [] => .ok []
  | fuel + 1, f :: fs => do
    let n ← growGroup (f :: fs) packingArity 1
    return ⟨f, fs.take (n - 1)⟩ :: (← packLoop fuel (fs.drop (n - 1)))

def packFractions (fractions : List (Fraction K)) : Except DegreePanic (List (Packed K)) :=
  packLoop fractions.length fractions

namespace Packed

variable (p : Packed K)

def zDen : Factor K := p.rest.foldl (fun den f => .mul den f.denominator) p.first.denominator

/-- The numerator of the fraction `f` at position `j`, times the denominators of the others. -/
def term (f : Fraction K) (j : Nat) : Factor K :=
  (p.all.eraseIdx j).foldl (fun t g => .mul t g.denominator) (f.filter.elim f.numerator fun e => .mul e f.numerator)

def zNum : Factor K := (p.rest.zipIdx 1).foldl (fun num f => .add num (p.term f.1 f.2)) (p.term p.first 0)

/-- `zNum − (Z − Z[i−1] + C)·zDen`; the cell 0 is the average. -/
def recurrence : Expression (Leaf K ZColumn) :=
  .sub p.zNum.lift (.mul (.add (.sub (.leaf (.column .z 0)) (.leaf (.column .z (-1)))) (.leaf (.cell 0))) p.zDen.lift)

end Packed

structure ZEntry (K : Type) where
  module : Nat
  packed : Packed K
  recurrence : Vanishing (Leaf K ZColumn)

/-- The recurrence is checked on every row. -/
def buildZ (m : Nat) (p : Packed K) : ZEntry K := ⟨m, p, ⟨p.recurrence, []⟩⟩

def compileQuery (fractions : List (Fraction K)) : Except DegreePanic (List (ZEntry K)) := do
  let entries ← (bucketByModule fractions).mapM fun b => do
    let groups ← packFractions b.fractions
    return groups.map (buildZ b.module)
  return entries.flatten

/-! ### What the verifier checks -/

structure ZValues (K : Type) where
  z : Nat → K
  average : K

section

variable [Field K] {mods : Nat → Module} (rt : Runtime mods K)

def ZEntry.Holds (e : ZEntry K) (v : ZValues K) : Prop :=
  e.recurrence.Holds (rt.runtimeSize e.module)
    (Leaf.rowValue (ZColumn.module e.module) rt.runtimeSize (rt.withZ v.z v.average))

section

variable (entries : List (ZEntry K)) (vs : List (ZValues K)) (result : K)

def FinalSumCheck : Prop :=
  (List.zipWith (fun e v => v.average * (rt.runtimeSize e.module : K)) entries vs).sum - result = 0

/-- The columns and averages satisfy the recurrences, and the verifier accepts the result. -/
def Accepts : Prop :=
  List.Forall₂ (ZEntry.Holds rt) entries vs ∧ FinalSumCheck rt entries vs result

end

end

end LogDerivative

end Lineth.Wiop

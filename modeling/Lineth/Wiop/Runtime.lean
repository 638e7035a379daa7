import Mathlib.RingTheory.MvPolynomial.Basic
import Mathlib.RingTheory.Localization.FractionRing
import Mathlib.RingTheory.SimpleRing.Principal
import Lineth.Wiop.Expression

/-!
# Modules and runtimes

Columns are grouped in modules. A module has a size when the system is compiled, or gets one with the runtime, which
also assigns the columns, the coins and the cells. -/

namespace Lineth.Wiop

structure Module where
  /-- 0 as long as no size is set. -/
  size : Nat
  isDynamic : Bool
  dynamic_unsized : isDynamic = true → size = 0

def Module.isSized (m : Module) : Bool := m.size > 0

def Module.sized (n : Nat) : Module := ⟨n, false, fun h => Bool.noConfusion h⟩

/-- The values of a run over the field `K`; `column c i` is the row `i` of the padded column. -/
structure Runtime (mods : Nat → Module) (K : Type) where
  runtimeSize : Nat → Nat
  column : Column → Nat → K
  coin : Nat → K
  cell : Nat → K
  runtimeSize_pos : ∀ m, 0 < runtimeSize m
  runtimeSize_eq : ∀ m, (mods m).isSized → runtimeSize m = (mods m).size

/-- The row that a view shifted by `shift` reads at the row `row`. -/
def viewRow (n : Nat) (shift : Int) (row : Nat) : Nat := ((row + shift) % n).toNat

/-- `ColumnPosition.resolvedRow`; the source panics outside of the column. -/
def resolvedRow (n : Nat) (position : Int) : Option Nat :=
  let row := if position < 0 then position + n else position
  if row < 0 ∨ n ≤ row then none else some row.toNat

structure Values (C K : Type) where
  column : C → Nat → K
  coin : Nat → K
  cell : Nat → K

def Leaf.value {F C K : Type} [CommSemiring F] [Semiring K] [Algebra F K] (v : Values C K) (n row : Nat) : Leaf F C → K
  | .column c shift => v.column c (viewRow n shift row)
  | .columnPosition c position => v.column c ((resolvedRow n position).getD 0)
  | .constant x => algebraMap F K x
  | .constantVector _ x => algebraMap F K x
  | .cell id => v.cell id
  | .coin id => v.coin id
  | .lagrangeSelector _ position => if resolvedRow n position = some row then 1 else 0

variable {mods : Nat → Module} {K : Type}

def Runtime.values (rt : Runtime mods K) : Values Column K := ⟨rt.column, rt.coin, rt.cell⟩

/-! ### Formal coins -/

/-- The fractions of polynomials in the coins. -/
abbrev Formal (K : Type) [Field K] := FractionRing (MvPolynomial Nat K)

variable [Field K]

/-- The run with variables in the place of its coins. -/
noncomputable def Runtime.formal (rt : Runtime mods K) : Runtime mods (Formal K) where
  runtimeSize := rt.runtimeSize
  column c i := algebraMap K (Formal K) (rt.column c i)
  coin id := algebraMap (MvPolynomial Nat K) (Formal K) (.X id)
  cell id := algebraMap K (Formal K) (rt.cell id)
  runtimeSize_pos := rt.runtimeSize_pos
  runtimeSize_eq := rt.runtimeSize_eq

end Lineth.Wiop

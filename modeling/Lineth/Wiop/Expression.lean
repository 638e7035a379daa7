import Mathlib.Algebra.Field.Basic
import Lineth.Lib.Except

/-!
# Symbolic expressions

The arithmetic expressions that constraints are made of, over columns, constants, cells, coins and Lagrange selectors.
An expression has a value on a row of the trace, or at a point outside it, wherever its leaves have one. -/

namespace Lineth.Wiop

open Except List

structure Column where
  module : Nat
  round : Nat
  index : Nat
deriving DecidableEq

/-- The leaves of expressions over columns `C`, with constants in `F`. -/
inductive Leaf (F C : Type) where
  /-- `ColumnView`: row `i` reads the column at row `i + shift`. -/
  | column (c : C) (shift : Int)
  /-- `ColumnPosition`: one row of the column; a negative position counts from the end. -/
  | columnPosition (c : C) (position : Int)
  | constant (v : F)
  /-- The same value on every row of a module. -/
  | constantVector (module : Nat) (v : F)
  | cell (id : Nat)
  | coin (id : Nat)
  /-- 1 on one row of a module, 0 on the others; a negative position counts from the end. -/
  | lagrangeSelector (module : Nat) (position : Int)

inductive Expression (L : Type) where
  | leaf (l : L)
  | add (a b : Expression L)
  | mul (a b : Expression L)
  | sub (a b : Expression L)
  | div (a b : Expression L)
  | double (a : Expression L)
  | square (a : Expression L)
  | negate (a : Expression L)
  | inverse (a : Expression L)

variable {L L' K : Type}

namespace Expression

def leaves : Expression L → List L
  | leaf l => [l]
  | add a b | mul a b | sub a b | div a b => a.leaves ++ b.leaves
  | double a | square a | negate a | inverse a => a.leaves

/-- The expression with its leaves replaced, if all of them can be. -/
def mapM {ε : Type} (f : L → Except ε L') : Expression L → Except ε (Expression L')
  | leaf l => do return leaf (← f l)
  | add a b => do return add (← a.mapM f) (← b.mapM f)
  | mul a b => do return mul (← a.mapM f) (← b.mapM f)
  | sub a b => do return sub (← a.mapM f) (← b.mapM f)
  | div a b => do return div (← a.mapM f) (← b.mapM f)
  | double a => do return double (← a.mapM f)
  | square a => do return square (← a.mapM f)
  | negate a => do return negate (← a.mapM f)
  | inverse a => do return inverse (← a.mapM f)

def map (f : L → L') : Expression L → Expression L'
  | leaf l => leaf (f l)
  | add a b => add (a.map f) (b.map f)
  | mul a b => mul (a.map f) (b.map f)
  | sub a b => sub (a.map f) (b.map f)
  | div a b => div (a.map f) (b.map f)
  | double a => double (a.map f)
  | square a => square (a.map f)
  | negate a => negate (a.map f)
  | inverse a => inverse (a.map f)

end Expression

/-- The value for given values of the leaves; the inverse of 0 is 0. -/
def Expression.eval [Field K] (value : L → K) : Expression L → K
  | .leaf l => value l
  | .add a b => a.eval value + b.eval value
  | .mul a b => a.eval value * b.eval value
  | .sub a b => a.eval value - b.eval value
  | .div a b => a.eval value / b.eval value
  | .double a => a.eval value + a.eval value
  | .square a => a.eval value * a.eval value
  | .negate a => -a.eval value
  | .inverse a => (a.eval value)⁻¹

namespace Expression

variable {e : Expression L}

theorem eval_congr [Field K] {value value' : L → K} (h : ∀ l ∈ e.leaves, value l = value' l) :
    e.eval value = e.eval value' := by
  induction e with
  | leaf l => exact h l (by simp [leaves])
  | add a b iha ihb | mul a b iha ihb | sub a b iha ihb | div a b iha ihb =>
    rw [eval, eval, iha fun l hl => h l (mem_append_left _ hl), ihb fun l hl => h l (mem_append_right _ hl)]
  | double a ih | square a ih | negate a ih | inverse a ih => rw [eval, eval, ih h]

@[simp] theorem leaves_map (f : L → L') (e : Expression L) : (e.map f).leaves = e.leaves.map f := by
  induction e with
  | leaf l => rfl
  | add a b iha ihb | mul a b iha ihb | sub a b iha ihb | div a b iha ihb => simp [map, leaves, iha, ihb]
  | double a ih | square a ih | negate a ih | inverse a ih => exact ih

theorem eval_map [Field K] (f : L → L') (value : L' → K) (e : Expression L) :
    (e.map f).eval value = e.eval (value ∘ f) := by
  induction e with
  | leaf l => rfl
  | add a b iha ihb | mul a b iha ihb | sub a b iha ihb | div a b iha ihb => simp [map, eval, iha, ihb]
  | double a ih | square a ih | negate a ih | inverse a ih => simp [map, eval, ih]

theorem mapM_of_ok {ε : Type} {f : L → Except ε L'} {g : L → L'}
    (h : ∀ l ∈ e.leaves, f l = .ok (g l)) : e.mapM f = .ok (e.map g) := by
  induction e with
  | leaf l => rw [mapM, h l (by simp [leaves])]; rfl
  | add a b iha ihb | mul a b iha ihb | sub a b iha ihb | div a b iha ihb =>
    rw [mapM, iha fun l hl => h l (mem_append_left _ hl), ihb fun l hl => h l (mem_append_right _ hl)]
    rfl
  | double a ih | square a ih | negate a ih | inverse a ih => rw [mapM, ih h]; rfl

theorem exists_ok_of_mapM {ε : Type} {f : L → Except ε L'} {e' : Expression L'}
    (h : e.mapM f = .ok e') : ∀ l ∈ e.leaves, ∃ l', f l = .ok l' := by
  induction e generalizing e' with
  | leaf l =>
    obtain ⟨l', hl', -⟩ := bind_eq_ok.1 h
    intro l'' hl''
    rw [mem_singleton.1 hl'']
    exact ⟨l', hl'⟩
  | add a b iha ihb | mul a b iha ihb | sub a b iha ihb | div a b iha ihb =>
    obtain ⟨a', ha, h⟩ := bind_eq_ok.1 h
    obtain ⟨b', hb, -⟩ := bind_eq_ok.1 h
    intro l hl
    rcases mem_append.1 hl with hl | hl
    · exact iha ha l hl
    · exact ihb hb l hl
  | double a ih | square a ih | negate a ih | inverse a ih =>
    obtain ⟨a', ha, -⟩ := bind_eq_ok.1 h
    exact ih ha

end Expression

end Lineth.Wiop

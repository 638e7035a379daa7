import Mathlib.Algebra.Polynomial.Inductions
import Lineth.Wiop.Runtime

/-!
# Tables

A table is a list of columns or constants of one module, with an optional selector, whose rows are the tuples on the
rows selected. -/

namespace Lineth.Wiop

variable {K : Type}

structure ColumnView where
  column : Column
  shiftingOffset : Int
deriving DecidableEq

/-- One position of the rows of a table: a view, or a constant of a module. -/
inductive TableEntry (K : Type) where
  | view (cv : ColumnView)
  | const (module : Nat) (c : K)
deriving DecidableEq

namespace TableEntry

def module : TableEntry K → Nat
  | view cv => cv.column.module
  | const m _ => m

def leaf : TableEntry K → Leaf K Column
  | view cv => .column cv.column cv.shiftingOffset
  | const m c => .constantVector m c

end TableEntry

structure Table (K : Type) where
  columns : List (TableEntry K)
  /-- Without a selector, every row is selected. -/
  selector : Option ColumnView
  module : Nat
  columns_ne_nil : columns ≠ []
  columns_module : ∀ e ∈ columns, e.module = module
  selector_module : ∀ cv ∈ selector, cv.column.module = module
  has_view : selector.isSome ∨ ∃ cv, TableEntry.view cv ∈ columns

namespace Table

def width (t : Table K) : Nat := t.columns.length

end Table

inductive LookupKind where
  | inclusion
  | permutation
deriving DecidableEq

structure TableRelationQuery (K : Type) where
  kind : LookupKind
  A : List (Table K)
  B : List (Table K)
  isReduced : Bool
  A_ne_nil : A ≠ []
  B_ne_nil : B ≠ []

def columnSizeMaxSupported : Nat := 2 ^ 22

/-- The rows that are known when the system is compiled; a module without a size counts as the largest. -/
def staticTableRows (mods : Nat → Module) (tables : List (Table K)) : Nat :=
  (tables.map fun t => if (mods t.module).isSized then (mods t.module).size else columnSizeMaxSupported).sum

/-! ### The rows of a table -/

section Rows

variable [Field K] {mods : Nat → Module} (rt : Runtime mods K)

def Runtime.entry (n row : Nat) (e : TableEntry K) : K := e.leaf.value rt.values n row

def Runtime.selectorValue (n row : Nat) (cv : ColumnView) : K := rt.column cv.column (viewRow n cv.shiftingOffset row)

def Runtime.Selects (t : Table K) (row : Nat) : Prop :=
  ∀ cv ∈ t.selector, rt.selectorValue (rt.runtimeSize t.module) row cv = 1

instance [DecidableEq K] (t : Table K) (row : Nat) : Decidable (rt.Selects t row) :=
  inferInstanceAs (Decidable (∀ cv ∈ t.selector, _))

def Runtime.tuple (t : Table K) (row : Nat) : List K := t.columns.map (rt.entry (rt.runtimeSize t.module) row)

def Runtime.tableRows [DecidableEq K] (t : Table K) : List (List K) :=
  ((List.range (rt.runtimeSize t.module)).filter (rt.Selects t)).map (rt.tuple t)

def Runtime.rows [DecidableEq K] (tables : List (Table K)) : List (List K) := tables.flatMap rt.tableRows

def Runtime.Binary (t : Table K) : Prop :=
  ∀ cv ∈ t.selector, ∀ row < rt.runtimeSize t.module, rt.selectorValue (rt.runtimeSize t.module) row cv = 0 ∨
    rt.selectorValue (rt.runtimeSize t.module) row cv = 1

end Rows

end Lineth.Wiop

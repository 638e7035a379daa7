import Mathlib.Data.List.GetD
import Lineth.Lib.RunningProduct
import Lineth.Wiop.Vanishing

/-!
# Grand products

A grand product is the product of some numerators over that of some denominators, over all rows of their modules. The
compiler gives each group of factors a column `Z` with its running product: a recurrence on the rows, a local
constraint on the first row, and an opening of the last. The product of the openings must be the result. The cancelled
rows of the recurrence are derived from the shifts of all its views, those of the factors included: a shifted factor
takes rows away from the recurrence, and after such a row `Z` can start anew. -/

namespace Lineth.Wiop

open Except List Expression RunningProduct

variable {K : Type}

/-! ### The query -/

abbrev Factor (K : Type) := Expression (Leaf K Column)

def Leaf.module : Leaf K Column → Option Nat
  | .column c _ => some c.module
  | .constantVector m _ => some m
  | .lagrangeSelector m _ => some m
  | _ => none

/-- `Expression.Module`: that of the first vector-valued leaf. -/
def Factor.module? (e : Factor K) : Option Nat := e.leaves.findSome? Leaf.module

/-- The module of a factor, which is vector-valued. -/
def Factor.module (e : Factor K) : Nat := e.module?.getD 0

structure GrandProduct (K : Type) where
  numerators : List (Factor K)
  denominators : List (Factor K)

section

variable {K' : Type} [Field K] [Field K'] [Algebra K K'] {mods : Nat → Module} (rt : Runtime mods K')

def Runtime.factorAt (e : Factor K) (row : Nat) : K' := e.eval (Leaf.value rt.values (rt.runtimeSize e.module) row)

def Runtime.factorProduct (e : Factor K) : K' := ∏ row ∈ Finset.range (rt.runtimeSize e.module), rt.factorAt e row

def Runtime.productOverRows (factors : List (Factor K)) : K' := (factors.map rt.factorProduct).prod

end

/-! ### The compiler -/

/-- The columns of the constraints of a group: those of the factors, and the running product. -/
inductive ZColumn where
  | witness (c : Column)
  | z

def packingArity : Nat := 3

def divCeil (a b : Nat) : Nat := if b * (a / b) < a then a / b + 1 else a / b

def subslice {α : Type} (xs : List α) (start stop : Nat) : List α := (xs.take stop).drop start

/-- The factors of a module, and the modules in the order in which they first appear. -/
def bucketByModule (factors : List (Factor K)) (seedOrder : List Nat) : (Nat → List (Factor K)) × List Nat :=
  (fun m => factors.filter fun e => e.module = m,
    factors.foldl (fun order e => if e.module ∈ order then order else order ++ [e.module]) seedOrder)

structure ZGroup (K : Type) where
  module : Nat
  packedNum : List (Factor K)
  packedDen : List (Factor K)

def packModule (m : Nat) (nums dens : List (Factor K)) : List (ZGroup K) :=
  (range (max (divCeil nums.length packingArity) (divCeil dens.length packingArity))).map fun k =>
    { module := m
      packedNum := subslice nums (k * packingArity) ((k + 1) * packingArity)
      packedDen := subslice dens (k * packingArity) ((k + 1) * packingArity) }

def GrandProduct.groups (gp : GrandProduct K) : List (ZGroup K) :=
  let (numByMod, modOrder) := bucketByModule gp.numerators []
  let (denByMod, modOrder) := bucketByModule gp.denominators modOrder
  modOrder.flatMap fun m => packModule m (numByMod m) (denByMod m)

def productOrOne [One K] (m : Nat) : List (Factor K) → Factor K
  | [] => .leaf (.constantVector m 1)
  | f :: fs => fs.foldl .mul f

structure ZEntry (K : Type) where
  module : Nat
  recurrence : Option (Vanishing (Leaf K ZColumn))
  boundary : Expression (Leaf K ZColumn)
  opening : Expression (Leaf K ZColumn)

/-- A leaf of a factor in a constraint; the cell 0 there is the opening of the last row. -/
def Leaf.lift : Leaf K Column → Leaf K ZColumn
  | .column c shift => .column (.witness c) shift
  | .columnPosition c position => .columnPosition (.witness c) position
  | .constant v => .constant v
  | .constantVector m v => .constantVector m v
  | .cell id => .cell (id + 1)
  | .coin id => .coin id
  | .lagrangeSelector m position => .lagrangeSelector m position

def ZColumn.module (m : Nat) : ZColumn → Nat
  | witness c => c.module
  | z => m

def Factor.lift (e : Factor K) : Expression (Leaf K ZColumn) := e.map Leaf.lift

def ZGroup.zNum [One K] (g : ZGroup K) : Expression (Leaf K ZColumn) := (productOrOne g.module g.packedNum).lift

def ZGroup.zDen [One K] (g : ZGroup K) : Expression (Leaf K ZColumn) := (productOrOne g.module g.packedDen).lift

/-- `Z[i]·zDen − Z[i−1]·zNum`. -/
def ZGroup.recurrence [One K] (g : ZGroup K) : Expression (Leaf K ZColumn) :=
  .sub (.mul (.leaf (.column .z 0)) g.zDen) (.mul (.leaf (.column .z (-1))) g.zNum)

/-- `Z[0]·zDen − zNum`. -/
def ZGroup.init [One K] (g : ZGroup K) : Expression (Leaf K ZColumn) :=
  .sub (.mul (.leaf (.column .z 0)) g.zDen) g.zNum

def endpointPos (m : Module) : Int := if m.isDynamic then -1 else m.size - 1

def buildZ [One K] (mods : Nat → Module) (g : ZGroup K) : Except LocalConstraintPanic (ZEntry K) := do
  let m := mods g.module
  let boundary ← newLocalConstraint (fun c => mods (c.module g.module)) g.init 0
  return {
    module := g.module
    recurrence := if m.isDynamic ∨ m.size > 1 then some (newVanishing g.recurrence) else none
    boundary
    opening := .sub (.leaf (.cell 0)) (.leaf (.columnPosition .z (endpointPos m))) }

def compileGrandProduct [One K] (mods : Nat → Module) (gp : GrandProduct K) :
    Except LocalConstraintPanic (List (ZEntry K)) :=
  gp.groups.mapM (buildZ mods)

/-! ### What the verifier checks -/

section

variable [Field K] {mods : Nat → Module} (rt : Runtime mods K)

/-- The run with a running product and the opening of its last row. -/
def Runtime.withZ (z : Nat → K) (zFinal : K) : Values ZColumn K where
  column
    | .witness c => rt.column c
    | .z => z
  coin := rt.coin
  cell
    | 0 => zFinal
    | id + 1 => rt.cell id

structure ZEntry.Holds (e : ZEntry K) (z : Nat → K) (zFinal : K) : Prop where
  recurrence : ∀ v ∈ e.recurrence,
    v.Holds (rt.runtimeSize e.module) (Leaf.value (rt.withZ z zFinal) (rt.runtimeSize e.module))
  boundary : ScalarHolds (rt.withZ z zFinal) (rt.runtimeSize e.module) e.boundary
  opening : ScalarHolds (rt.withZ z zFinal) (rt.runtimeSize e.module) e.opening

/-- Some columns satisfy all constraints, and `FinalProductCheck` accepts the result. -/
def Discharges (entries : List (ZEntry K)) (result : K) : Prop :=
  ∃ zs : List ((Nat → K) × K), List.Forall₂ (fun e z => e.Holds rt z.1 z.2) entries zs ∧ (zs.map Prod.snd).prod = result

/-- The grand product compiles, to constraints that leave the result no choice. -/
def GrandProduct.Exact (gp : GrandProduct K) : Prop :=
  ∃ entries, compileGrandProduct mods gp = .ok entries ∧ ∀ result,
    Discharges rt entries result ↔ result = rt.productOverRows gp.numerators / rt.productOverRows gp.denominators

end

/-! ### What the constraints of a group say -/

/-- A leaf of a factor of the module `m`. -/
def Leaf.OfModule (m : Nat) : Leaf K Column → Prop
  | .column c _ => c.module = m
  | .columnPosition _ _ => False
  | _ => True

/-- All views of a factor are of its module. -/
def Factor.WellFormed (e : Factor K) : Prop := ∀ l ∈ e.leaves, l.OfModule e.module

def ZGroup.factors (g : ZGroup K) : List (Factor K) := g.packedNum ++ g.packedDen

def ZGroup.WellFormed (g : ZGroup K) : Prop := ∀ e ∈ g.factors, e.module = g.module ∧ e.WellFormed

/-- The shifts of the views of the factors. -/
def ZGroup.shifts (g : ZGroup K) : List Int := g.factors.flatMap collectShifts

section

variable [Field K] {mods : Nat → Module} (rt : Runtime mods K)

/-- The recurrence is registered, and no view of a factor wraps around on the row. -/
def ZGroup.Checked (g : ZGroup K) (row : Nat) : Prop :=
  ((mods g.module).isDynamic ∨ (mods g.module).size > 1) ∧
    ∀ s ∈ g.shifts, 0 ≤ row + s ∧ row + s < rt.runtimeSize g.module

/-- The views of the first row can be resolved: without a size, only those of rows that turn out to exist. -/
def ZGroup.Resolves (g : ZGroup K) : Prop :=
  (mods g.module).isSized ∨ ∀ s ∈ g.shifts, 0 ≤ s ∧ s < rt.runtimeSize g.module

def ZGroup.runningProduct (g : ZGroup K) : RunningProduct K where
  rows := rt.runtimeSize g.module
  num row := (g.packedNum.map fun e => rt.factorAt e row).prod
  den row := (g.packedDen.map fun e => rt.factorAt e row).prod
  checked := g.Checked rt
  rows_pos := rt.runtimeSize_pos _

end

variable {m : Nat}

theorem mem_leaves_productOrOne [One K] {fs : List (Factor K)} {l : Leaf K Column} :
    l ∈ (productOrOne m fs).leaves ↔ (∃ f ∈ fs, l ∈ f.leaves) ∨ fs = [] ∧ l = .constantVector m 1 := by
  have hfold (fs : List (Factor K)) (f : Factor K) :
      l ∈ (fs.foldl mul f).leaves ↔ l ∈ f.leaves ∨ ∃ f' ∈ fs, l ∈ f'.leaves := by
    induction fs generalizing f with
    | nil => simp
    | cons f' fs ih => simp [ih, leaves, or_assoc]
  cases fs with
  | nil => simp [productOrOne, leaves]
  | cons f fs => simp [productOrOne, hfold]

theorem eval_productOrOne [Field K] (v : Values Column K) (n row m : Nat) (fs : List (Factor K)) :
    (productOrOne m fs).eval (Leaf.value v n row) = (fs.map fun e => e.eval (Leaf.value v n row)).prod := by
  have hfold (fs : List (Factor K)) (f : Factor K) : (fs.foldl mul f).eval (Leaf.value v n row) =
      f.eval (Leaf.value v n row) * (fs.map fun e => e.eval (Leaf.value v n row)).prod := by
    induction fs generalizing f with
    | nil => simp
    | cons f' fs ih => rw [foldl_cons, ih, eval, map_cons, prod_cons, mul_assoc]
  cases fs with
  | nil => simp [productOrOne, eval, Leaf.value]
  | cons f fs => rw [productOrOne, hfold, map_cons, prod_cons]

theorem column_mem_lift {e : Factor K} {c : ZColumn} {s : Int} :
    .column c s ∈ e.lift.leaves ↔ ∃ c', c = .witness c' ∧ .column c' s ∈ e.leaves := by
  rw [Factor.lift, leaves_map, mem_map]
  constructor
  · rintro ⟨l, hl, h⟩
    cases l with
    | column c' s' =>
      cases h
      exact ⟨c', rfl, hl⟩
    | _ => cases h
  · rintro ⟨c', rfl, h⟩
    exact ⟨_, h, rfl⟩

variable {g : ZGroup K}

theorem ZGroup.mem_shifts {s : Int} :
    s ∈ g.shifts ↔ s ≠ 0 ∧ ∃ e ∈ g.factors, ∃ c, .column c s ∈ e.leaves := by
  simp only [shifts, mem_flatMap, mem_collectShifts]
  constructor
  · rintro ⟨e, he, hs, hc⟩
    exact ⟨hs, e, he, hc⟩
  · rintro ⟨hs, e, he, hc⟩
    exact ⟨e, he, hs, hc⟩

theorem ZGroup.mem_shifts_iff [One K] {s : Int} : s ∈ g.shifts ↔ s ≠ 0 ∧ ∃ c,
    .column c s ∈ g.zNum.leaves ∨
      .column c s ∈ g.zDen.leaves := by
  simp only [mem_shifts, factors, zNum, zDen, column_mem_lift, mem_leaves_productOrOne, mem_append]
  refine and_congr_right fun _ => ⟨?_, ?_⟩
  · rintro ⟨e, he | he, c, hc⟩
    · exact ⟨.witness c, .inl ⟨c, rfl, .inl ⟨e, he, hc⟩⟩⟩
    · exact ⟨.witness c, .inr ⟨c, rfl, .inl ⟨e, he, hc⟩⟩⟩
  · rintro ⟨c, ⟨c', -, ⟨e, he, hc⟩ | ⟨-, h⟩⟩ | ⟨c', -, ⟨e, he, hc⟩ | ⟨-, h⟩⟩⟩
    · exact ⟨e, .inl he, c', hc⟩
    · cases h
    · exact ⟨e, .inr he, c', hc⟩
    · cases h

section

variable [Field K] {mods : Nat → Module} {rt : Runtime mods K} {g : ZGroup K}

theorem eval_lift (e : Factor K) (z : Nat → K) (zFinal : K) (n row : Nat) :
    e.lift.eval (Leaf.value (rt.withZ z zFinal) n row) = e.eval (Leaf.value rt.values n row) := by
  rw [Factor.lift, eval_map]
  refine eval_congr fun l _ => ?_
  cases l <;> rfl

theorem ZGroup.WellFormed.eval_factors (hg : g.WellFormed) {fs : List (Factor K)} (hfs : ∀ e ∈ fs, e ∈ g.factors)
    (z : Nat → K) (zFinal : K) (row : Nat) :
    (productOrOne g.module fs).lift.eval (Leaf.value (rt.withZ z zFinal) (rt.runtimeSize g.module) row) =
      (fs.map fun e => rt.factorAt e row).prod := by
  rw [eval_lift, eval_productOrOne]
  refine congrArg prod (map_congr_left fun e he => ?_)
  rw [Runtime.factorAt, (hg e (hfs e he)).1]

theorem ZGroup.WellFormed.eval_num (hg : g.WellFormed) (z : Nat → K) (zFinal : K) (row : Nat) :
    g.zNum.eval (Leaf.value (rt.withZ z zFinal) (rt.runtimeSize g.module) row) =
      (g.runningProduct rt).num row := hg.eval_factors (fun _ he => mem_append_left _ he) z zFinal row

theorem ZGroup.WellFormed.eval_den (hg : g.WellFormed) (z : Nat → K) (zFinal : K) (row : Nat) :
    g.zDen.eval (Leaf.value (rt.withZ z zFinal) (rt.runtimeSize g.module) row) =
      (g.runningProduct rt).den row := hg.eval_factors (fun _ he => mem_append_right _ he) z zFinal row

variable {n row : Nat}

theorem ZGroup.cancels_recurrence (hrow : row + 1 < n) :
    (newVanishing g.recurrence).Cancels n (row + 1) ↔
      ∃ s ∈ g.shifts, ¬ (0 ≤ (row + 1 : Nat) + s ∧ (row + 1 : Nat) + s < n) := by
  rw [cancels_newVanishing hrow]
  constructor
  · rintro ⟨c, s, hc, h⟩
    refine ⟨s, ?_, by omega⟩
    simp only [recurrence, leaves, mem_append, mem_singleton] at hc
    rcases hc with (hz | hc) | hz | hc
    · cases hz
      omega
    · exact mem_shifts_iff.2 ⟨by omega, c, .inr hc⟩
    · cases hz
      omega
    · exact mem_shifts_iff.2 ⟨by omega, c, .inl hc⟩
  · rintro ⟨s, hs, h⟩
    obtain ⟨-, c, hc⟩ := mem_shifts_iff.1 hs
    refine ⟨c, s, ?_, by omega⟩
    simp only [recurrence, leaves, mem_append, mem_singleton]
    rcases hc with hc | hc
    · exact .inr (.inr hc)
    · exact .inl (.inr hc)

theorem ZGroup.cancels_recurrence_zero {n : Nat} (hn : 0 < n) : (newVanishing g.recurrence).Cancels n 0 := by
  rw [cancels_newVanishing hn]
  exact ⟨.z, -1, by simp [recurrence, leaves], .inr (by omega)⟩

theorem viewRow_zero (h : row < n) : viewRow n 0 row = row := by
  rw [viewRow, add_zero, Int.emod_eq_of_lt (by omega) (by omega), Int.toNat_natCast]

theorem viewRow_neg_one (h : row + 1 < n) : viewRow n (-1) (row + 1) = row := by
  have : ((row + 1 : Nat) : Int) + -1 = row := by omega
  rw [viewRow, this, Int.emod_eq_of_lt (by omega) (by omega), Int.toNat_natCast]

theorem ZGroup.WellFormed.recurrence_holds_iff (hg : g.WellFormed) (z : Nat → K) (zFinal : K) :
    (newVanishing g.recurrence).Holds (rt.runtimeSize g.module)
        (Leaf.value (rt.withZ z zFinal) (rt.runtimeSize g.module)) ↔
      ∀ i, i + 1 < rt.runtimeSize g.module →
        (∀ s ∈ g.shifts, 0 ≤ (i + 1 : Nat) + s ∧ (i + 1 : Nat) + s < rt.runtimeSize g.module) →
        z (i + 1) * (g.runningProduct rt).den (i + 1) = z i * (g.runningProduct rt).num (i + 1) := by
  have heval (i) (hi : i + 1 < rt.runtimeSize g.module) :
      g.recurrence.eval (Leaf.value (rt.withZ z zFinal) (rt.runtimeSize g.module) (i + 1)) = 0 ↔
        z (i + 1) * (g.runningProduct rt).den (i + 1) = z i * (g.runningProduct rt).num (i + 1) := by
    simp only [recurrence, eval, hg.eval_num, hg.eval_den]
    show z (viewRow _ 0 (i + 1)) * _ - z (viewRow _ (-1) (i + 1)) * _ = 0 ↔ _
    rw [viewRow_zero hi, viewRow_neg_one hi, sub_eq_zero]
  constructor
  · intro h i hi hs
    refine (heval i hi).1 (h (i + 1) hi fun hc => ?_)
    obtain ⟨s, hmem, hno⟩ := (cancels_recurrence hi).1 hc
    exact hno (hs s hmem)
  · intro h row hrow hc
    rcases row with _ | i
    · exact absurd (cancels_recurrence_zero hrow) hc
    · refine (heval i hrow).2 (h i hrow fun s hs => ?_)
      by_contra hno
      exact hc ((cancels_recurrence hrow).2 ⟨s, hs, hno⟩)

theorem opening_holds_iff (z : Nat → K) (zFinal : K) (m : Nat) :
    ScalarHolds (rt.withZ z zFinal) (rt.runtimeSize m)
        (.sub (.leaf (.cell 0)) (.leaf (.columnPosition .z (endpointPos (mods m)))) : Expression (Leaf K ZColumn)) ↔
      zFinal = z (rt.runtimeSize m - 1) := by
  have hn := rt.runtimeSize_pos m
  have hrow : resolvedRow (rt.runtimeSize m) (endpointPos (mods m)) = some (rt.runtimeSize m - 1) := by
    by_cases hs : (mods m).isSized
    · have hsize := rt.runtimeSize_eq m hs
      have hstatic : (mods m).isDynamic = false := by
        by_contra hd
        have := (mods m).dynamic_unsized (by simpa using hd)
        omega
      rw [endpointPos, hstatic, if_neg Bool.false_ne_true, ← hsize]
      have : ((rt.runtimeSize m : Int) - 1) = (rt.runtimeSize m - 1 : Nat) := by omega
      rw [this, resolvedRow_natCast (by omega)]
    · have hsize : (mods m).size = 0 := by
        simp only [Module.isSized, gt_iff_lt, decide_eq_true_eq] at hs
        omega
      have hpos : endpointPos (mods m) = -1 := by simp [endpointPos, hsize]
      rw [hpos, resolvedRow_neg_one hn]
  simp only [ScalarHolds, leaves, eval, Leaf.value, singleton_append, mem_cons,
    not_mem_nil, or_false, forall_eq_or_imp, forall_eq, Leaf.InBounds, hrow, Option.isSome_some, Option.getD_some,
    true_and, Runtime.withZ]
  exact sub_eq_zero

/-- A leaf of the constraint on the first row is the column `Z`, or comes from a factor. -/
theorem ZGroup.mem_init_leaves {l : Leaf K ZColumn} (hl : l ∈ g.init.leaves) :
    l = .column .z 0 ∨ l = .constantVector g.module 1 ∨ ∃ e ∈ g.factors, ∃ l' ∈ e.leaves, l = l'.lift := by
  have hlift {fs : List (Factor K)} (hfs : ∀ e ∈ fs, e ∈ g.factors) (h : l ∈ (productOrOne g.module fs).lift.leaves) :
      l = .constantVector g.module 1 ∨ ∃ e ∈ g.factors, ∃ l' ∈ e.leaves, l = l'.lift := by
    rw [Factor.lift, leaves_map, mem_map] at h
    obtain ⟨l', hl', rfl⟩ := h
    rcases mem_leaves_productOrOne.1 hl' with ⟨e, he, hl'⟩ | ⟨-, rfl⟩
    · exact .inr ⟨e, hfs e he, l', hl', rfl⟩
    · exact .inl rfl
  simp only [init, leaves, mem_append, mem_singleton] at hl
  rcases hl with (hl | hl) | hl
  · exact .inl hl
  · exact .inr (hlift (fun _ he => mem_append_right _ he) hl)
  · exact .inr (hlift (fun _ he => mem_append_left _ he) hl)

theorem ZGroup.WellFormed.column_mem_init (hg : g.WellFormed) {c : ZColumn} {s : Int}
    (h : .column c s ∈ g.init.leaves) :
    c.module g.module = g.module ∧ (s = 0 ∨ s ∈ g.shifts) := by
  rcases mem_init_leaves h with h | h | ⟨e, he, l', hl', h⟩
  · cases h
    exact ⟨rfl, .inl rfl⟩
  · cases h
  · cases l' with
    | column c' s' =>
      cases h
      obtain ⟨hmod, hwf⟩ := hg e he
      refine ⟨(hwf _ hl').trans hmod, ?_⟩
      by_cases hs : s = 0
      · exact .inl hs
      · exact .inr (mem_shifts.2 ⟨hs, e, he, c', hl'⟩)
    | _ => cases h

theorem ZGroup.WellFormed.columnPosition_notMem_init (hg : g.WellFormed) (c : ZColumn) (p : Int) :
    .columnPosition c p ∉ g.init.leaves := by
  intro h
  rcases mem_init_leaves h with h | h | ⟨e, he, l', hl', h⟩
  · cases h
  · cases h
  · cases l' with
    | columnPosition c' p' => exact (hg e he).2 _ hl'
    | _ => cases h

theorem ZGroup.exists_column_mem_init {s : Int} (hs : s ∈ g.shifts) : ∃ c, .column c s ∈ g.init.leaves := by
  obtain ⟨-, c, hc⟩ := mem_shifts_iff.1 hs
  refine ⟨c, ?_⟩
  simp only [init, leaves, mem_append]
  exact hc.elim .inr fun h => .inl (.inr h)

theorem ZGroup.WellFormed.lowers_iff (hg : g.WellFormed) :
    (∀ l ∈ g.init.leaves, l.Lowers fun c => mods (c.module g.module)) ↔
      (mods g.module).isSized ∨ ∀ s ∈ g.shifts, 0 ≤ s := by
  constructor
  · intro h
    by_cases hs : (mods g.module).isSized
    · exact .inl hs
    · refine .inr fun s hmem => ?_
      obtain ⟨c, hc⟩ := exists_column_mem_init hmem
      have := h _ hc
      rw [Leaf.Lowers, (hg.column_mem_init hc).1] at this
      exact this.resolve_left hs
  · rintro h (⟨c, s⟩ | _) hl
    · obtain ⟨hc, hs⟩ := hg.column_mem_init hl
      rw [Leaf.Lowers, hc]
      rcases hs with rfl | hs
      · exact .inr le_rfl
      · exact h.imp_right fun h => h s hs
    all_goals trivial

theorem ZGroup.WellFormed.readsRow_iff (hg : g.WellFormed) {n : Nat} (hn : 0 < n) :
    (∀ l ∈ g.init.leaves, l.ReadsRow (fun c => mods (c.module g.module)) n) ↔
      (mods g.module).isSized ∨ ∀ s ∈ g.shifts, s < n := by
  constructor
  · intro h
    by_cases hs : (mods g.module).isSized
    · exact .inl hs
    · refine .inr fun s hmem => ?_
      obtain ⟨c, hc⟩ := exists_column_mem_init hmem
      have := h _ hc
      rw [Leaf.ReadsRow, (hg.column_mem_init hc).1] at this
      exact this.resolve_left hs
  · rintro h (⟨c, s⟩ | ⟨c, p⟩ | _) hl
    · obtain ⟨hc, hs⟩ := hg.column_mem_init hl
      rw [Leaf.ReadsRow, hc]
      rcases hs with rfl | hs
      · exact .inr (by omega)
      · exact h.imp_right fun h => h s hs
    · exact absurd hl (hg.columnPosition_notMem_init c p)
    all_goals trivial

/-- The constraints of a group, as they are registered if the first row can be lowered. -/
def ZGroup.entry (mods : Nat → Module) (g : ZGroup K) : ZEntry K where
  module := g.module
  recurrence :=
    if (mods g.module).isDynamic ∨ (mods g.module).size > 1 then some (newVanishing g.recurrence) else none
  boundary := g.init.map (loweredLeaf fun c => mods (c.module g.module))
  opening := .sub (.leaf (.cell 0)) (.leaf (.columnPosition .z (endpointPos (mods g.module))))

theorem ZGroup.WellFormed.buildZ_eq_ok (hg : g.WellFormed) {e : ZEntry K} :
    buildZ mods g = .ok e ↔ ((mods g.module).isSized ∨ ∀ s ∈ g.shifts, 0 ≤ s) ∧ e = g.entry mods := by
  rw [buildZ, bind_eq_ok]
  simp only [newLocalConstraint_zero, hg.lowers_iff]
  constructor
  · rintro ⟨_, ⟨hs, rfl⟩, h⟩
    exact ⟨hs, (Except.ok.inj h).symm⟩
  · rintro ⟨hs, rfl⟩
    exact ⟨_, ⟨hs, rfl⟩, rfl⟩

/-- The constraints of a group that compiles hold for the solutions of its running product. -/
theorem ZGroup.WellFormed.entry_holds_iff (hg : g.WellFormed)
    (hlow : (mods g.module).isSized ∨ ∀ s ∈ g.shifts, 0 ≤ s) (z : Nat → K) (zFinal : K) :
    (g.entry mods).Holds rt z zFinal ↔
      g.Resolves rt ∧ (g.runningProduct rt).Solves z ∧ zFinal = z (rt.runtimeSize g.module - 1) := by
  have hn := rt.runtimeSize_pos g.module
  have hbound : ScalarHolds (rt.withZ z zFinal) (rt.runtimeSize g.module) (g.entry mods).boundary ↔
      g.Resolves rt ∧ z 0 * (g.runningProduct rt).den 0 = (g.runningProduct rt).num 0 := by
    have hsize (c : ZColumn) (s : Int) (hc : .column c s ∈ g.init.leaves) (hs : (mods (c.module g.module)).isSized) :
        rt.runtimeSize g.module = (mods (c.module g.module)).size := by
      rw [(hg.column_mem_init hc).1] at hs ⊢
      exact rt.runtimeSize_eq _ hs
    rw [entry, scalarHolds_lowered hn hsize (hg.lowers_iff.2 hlow), hg.readsRow_iff hn, init]
    simp only [eval, hg.eval_num, hg.eval_den]
    refine and_congr ?_ ?_
    · rw [Resolves]
      constructor
      · rintro (h | h)
        · exact .inl h
        · rcases hlow with hs | hs
          · exact .inl hs
          · exact .inr fun s hmem => ⟨hs s hmem, h s hmem⟩
      · exact Or.imp_right fun h s hmem => (h s hmem).2
    · show z (viewRow _ 0 0) * _ - _ = 0 ↔ _
      rw [viewRow_zero hn, sub_eq_zero]
  have hrec : (∀ v ∈ (g.entry mods).recurrence, v.Holds (rt.runtimeSize g.module)
        (Leaf.value (rt.withZ z zFinal) (rt.runtimeSize g.module))) ↔
      ∀ i, i + 1 < rt.runtimeSize g.module → g.Checked rt (i + 1) →
        z (i + 1) * (g.runningProduct rt).den (i + 1) = z i * (g.runningProduct rt).num (i + 1) := by
    rw [entry]
    split_ifs with hm
    · simp only [Option.mem_def, Option.some.injEq, forall_eq', hg.recurrence_holds_iff, Checked, hm, true_and]
    · simp [Checked, hm]
  constructor
  · rintro ⟨h1, h2, h3⟩
    obtain ⟨hres, hfirst⟩ := hbound.1 h2
    exact ⟨hres, ⟨hfirst, hrec.1 h1⟩, (opening_holds_iff z zFinal _).1 h3⟩
  · rintro ⟨hres, ⟨hfirst, hstep⟩, hlast⟩
    exact ⟨hrec.2 hstep, hbound.2 ⟨hres, hfirst⟩, (opening_holds_iff z zFinal _).2 hlast⟩

theorem mapM_buildZ_eq_ok {gs : List (ZGroup K)} (hgs : ∀ g ∈ gs, g.WellFormed) {entries : List (ZEntry K)} :
    gs.mapM (buildZ mods) = .ok entries ↔
      (∀ g ∈ gs, (mods g.module).isSized ∨ ∀ s ∈ g.shifts, 0 ≤ s) ∧ entries = gs.map (ZGroup.entry mods) := by
  induction gs generalizing entries with
  | nil => exact ⟨fun h => ⟨forall_mem_nil _, (Except.ok.inj h).symm⟩, fun h => h.2 ▸ rfl⟩
  | cons g gs ih =>
    rw [forall_mem_cons] at hgs
    simp only [mapM_cons, bind_eq_ok, hgs.1.buildZ_eq_ok, ih hgs.2, forall_mem_cons, map_cons]
    constructor
    · rintro ⟨_, ⟨hg, rfl⟩, _, ⟨hrest, rfl⟩, h⟩
      exact ⟨⟨hg, hrest⟩, (Except.ok.inj h).symm⟩
    · rintro ⟨⟨hg, hrest⟩, rfl⟩
      exact ⟨_, ⟨hg, rfl⟩, _, ⟨hrest, rfl⟩, rfl⟩

theorem discharges_cons {e : ZEntry K} {es : List (ZEntry K)} {result : K} :
    Discharges rt (e :: es) result ↔ ∃ z a b, e.Holds rt z a ∧ Discharges rt es b ∧ a * b = result := by
  constructor
  · rintro ⟨zs, hzs, rfl⟩
    obtain ⟨⟨z, a⟩, zs, hz, hzs', rfl⟩ := forall₂_cons_left_iff.1 hzs
    exact ⟨z, a, (zs.map Prod.snd).prod, hz, ⟨zs, hzs', rfl⟩, by rw [map_cons, prod_cons]⟩
  · rintro ⟨z, a, b, hz, ⟨zs, hzs, rfl⟩, rfl⟩
    exact ⟨(z, a) :: zs, .cons hz hzs, by rw [map_cons, prod_cons]⟩

theorem discharges_iff {gs : List (ZGroup K)} (hgs : ∀ g ∈ gs, g.WellFormed)
    (hlow : ∀ g ∈ gs, (mods g.module).isSized ∨ ∀ s ∈ g.shifts, 0 ≤ s) {result : K} :
    Discharges rt (gs.map (ZGroup.entry mods)) result ↔
      (∀ g ∈ gs, g.Resolves rt) ∧ RunningProduct.EndsAll (gs.map (ZGroup.runningProduct rt)) result := by
  induction gs generalizing result with
  | nil => simp [Discharges, RunningProduct.EndsAll]
  | cons g gs ih =>
    rw [forall_mem_cons] at hgs hlow
    simp only [map_cons, discharges_cons, endsAll_cons, forall_mem_cons, ih hgs.2 hlow.2,
      hgs.1.entry_holds_iff hlow.1]
    constructor
    · rintro ⟨z, _, b, ⟨hres, hz, rfl⟩, ⟨hrest, hb⟩, rfl⟩
      exact ⟨⟨hres, hrest⟩, _, b, ⟨z, hz, rfl⟩, hb, rfl⟩
    · rintro ⟨⟨hres, hrest⟩, _, b, ⟨z, hz, rfl⟩, hb, rfl⟩
      exact ⟨z, _, b, ⟨hres, hz, rfl⟩, ⟨hrest, hb⟩, rfl⟩

end

/-! ### The product of all groups -/

theorem mem_of_mem_subslice {α : Type} {xs : List α} {start stop : Nat} {x : α}
    (h : x ∈ subslice xs start stop) : x ∈ xs :=
  mem_of_mem_take (mem_of_mem_drop h)

theorem le_divCeil_mul (a : Nat) {b : Nat} (hb : 0 < b) : a ≤ divCeil a b * b := by
  have := Nat.div_add_mod a b
  have := Nat.mod_lt a hb
  rw [divCeil]
  split_ifs
  · rw [Nat.add_mul, Nat.mul_comm (a / b)]
    omega
  · rw [Nat.mul_comm (a / b)]
    omega

theorem flatMap_subslice {α : Type} (xs : List α) (k N : Nat) :
    (range N).flatMap (fun i => subslice xs (i * k) ((i + 1) * k)) = xs.take (N * k) := by
  induction N with
  | zero => simp
  | succ N ih =>
    rw [range_succ, flatMap_append, ih, flatMap_singleton, subslice]
    have hle : N * k ≤ (N + 1) * k := Nat.mul_le_mul_right k (Nat.le_succ N)
    conv_lhs => rw [← Nat.min_eq_left hle, ← take_take]
    rw [Nat.min_eq_left hle, take_append_drop]

theorem mem_bucket_order {factors : List (Factor K)} {seedOrder : List Nat} :
    m ∈ (bucketByModule factors seedOrder).2 ↔ m ∈ seedOrder ∨ ∃ e ∈ factors, e.module = m := by
  simp only [bucketByModule]
  induction factors generalizing seedOrder with
  | nil => simp
  | cons e factors ih =>
    rw [foldl_cons, ih]
    split_ifs with h
    · simp only [exists_mem_cons_iff]
      constructor
      · rintro (h' | h')
        · exact .inl h'
        · exact .inr (.inr h')
      · rintro (h' | rfl | h')
        · exact .inl h'
        · exact .inl h
        · exact .inr h'
    · simp [or_assoc, eq_comm]

theorem nodup_bucket_order {factors : List (Factor K)} {seedOrder : List Nat} (h : seedOrder.Nodup) :
    (bucketByModule factors seedOrder).2.Nodup := by
  simp only [bucketByModule]
  induction factors generalizing seedOrder with
  | nil => exact h
  | cons e factors ih =>
    rw [foldl_cons]
    refine ih ?_
    split_ifs with hmem
    · exact h
    · exact nodup_append'.2 ⟨h, nodup_singleton _, by simpa using hmem⟩

theorem mem_packModule {nums dens : List (Factor K)} (hg : g ∈ packModule m nums dens) :
    g.module = m ∧ (∀ e ∈ g.packedNum, e ∈ nums) ∧ ∀ e ∈ g.packedDen, e ∈ dens := by
  obtain ⟨k, -, rfl⟩ := mem_map.1 hg
  exact ⟨rfl, fun e he => mem_of_mem_subslice he, fun e he => mem_of_mem_subslice he⟩

variable {gp : GrandProduct K}

theorem GrandProduct.mem_groups (hg : g ∈ gp.groups) :
    ∃ m, g ∈ packModule m (gp.numerators.filter fun e => e.module = m)
    (gp.denominators.filter fun e => e.module = m) := by
  obtain ⟨m, -, hg⟩ := mem_flatMap.1 hg
  exact ⟨m, hg⟩

def GrandProduct.WellFormed (gp : GrandProduct K) : Prop := ∀ e ∈ gp.numerators ++ gp.denominators, e.WellFormed

theorem packModule_wellFormed (hgp : gp.WellFormed)
    (hg : g ∈ packModule m (gp.numerators.filter fun e => e.module = m)
    (gp.denominators.filter fun e => e.module = m)) :
    g.WellFormed := by
  obtain ⟨hm, hnum, hden⟩ := mem_packModule hg
  intro e he
  rcases mem_append.1 he with he | he
  · obtain ⟨hmem, hmod⟩ := mem_filter.1 (hnum e he)
    exact ⟨(of_decide_eq_true hmod).trans hm.symm, hgp e (mem_append_left _ hmem)⟩
  · obtain ⟨hmem, hmod⟩ := mem_filter.1 (hden e he)
    exact ⟨(of_decide_eq_true hmod).trans hm.symm, hgp e (mem_append_right _ hmem)⟩

theorem GrandProduct.WellFormed.groups_wellFormed (hgp : gp.WellFormed) : ∀ g ∈ gp.groups, g.WellFormed := fun _ hg =>
  let ⟨_, hg⟩ := mem_groups hg
  packModule_wellFormed hgp hg

theorem prod_map_div [Field K] {α : Type} (f g : α → K) (xs : List α) :
    (xs.map fun x => f x / g x).prod = (xs.map f).prod / (xs.map g).prod := by
  induction xs with
  | nil => simp
  | cons x xs ih => simp only [map_cons, prod_cons, ih, div_mul_div_comm]

section

variable [Field K] {mods : Nat → Module} {rt : Runtime mods K}

theorem prod_map_factorProduct {m : Nat} {fs : List (Factor K)} (hfs : ∀ e ∈ fs, e.module = m) :
    ∏ row ∈ Finset.range (rt.runtimeSize m), (fs.map fun e => rt.factorAt e row).prod =
      (fs.map rt.factorProduct).prod := by
  induction fs with
  | nil => simp
  | cons e fs ih =>
    rw [forall_mem_cons] at hfs
    simp only [map_cons, prod_cons, Finset.prod_mul_distrib, ih hfs.2]
    rw [Runtime.factorProduct, hfs.1]

theorem ZGroup.WellFormed.total_eq {g : ZGroup K} (hg : g.WellFormed) :
    (g.runningProduct rt).total = (g.packedNum.map rt.factorProduct).prod /
      (g.packedDen.map rt.factorProduct).prod := by
  rw [total, partialProduct, Finset.prod_div_distrib]
  exact congrArg₂ _ (prod_map_factorProduct fun e he => (hg e (mem_append_left _ he)).1)
    (prod_map_factorProduct fun e he => (hg e (mem_append_right _ he)).1)

theorem prod_subslices {α : Type} (f : α → K) (xs : List α) {N : Nat} (h : divCeil xs.length packingArity ≤ N) :
    ((range N).map fun k => ((subslice xs (k * packingArity) ((k + 1) * packingArity)).map f).prod).prod =
      (xs.map f).prod := by
  have hle : xs.length ≤ N * packingArity :=
    (le_divCeil_mul xs.length (by decide)).trans (Nat.mul_le_mul_right _ h)
  conv_rhs => rw [← take_of_length_le hle, ← flatMap_subslice]
  generalize range N = l
  induction l with
  | nil => rfl
  | cons k l ih => rw [map_cons, prod_cons, ih, flatMap_cons, map_append, prod_append]

theorem prod_packModule {m : Nat} {nums dens : List (Factor K)} (hwf : ∀ g ∈ packModule m nums dens, g.WellFormed) :
    ((packModule m nums dens).map fun g => (g.runningProduct rt).total).prod =
      (nums.map rt.factorProduct).prod / (dens.map rt.factorProduct).prod := by
  have htotal : (packModule m nums dens).map (fun g => (g.runningProduct rt).total) =
    (packModule m nums dens).map fun g =>
      (g.packedNum.map rt.factorProduct).prod / (g.packedDen.map rt.factorProduct).prod :=
    map_congr_left fun g hg => (hwf g hg).total_eq
  rw [htotal, packModule, map_map]
  simp only [Function.comp_def, prod_map_div]
  rw [prod_subslices _ _ (Nat.le_max_left _ _), prod_subslices _ _ (Nat.le_max_right _ _)]

theorem prod_buckets (f : Factor K → K) {order : List Nat} (hnodup : order.Nodup) {factors : List (Factor K)}
    (hmem : ∀ e ∈ factors, e.module ∈ order) :
    (order.map fun m => ((factors.filter fun e => e.module = m).map f).prod).prod = (factors.map f).prod := by
  induction factors with
  | nil => simp
  | cons e factors ih =>
    rw [forall_mem_cons] at hmem
    have hcons (m : Nat) : (((e :: factors).filter fun e => e.module = m).map f).prod =
        (if m = e.module then f e else 1) * ((factors.filter fun e => e.module = m).map f).prod := by
      by_cases h : e.module = m
      · simp [h]
      · simp [h, Ne.symm h]
    simp only [hcons, prod_map_mul, ih hmem.2, map_cons, prod_cons]
    rw [← prod_toFinset _ hnodup, Finset.prod_ite_eq', if_pos (mem_toFinset.2 hmem.1)]

variable {gp : GrandProduct K}

/-- However the factors are packed, the products of the groups make up the grand product. -/
theorem GrandProduct.WellFormed.prod_total (hgp : gp.WellFormed) :
    ((gp.groups.map (ZGroup.runningProduct rt)).map total).prod =
      rt.productOverRows gp.numerators / rt.productOverRows gp.denominators := by
  rw [groups]
  dsimp only
  set order := (bucketByModule gp.denominators (bucketByModule gp.numerators []).2).2 with horder
  have hnodup : order.Nodup := nodup_bucket_order (nodup_bucket_order nodup_nil)
  have hnum : ∀ e ∈ gp.numerators, e.module ∈ order := fun e he =>
    mem_bucket_order.2 (.inl (mem_bucket_order.2 (.inr ⟨e, he, rfl⟩)))
  have hden : ∀ e ∈ gp.denominators, e.module ∈ order := fun e he => mem_bucket_order.2 (.inr ⟨e, he, rfl⟩)
  have hflat (l : List Nat) : (((l.flatMap fun m => packModule m (gp.numerators.filter fun e => e.module = m)
      (gp.denominators.filter fun e => e.module = m)).map (ZGroup.runningProduct rt)).map total).prod =
      (l.map fun m => ((gp.numerators.filter fun e => e.module = m).map rt.factorProduct).prod /
        ((gp.denominators.filter fun e => e.module = m).map rt.factorProduct).prod).prod := by
    induction l with
    | nil => rfl
    | cons m l ih =>
      rw [flatMap_cons, map_append, map_append, prod_append, ih, map_cons, prod_cons,
        map_map]
      exact congrArg (· * _) (prod_packModule fun g hg => packModule_wellFormed hgp hg)
  rw [Runtime.productOverRows, Runtime.productOverRows, ← prod_buckets rt.factorProduct hnodup hnum,
    ← prod_buckets rt.factorProduct hnodup hden, ← prod_map_div]
  exact hflat order

/-- No denominator is zero on a row. -/
def GrandProduct.Defined (gp : GrandProduct K) (rt : Runtime mods K) : Prop :=
  ∀ e ∈ gp.denominators, ∀ row < rt.runtimeSize e.module, rt.factorAt e row ≠ 0

theorem GrandProduct.Defined.runningProduct_defined (hgp : gp.WellFormed) (hd : gp.Defined rt) {g : ZGroup K}
    (hg : g ∈ gp.groups) : (g.runningProduct rt).Defined := by
  intro row hrow h
  obtain ⟨e, he, h0⟩ := mem_map.1 (prod_eq_zero_iff.1 h)
  obtain ⟨m, hg'⟩ := mem_groups hg
  have hmod := (hgp.groups_wellFormed g hg e (mem_append_right _ he)).1
  exact hd e (mem_filter.1 ((mem_packModule hg').2.2 e he)).1 row (hmod ▸ hrow) h0

/-- The first rows resolve, and the last rows are forced. -/
def GrandProduct.Determined (gp : GrandProduct K) (rt : Runtime mods K) : Prop :=
  (∀ g ∈ gp.groups, g.Resolves rt) ∧ RunningProduct.AllForced (gp.groups.map (ZGroup.runningProduct rt))

/-- Without a shifted view, if every module is dynamic or has its size. -/
theorem GrandProduct.determined_of_unshifted (hmods : ∀ m, (mods m).isDynamic ∨ (mods m).isSized)
    (hviews : ∀ e ∈ gp.numerators ++ gp.denominators, ∀ c s, .column c s ∈ e.leaves → s = 0) : gp.Determined rt := by
  have hshifts : ∀ g ∈ gp.groups, ∀ s, s ∉ g.shifts := by
    intro g hg s hs
    obtain ⟨hne, e, he, c, hc⟩ := ZGroup.mem_shifts.1 hs
    obtain ⟨m, hg⟩ := mem_groups hg
    obtain ⟨-, hnum, hden⟩ := mem_packModule hg
    refine hne (hviews e ?_ c s hc)
    rcases mem_append.1 he with he | he
    · exact mem_append_left _ (mem_filter.1 (hnum e he)).1
    · exact mem_append_right _ (mem_filter.1 (hden e he)).1
  refine ⟨fun g hg => .inr fun s hs => absurd hs (hshifts g hg s), .inl ?_⟩
  intro r hr i hpos hi hunchecked
  obtain ⟨g, hg, rfl⟩ := mem_map.1 hr
  refine absurd ⟨(hmods g.module).imp_right fun hsized => ?_, fun s hs => absurd hs (hshifts g hg s)⟩ hunchecked
  have hsize := rt.runtimeSize_eq g.module hsized
  have hrow : i < rt.runtimeSize g.module := hi
  omega

theorem GrandProduct.WellFormed.exact_iff (hgp : gp.WellFormed) (hd : gp.Defined rt) :
    gp.Exact rt ↔ gp.Determined rt := by
  have hwf := hgp.groups_wellFormed
  have hdef : ∀ r ∈ gp.groups.map (ZGroup.runningProduct rt), r.Defined := by
    rintro r hr
    obtain ⟨g, hg, rfl⟩ := mem_map.1 hr
    exact hd.runningProduct_defined hgp hg
  simp only [Exact, compileGrandProduct, mapM_buildZ_eq_ok hwf, ← hgp.prod_total]
  constructor
  · rintro ⟨_, ⟨hlow, rfl⟩, h⟩
    simp only [discharges_iff hwf hlow] at h
    have hres := ((h _).2 rfl).1
    refine ⟨hres, (endsAll_iff_total hdef).1 fun v => ?_⟩
    rw [← h v]
    exact ⟨fun hv => ⟨hres, hv⟩, And.right⟩
  · rintro ⟨hres, hforced⟩
    have hlow : ∀ g ∈ gp.groups, (mods g.module).isSized ∨ ∀ s ∈ g.shifts, 0 ≤ s := fun g hg =>
      (hres g hg).imp_right fun h s hs => (h s hs).1
    refine ⟨_, ⟨hlow, rfl⟩, fun v => ?_⟩
    rw [discharges_iff hwf hlow, ← (endsAll_iff_total hdef).2 hforced v]
    exact ⟨And.right, fun hv => ⟨hres, hv⟩⟩

end

end Lineth.Wiop

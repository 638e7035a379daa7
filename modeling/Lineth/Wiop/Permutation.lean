import Lineth.Koalabear.Field
import Lineth.Lib.LinearFactor
import Lineth.Wiop.GrandProduct
import Lineth.Wiop.Table

/-!
# Permutations and message buses

A permutation query says that two unions of tables have the same selected rows; a message bus says it of the rows sent
and received under a handle. Both are reduced to grand products. A row becomes the factor `β + α^w + c₀ + α·c₁ + …`,
where `w` is its width: as polynomials in the coins, such factors are prime and different for different rows. A row
that is not selected becomes the factor 1. -/

namespace Lineth.Wiop

open Except List Expression

variable {K : Type}

/-! ### The factors of a table -/

/-- `α^w + c₀ + α·c₁ + … + α^(w-1)·c_(w-1)`, by Horner's rule from the last entry, with `α + c_(w-1)` for the first
step. -/
def rlcWithSentinel (alpha : Nat) (cols : List (TableEntry K)) : Factor K :=
  match cols.reverse with
  | [] => .leaf (.coin alpha)
  | last :: rest => rest.foldl (fun acc e => .add (.mul (.leaf (.coin alpha)) acc) (.leaf e.leaf))
      (.add (.leaf (.coin alpha)) (.leaf last.leaf))

/-- `selector·factor + (1 − selector)`. -/
def selectorFold [One K] (selector : Option ColumnView) (factor : Factor K) : Factor K :=
  match selector with
  | none => factor
  | some cv =>
    let sel := .leaf (.column cv.column cv.shiftingOffset)
    .add (.mul sel factor) (.sub (.leaf (.constant 1)) sel)

inductive GrandProductPanic where
  | noAlpha
  | rowLimit (side : String) (rows limit : Nat)
  | differentShards (first second : String)
  | calledTwice
  | skipMismatch (handle : String)
deriving DecidableEq

def rlcOfTable : Option Nat → Table K → Except GrandProductPanic (Factor K)
  | some alpha, tab => .ok (rlcWithSentinel alpha tab.columns)
  | none, tab =>
    match tab.columns with
    | [e] => .ok (.leaf e.leaf)
    | _ => .error .noAlpha

def permutationFactor [One K] (alpha : Option Nat) (beta : Nat) (tab : Table K) :
    Except GrandProductPanic (Factor K) := do
  let rlc ← rlcOfTable alpha tab
  return selectorFold tab.selector (.add rlc (.leaf (.coin beta)))

/-! ### Permutations -/

def maxPermutationRows : Nat := 2 ^ 58

def maxFragmentWidth (q : TableRelationQuery K) : Nat := ((q.A ++ q.B).map Table.width).foldl max 0

/-- Each query has coins of its own; `α` is needed as soon as a fragment has several columns. -/
def alphaOf (q : TableRelationQuery K) (qi : Nat) : Option Nat := if maxFragmentWidth q > 1 then some (2 * qi) else none

def betaOf (qi : Nat) : Nat := 2 * qi + 1

def pendingPermutations (relations : List (TableRelationQuery K)) : List (TableRelationQuery K) :=
  relations.filter fun q => !q.isReduced && q.kind = .permutation

def precheckRowLimit (mods : Nat → Module) (limit : Nat) (q : TableRelationQuery K) :
    Except GrandProductPanic Unit := do
  failIf (staticTableRows mods q.A ≥ limit) (.rowLimit "A" (staticTableRows mods q.A) limit)
  failIf (staticTableRows mods q.B ≥ limit) (.rowLimit "B" (staticTableRows mods q.B) limit)

def queryFactors [One K] (q : TableRelationQuery K × Nat) : Except GrandProductPanic (GrandProduct K) := do
  let numerators ← q.1.A.mapM (permutationFactor (alphaOf q.1 q.2) (betaOf q.2))
  let denominators ← q.1.B.mapM (permutationFactor (alphaOf q.1 q.2) (betaOf q.2))
  return { numerators, denominators }

/-- One grand product for all permutations, or nothing to do. -/
def compilePermutations [One K] (mods : Nat → Module) (relations : List (TableRelationQuery K)) :
    Except GrandProductPanic (Option (GrandProduct K)) := do
  let perms := pendingPermutations relations
  if perms.isEmpty then return none
  perms.forM (precheckRowLimit mods maxPermutationRows)
  let factors ← perms.zipIdx.mapM queryFactors
  return some {
    numerators := factors.flatMap GrandProduct.numerators
    denominators := factors.flatMap GrandProduct.denominators }

/-! ### Message buses -/

inductive BusDirection where
  | send
  | receive
deriving DecidableEq

structure MessageBus (K : Type) where
  originShard : String
  handle : String
  direction : BusDirection
  tab : Table K
  skipInShardCheck : Bool
  isReduced : Bool

/-- `selector·(β + fold(row)) + (1 − selector)`. -/
def permutationFold [One K] (alpha beta : Nat) (tab : Table K) : Factor K :=
  selectorFold tab.selector (.add (.leaf (.coin beta)) (rlcWithSentinel alpha tab.columns))

def busTables (entries : List (MessageBus K)) (handle : String) (direction : BusDirection) : List (Table K) :=
  (entries.filter fun mb => !mb.isReduced && mb.handle = handle && mb.direction = direction).map MessageBus.tab

/-- `messagebus.Compile`: one grand product for each handle. All of them share the coins 0 and 1. -/
def compileMessageBuses [One K] (entries : List (MessageBus K)) :
    Except GrandProductPanic (List (String × GrandProduct K)) :=
  match entries.filter fun mb => !mb.isReduced with
  | [] => .ok []
  | anyEntry :: rest => do
    for mb in rest do
      failIf (mb.originShard ≠ anyEntry.originShard) (.differentShards anyEntry.originShard mb.originShard)
    failIf (entries.any MessageBus.isReduced) .calledTwice
    let handles := ((anyEntry :: rest).map MessageBus.handle).dedup.mergeSort
    for h in handles do
      let ofHandle := (anyEntry :: rest).filter fun mb => mb.handle = h
      failIf (∃ mb ∈ ofHandle, ∃ mb' ∈ ofHandle, mb.skipInShardCheck ≠ mb'.skipInShardCheck) (.skipMismatch h)
    return handles.map fun h => (h, {
      numerators := (busTables entries h .send).map (permutationFold 0 1)
      denominators := (busTables entries h .receive).map (permutationFold 0 1) })

/-- A grand product that one of the compilers emits, and the sides whose rows it compares. -/
inductive Reduces [One K] (mods : Nat → Module) : GrandProduct K → List (List (Table K) × List (Table K)) → Prop
  | permutations {relations : List (TableRelationQuery K)} {gp : GrandProduct K}
      (h : compilePermutations mods relations = .ok (some gp)) :
      Reduces mods gp ((pendingPermutations relations).map fun q => (q.A, q.B))
  | handle {entries : List (MessageBus K)} {gps : List (String × GrandProduct K)} {h : String} {gp : GrandProduct K}
      (hc : compileMessageBuses entries = .ok gps) (hgp : (h, gp) ∈ gps) :
      Reduces mods gp [(busTables entries h .send, busTables entries h .receive)]

/-! ### The factors are of the module of their table -/

/-- The leaves that a factor of a table has. -/
def Table.LeafOf (tab : Table K) (l : Leaf K Column) : Prop :=
  (∃ id, l = .coin id) ∨ (∃ v, l = .constant v) ∨ (∃ e ∈ tab.columns, l = e.leaf) ∨
    ∃ cv ∈ tab.selector, l = .column cv.column cv.shiftingOffset

/-- The expression is made from the entries and the selector of the table, and has an entry. -/
def Table.FactorOf (tab : Table K) (e : Factor K) : Prop :=
  (∀ l ∈ e.leaves, tab.LeafOf l) ∧ ∃ x ∈ tab.columns, x.leaf ∈ e.leaves

variable {tab : Table K} {e : Factor K}

theorem Table.FactorOf.module_eq (h : tab.FactorOf e) : e.module = tab.module := by
  have hsome : e.module? = some tab.module := by
    obtain ⟨hall, x, hx, hmem⟩ := h
    have hx' : x.leaf.module = some tab.module := by
      rw [← tab.columns_module x hx]
      cases x <;> rfl
    have hor (l) (hl : l ∈ e.leaves) : l.module = none ∨ l.module = some tab.module := by
      rcases hall l hl with ⟨id, rfl⟩ | ⟨v, rfl⟩ | ⟨y, hy, rfl⟩ | ⟨cv, hcv, rfl⟩
      · exact .inl rfl
      · exact .inl rfl
      · right
        rw [← tab.columns_module y hy]
        cases y <;> rfl
      · exact .inr (congrArg some (tab.selector_module cv hcv))
    -- the first leaf that has a module has that of the table
    cases hfirst : e.module? with
    | none =>
      have hnone := findSome?_eq_none_iff.1 hfirst _ hmem
      rw [hx'] at hnone
      cases hnone
    | some m =>
      obtain ⟨l, hl, hlm⟩ := exists_of_findSome?_eq_some hfirst
      rcases hor l hl with h | h <;> rw [h] at hlm <;> cases hlm
      rfl
  rw [Factor.module, hsome, Option.getD_some]

theorem Table.FactorOf.wellFormed (h : tab.FactorOf e) : e.WellFormed := by
  intro l hl
  rw [h.module_eq]
  rcases h.1 l hl with ⟨id, rfl⟩ | ⟨v, rfl⟩ | ⟨y, hy, rfl⟩ | ⟨cv, hcv, rfl⟩
  · trivial
  · trivial
  · cases y with
    | view cv => exact tab.columns_module _ hy
    | const m c => trivial
  · exact tab.selector_module cv hcv

theorem mem_leaves_rlcWithSentinel (alpha : Nat) {cols : List (TableEntry K)} (hcols : cols ≠ []) {l : Leaf K Column} :
    l ∈ (rlcWithSentinel alpha cols).leaves ↔ l = .coin alpha ∨ ∃ x ∈ cols, l = x.leaf := by
  have hfold (xs : List (TableEntry K)) (acc : Factor K) (hacc : .coin alpha ∈ acc.leaves) :
      l ∈ (xs.foldl (fun acc e => .add (.mul (.leaf (.coin alpha)) acc) (.leaf e.leaf)) acc).leaves ↔
        l ∈ acc.leaves ∨ ∃ x ∈ xs, l = x.leaf := by
    induction xs generalizing acc with
    | nil => simp
    | cons x xs ih =>
      rw [foldl_cons, ih _ (by simp [leaves])]
      simp only [leaves, mem_append, mem_singleton, exists_mem_cons_iff, or_assoc]
      constructor
      · rintro (rfl | h)
        · exact .inl hacc
        · exact h
      · exact .inr
  cases hrev : cols.reverse with
  | nil => exact absurd (reverse_eq_nil_iff.1 hrev) hcols
  | cons last rest =>
    have hmem (x) : x ∈ cols ↔ x = last ∨ x ∈ rest := by rw [← mem_reverse, hrev, mem_cons]
    rw [rlcWithSentinel, hrev, hfold _ _ (by simp [leaves])]
    simp [leaves, hmem, or_assoc]

theorem mem_leaves_selectorFold [One K] {selector : Option ColumnView} {l : Leaf K Column} :
    l ∈ (selectorFold selector e).leaves ↔
      l ∈ e.leaves ∨ ∃ cv ∈ selector, l = .column cv.column cv.shiftingOffset ∨ l = .constant 1 := by
  cases selector with
  | none => simp [selectorFold]
  | some cv =>
    simp only [selectorFold, leaves, mem_append, mem_singleton, Option.mem_def, Option.some.injEq,
      exists_eq_left']
    tauto

theorem factorOf_selectorFold [One K] (hall : ∀ l ∈ e.leaves, (∃ id, l = .coin id) ∨ ∃ x ∈ tab.columns, l = x.leaf)
    (hex : ∃ x ∈ tab.columns, x.leaf ∈ e.leaves) : tab.FactorOf (selectorFold tab.selector e) := by
  refine ⟨fun l hl => ?_, ?_⟩
  · rcases mem_leaves_selectorFold.1 hl with hl | ⟨cv, hcv, rfl | rfl⟩
    · rcases hall l hl with h | h
      · exact .inl h
      · exact .inr (.inr (.inl h))
    · exact .inr (.inr (.inr ⟨cv, hcv, rfl⟩))
    · exact .inr (.inl ⟨1, rfl⟩)
  · obtain ⟨x, hx, hmem⟩ := hex
    exact ⟨x, hx, mem_leaves_selectorFold.2 (.inl hmem)⟩

theorem factorOf_permutationFold [One K] (alpha beta : Nat) (tab : Table K) :
    tab.FactorOf (permutationFold alpha beta tab) := by
  have hleaf (l) := mem_leaves_rlcWithSentinel alpha tab.columns_ne_nil (l := l)
  obtain ⟨x, hx⟩ := exists_mem_of_ne_nil _ tab.columns_ne_nil
  refine factorOf_selectorFold (fun l hl => ?_) ⟨x, hx, ?_⟩
  · rcases mem_append.1 hl with hl | hl
    · exact .inl ⟨beta, mem_singleton.1 hl⟩
    · rcases (hleaf l).1 hl with rfl | h
      · exact .inl ⟨alpha, rfl⟩
      · exact .inr h
  · exact mem_append_right _ ((hleaf _).2 (.inr ⟨x, hx, rfl⟩))

theorem rlcOfTable_some (alpha : Nat) (tab : Table K) :
    rlcOfTable (some alpha) tab = .ok (rlcWithSentinel alpha tab.columns) := rfl

theorem rlcOfTable_none {rlc : Factor K} : rlcOfTable none tab = .ok rlc ↔
    ∃ x, tab.columns = [x] ∧ rlc = .leaf x.leaf := by
  rw [rlcOfTable]
  generalize tab.columns = cols
  rcases cols with _ | ⟨x, _ | ⟨y, rest⟩⟩
  · simp
  · simp [eq_comm]
  · simp

theorem factorOf_permutationFactor [One K] {alpha : Option Nat} {beta : Nat}
    (h : permutationFactor alpha beta tab = .ok e) :
    tab.FactorOf e := by
  obtain ⟨rlc, hrlc, h⟩ := bind_eq_ok.1 h
  cases h
  have hleaf : (∀ l ∈ rlc.leaves, (∃ id, l = .coin id) ∨ ∃ x ∈ tab.columns, l = x.leaf) ∧
      ∃ x ∈ tab.columns, x.leaf ∈ rlc.leaves := by
    cases alpha with
    | some a =>
      cases (rlcOfTable_some a tab).symm.trans hrlc
      obtain ⟨x, hx⟩ := exists_mem_of_ne_nil _ tab.columns_ne_nil
      have hmem (l) := mem_leaves_rlcWithSentinel a tab.columns_ne_nil (l := l)
      refine ⟨fun l hl => ?_, x, hx, (hmem _).2 (.inr ⟨x, hx, rfl⟩)⟩
      rcases (hmem l).1 hl with rfl | h
      · exact .inl ⟨a, rfl⟩
      · exact .inr h
    | none =>
      obtain ⟨x, hx, rfl⟩ := rlcOfTable_none.1 hrlc
      rw [hx]
      exact ⟨fun l hl => .inr ⟨x, mem_singleton_self x, mem_singleton.1 hl⟩, x, mem_singleton_self x,
        mem_singleton_self _⟩
  refine factorOf_selectorFold (fun l hl => ?_) ?_
  · rcases mem_append.1 hl with hl | hl
    · exact hleaf.1 l hl
    · exact .inl ⟨beta, mem_singleton.1 hl⟩
  · obtain ⟨x, hx, hmem⟩ := hleaf.2
    exact ⟨x, hx, mem_append_left _ hmem⟩

/-! ### Rows as linear factors -/

section Sentinel

variable {R S : Type} [CommRing R] [CommRing S]

/-- The value at `x` of the monic polynomial whose other coefficients are given. -/
def sentinel (x : R) : List R → R
  | [] => 1
  | c :: cs => x * sentinel x cs + c

theorem map_sentinel (φ : R →+* S) (x : R) (cs : List R) : φ (sentinel x cs) = sentinel (φ x) (cs.map φ) := by
  induction cs with
  | nil => exact map_one φ
  | cons c cs ih => rw [sentinel, map_add, map_mul, ih, map_cons, sentinel]

theorem foldl_sentinel (x : R) (cs tl : List R) :
    cs.foldl (fun acc c => x * acc + c) (sentinel x tl) = sentinel x (cs.reverse ++ tl) := by
  induction cs generalizing tl with
  | nil => rfl
  | cons c cs ih => rw [foldl_cons, ← sentinel, ih, reverse_cons, append_assoc, singleton_append]

end Sentinel

section

open Polynomial

variable [Field K]

theorem eq_of_X_mul_add_C {p q : K[X]} {c d : K} (h : X * p + C c = X * q + C d) : p = q ∧ c = d := by
  constructor
  · ext n
    simpa [coeff_C_succ] using congrArg (coeff · (n + 1)) h
  · simpa using congrArg (coeff · 0) h

theorem sentinel_ne_zero (row : List K) : sentinel (X : K[X]) (row.map C) ≠ 0 := by
  induction row with
  | nil => exact one_ne_zero
  | cons c cs ih =>
    intro h
    refine ih (eq_of_X_mul_add_C (q := 0) (d := 0) (c := c) ?_).1
    rwa [mul_zero, map_zero, add_zero]

theorem sentinel_injective : Function.Injective fun row : List K => sentinel (X : K[X]) (row.map C) := by
  have hone (c : K) (cs : List K) (h : (1 : K[X]) = X * sentinel X (cs.map C) + C c) : False := by
    refine sentinel_ne_zero cs (eq_of_X_mul_add_C (p := 0) (c := 1) (d := c) ?_).1.symm
    rwa [mul_zero, zero_add, map_one]
  intro row
  induction row with
  | nil =>
    rintro (_ | ⟨d, ds⟩) h
    · rfl
    · exact (hone d ds h).elim
  | cons c cs ih =>
    rintro (_ | ⟨d, ds⟩) h
    · exact (hone c cs h.symm).elim
    · obtain ⟨h1, rfl⟩ := eq_of_X_mul_add_C h
      rw [ih h1]

end

section

open MvPolynomial

variable [Field K]

/-- The coins that lead factors have odd numbers. -/
def IsBeta (id : Nat) : Prop := id % 2 = 1

/-- What a row adds to `β`, with the coins of the query `qi`. -/
noncomputable def rowTail (useAlpha : Bool) (qi : Nat) (row : List K) : MvPolynomial Nat K :=
  match useAlpha with
  | true => sentinel (X (2 * qi)) (row.map C)
  | false => C (row.headD 0)

theorem avoidsVar_rowTail (useAlpha : Bool) (qi : Nat) (row : List K) {i : Nat} (hi : IsBeta i) :
    AvoidsVar i (rowTail useAlpha qi row) := by
  intro e
  have hX : replaceVar i e (X (2 * qi) : MvPolynomial Nat K) = X (2 * qi) :=
    replaceVar_X_of_ne (by simp only [IsBeta] at hi; omega) e
  cases useAlpha with
  | false => exact avoidsVar_C i _ e
  | true =>
    have := map_sentinel (replaceVar i e).toRingHom (X (2 * qi)) (row.map (C : K → MvPolynomial Nat K))
    simp only [AlgHom.toRingHom_eq_coe, RingHom.coe_coe, hX, map_map] at this
    refine this.trans (congrArg _ (map_congr_left fun c _ => ?_))
    exact avoidsVar_C i c e

noncomputable def rowFactor (useAlpha : Bool) (qi : Nat) (row : List K) : LinearFactor K IsBeta where
  lead := betaOf qi
  tail := rowTail useAlpha qi row
  lead_marked := by simp only [IsBeta, betaOf]; omega
  tail_avoids _ hi := avoidsVar_rowTail useAlpha qi row hi

theorem rowFactor_injOn (useAlpha : Bool) (qi : Nat) {rows : Set (List K)}
    (hrows : useAlpha = false → ∀ row ∈ rows, row.length = 1) : Set.InjOn (rowFactor useAlpha qi) rows := by
  intro row hrow row' hrow' h
  have htail : rowTail useAlpha qi row = rowTail useAlpha qi row' := congrArg LinearFactor.tail h
  cases useAlpha with
  | false =>
    obtain ⟨c, rfl⟩ := length_eq_one_iff.1 (hrows rfl row hrow)
    obtain ⟨d, rfl⟩ := length_eq_one_iff.1 (hrows rfl row' hrow')
    have : C c = (C d : MvPolynomial Nat K) := htail
    rw [C_injective _ _ this]
  | true =>
    -- all coins become the one variable of the polynomial of a row
    have hmap := congrArg (aeval fun _ : Nat => (Polynomial.X : Polynomial K)) htail
    have hsent (row : List K) : aeval (fun _ : Nat => (Polynomial.X : Polynomial K)) (rowTail true qi row) =
        sentinel Polynomial.X (row.map Polynomial.C) := by
      have := map_sentinel (aeval fun _ : Nat => (Polynomial.X : Polynomial K)).toRingHom (X (2 * qi)) (row.map C)
      simp only [AlgHom.toRingHom_eq_coe, RingHom.coe_coe, aeval_X, map_map] at this
      refine this.trans (congrArg _ (map_congr_left fun c _ => ?_))
      exact aeval_C _ c
    rw [hsent, hsent] at hmap
    exact sentinel_injective hmap

theorem eval_rlcWithSentinel {K' : Type} [Field K'] [Algebra K K'] (v : Values Column K') (n row alpha : Nat)
    {cols : List (TableEntry K)} (hcols : cols ≠ []) :
    (rlcWithSentinel alpha cols).eval (Leaf.value v n row) =
      sentinel (v.coin alpha) (cols.map fun e => e.leaf.value v n row) := by
  have hfold (xs : List (TableEntry K)) (acc : Factor K) :
      (xs.foldl (fun acc e => .add (.mul (.leaf (.coin alpha)) acc) (.leaf e.leaf)) acc).eval (Leaf.value v n row) =
        (xs.map fun e => e.leaf.value v n row).foldl (fun acc c => v.coin alpha * acc + c)
          (acc.eval (Leaf.value v n row)) := by
    induction xs generalizing acc with
    | nil => rfl
    | cons x xs ih => exact ih _
  cases hrev : cols.reverse with
  | nil => exact absurd (reverse_eq_nil_iff.1 hrev) hcols
  | cons last rest =>
    have hcols' : cols = rest.reverse ++ [last] := by rw [← reverse_reverse cols, hrev, reverse_cons]
    have hinit : (add (.leaf (.coin alpha)) (.leaf last.leaf) : Factor K).eval (Leaf.value v n row) =
        sentinel (v.coin alpha) [last.leaf.value v n row] := by
      rw [sentinel, sentinel, mul_one]
      rfl
    rw [rlcWithSentinel, hrev, hfold, hinit, foldl_sentinel, hcols', map_append, map_reverse, map_singleton]

/-! ### The products as polynomials -/

variable {mods : Nat → Module} (rt : Runtime mods K)

theorem entry_formal (n row : Nat) (x : TableEntry K) :
    x.leaf.value rt.formal.values n row =
      algebraMap (MvPolynomial Nat K) (Formal K) (C (rt.entry n row x)) := by
  have htower (c : K) := IsScalarTower.algebraMap_apply K (MvPolynomial Nat K) (Formal K) c
  cases x with
  | view cv => exact htower _
  | const m c => exact htower c

theorem eval_rlcOfTable_formal (useAlpha : Bool) (qi : Nat) {rlc : Factor K}
    (h : rlcOfTable (if useAlpha then some (2 * qi) else none) tab = .ok rlc) (row : Nat) :
    rlc.eval (Leaf.value rt.formal.values (rt.runtimeSize tab.module) row) =
      algebraMap (MvPolynomial Nat K) (Formal K) (rowTail useAlpha qi (rt.tuple tab row)) := by
  cases useAlpha with
  | true =>
    cases (rlcOfTable_some _ tab).symm.trans h
    rw [eval_rlcWithSentinel _ _ _ _ tab.columns_ne_nil]
    refine Eq.trans ?_ (map_sentinel (algebraMap (MvPolynomial Nat K) (Formal K)) (X (2 * qi))
      ((rt.tuple tab row).map C)).symm
    simp only [entry_formal, Runtime.tuple, map_map]
    rfl
  | false =>
    obtain ⟨x, hx, rfl⟩ := rlcOfTable_none.1 h
    refine (entry_formal rt _ row x).trans ?_
    simp [rowTail, Runtime.tuple, hx]

/-- A row that is selected keeps its factor, another becomes 1. -/
theorem eval_selectorFold_formal [DecidableEq K] (hbin : rt.Binary tab) {row : Nat}
    (hrow : row < rt.runtimeSize tab.module)
    (f : Factor K) : (selectorFold tab.selector f).eval (Leaf.value rt.formal.values (rt.runtimeSize tab.module) row) =
      if rt.Selects tab row then f.eval (Leaf.value rt.formal.values (rt.runtimeSize tab.module) row) else 1 := by
  cases hsel : tab.selector with
  | none => rw [if_pos (by simp [Runtime.Selects, hsel])]; rfl
  | some cv =>
    have hvalue : (Leaf.column cv.column cv.shiftingOffset : Leaf K Column).value rt.formal.values
        (rt.runtimeSize tab.module) row =
          algebraMap K (Formal K) (rt.selectorValue (rt.runtimeSize tab.module) row cv) := rfl
    have hselects : rt.Selects tab row ↔ rt.selectorValue (rt.runtimeSize tab.module) row cv = 1 := by
      simp [Runtime.Selects, hsel]
    simp only [selectorFold, Expression.eval, hvalue, hselects]
    rcases hbin cv hsel row hrow with h | h
    · rw [h, if_neg zero_ne_one]
      simp [Leaf.value]
    · rw [h, if_pos rfl]
      simp [Leaf.value]

variable {useAlpha : Bool}

theorem factorProduct_formal [DecidableEq K] (hbin : rt.Binary tab) {qi : Nat} {f : Factor K}
    (hmod : (selectorFold tab.selector f).module = tab.module)
    (hf : ∀ row, f.eval (Leaf.value rt.formal.values (rt.runtimeSize tab.module) row) =
      algebraMap (MvPolynomial Nat K) (Formal K) (rowFactor useAlpha qi (rt.tuple tab row)).poly) :
    rt.formal.factorProduct (selectorFold tab.selector f) = algebraMap (MvPolynomial Nat K) (Formal K)
      (((rt.tableRows tab).map fun row => (rowFactor useAlpha qi row).poly)).prod := by
  have hat : ∀ row < rt.runtimeSize tab.module, rt.formal.factorAt (selectorFold tab.selector f) row =
      if rt.Selects tab row then
        algebraMap (MvPolynomial Nat K) (Formal K) (rowFactor useAlpha qi (rt.tuple tab row)).poly else 1 := by
    intro row hrow
    rw [← hf row, ← eval_selectorFold_formal rt hbin hrow, Runtime.factorAt, hmod]
    rfl
  have hprod (n : Nat) (g : Nat → Formal K) : ∏ row ∈ Finset.range n, (if rt.Selects tab row then g row else 1) =
      (((range n).filter (rt.Selects tab)).map g).prod := by
    induction n with
    | zero => rfl
    | succ n ih =>
      rw [Finset.prod_range_succ, ih, range_succ, filter_append, map_append, prod_append]
      by_cases h : rt.Selects tab n <;> simp [h]
  rw [Runtime.factorProduct, hmod]
  show ∏ row ∈ Finset.range (rt.runtimeSize tab.module), _ = _
  rw [Finset.prod_congr rfl fun row hrow => hat row (Finset.mem_range.1 hrow), hprod, map_list_prod,
    Runtime.tableRows, map_map, map_map]
  rfl

theorem productOverRows_formal [DecidableEq K] {qi : Nat} {tables : List (Table K)} {factors : List (Factor K)}
    (h : List.Forall₂ (fun tab f => rt.formal.factorProduct f = algebraMap (MvPolynomial Nat K) (Formal K)
      ((rt.tableRows tab).map fun row => (rowFactor useAlpha qi row).poly).prod) tables factors) :
    rt.formal.productOverRows factors = algebraMap (MvPolynomial Nat K) (Formal K)
      (((rt.rows tables).map (rowFactor useAlpha qi)).map LinearFactor.poly).prod := by
  induction h with
  | nil => simp [Runtime.productOverRows, Runtime.rows]
  | @cons tab f tables factors hf _ ih =>
    rw [Runtime.productOverRows] at ih ⊢
    rw [map_cons, prod_cons, ih, hf, ← map_mul, Runtime.rows, Runtime.rows, flatMap_cons, map_append,
      map_append, prod_append]
    simp only [map_map, Function.comp_def]

theorem algebraMap_prod_eq_iff {fs gs : List (LinearFactor K IsBeta)} :
    algebraMap (MvPolynomial Nat K) (Formal K) (fs.map LinearFactor.poly).prod =
      algebraMap (MvPolynomial Nat K) (Formal K) (gs.map LinearFactor.poly).prod ↔ fs.Perm gs := by
  rw [(IsFractionRing.injective (MvPolynomial Nat K) (Formal K)).eq_iff, ← Multiset.coe_eq_coe]
  refine Iff.trans ?_ LinearFactor.prod_inj
  simp only [Multiset.map_coe, Multiset.prod_coe]

theorem perm_of_map_perm {α β : Type} {f : α → β} {xs ys : List α} (hinj : Set.InjOn f {x | x ∈ xs ∨ x ∈ ys})
    (h : (xs.map f).Perm (ys.map f)) : xs.Perm ys := by
  cases xs with
  | nil => rw [map_eq_nil_iff.1 h.symm.eq_nil]
  | cons x xs =>
    have : Nonempty α := ⟨x⟩
    have hinv (zs : List α) (hzs : ∀ z ∈ zs, z ∈ x :: xs ∨ z ∈ ys) :
        (zs.map f).map (Function.invFunOn f {z | z ∈ x :: xs ∨ z ∈ ys}) = zs := by
      rw [map_map]
      exact (map_congr_left fun z hz => hinj.leftInvOn_invFunOn (hzs z hz)).trans (map_id zs)
    have := h.map (Function.invFunOn f {z | z ∈ x :: xs ∨ z ∈ ys})
    rwa [hinv _ fun z hz => .inl hz, hinv ys fun z hz => .inr hz] at this

/-- Lists of two parts that a property separates are permuted part by part. -/
theorem append_perm_append_iff {α : Type} {xs xs' ys ys' : List α} (p : α → Prop) [DecidablePred p]
    (hxs : ∀ x ∈ xs, p x) (hxs' : ∀ x ∈ xs', p x) (hys : ∀ y ∈ ys, ¬ p y) (hys' : ∀ y ∈ ys', ¬ p y) :
    (xs ++ ys).Perm (xs' ++ ys') ↔ xs.Perm xs' ∧ ys.Perm ys' := by
  have hpos {zs : List α} (h : ∀ z ∈ zs, p z) : zs.filter (fun z => p z) = zs ∧ zs.filter (fun z => ¬ p z) = [] :=
    ⟨filter_eq_self.2 fun z hz => decide_eq_true (h z hz), filter_eq_nil_iff.2 fun z hz => by simp [h z hz]⟩
  have hneg {zs : List α} (h : ∀ z ∈ zs, ¬ p z) : zs.filter (fun z => p z) = [] ∧ zs.filter (fun z => ¬ p z) = zs :=
    ⟨filter_eq_nil_iff.2 fun z hz => by simp [h z hz], filter_eq_self.2 fun z hz => decide_eq_true (h z hz)⟩
  refine ⟨fun h => ⟨?_, ?_⟩, fun h => h.1.append h.2⟩
  · have := h.filter fun z => p z
    rwa [filter_append, filter_append, (hpos hxs).1, (hpos hxs').1, (hneg hys).1, (hneg hys').1,
      append_nil, append_nil] at this
  · have := h.filter fun z => ¬ p z
    rwa [filter_append, filter_append, (hpos hxs).2, (hpos hxs').2, (hneg hys).2, (hneg hys').2,
      nil_append, nil_append] at this

theorem map_rowFactor_perm {qi : Nat} {rows rows' : List (List K)}
    (hlen : useAlpha = false → ∀ row, row ∈ rows ∨ row ∈ rows' → row.length = 1) :
    (rows.map (rowFactor useAlpha qi)).Perm (rows'.map (rowFactor useAlpha qi)) ↔ rows.Perm rows' :=
  ⟨perm_of_map_perm (rowFactor_injOn useAlpha qi fun h row hrow => hlen h row hrow), fun h => h.map _⟩

theorem length_of_mem_rows [DecidableEq K] {tables : List (Table K)} {row : List K} (h : row ∈ rt.rows tables) :
    ∃ tab ∈ tables, row.length = tab.width := by
  obtain ⟨tab, htab, hrow⟩ := mem_flatMap.1 h
  obtain ⟨i, -, rfl⟩ := mem_map.1 hrow
  exact ⟨tab, htab, by rw [Runtime.tuple, length_map, Table.width]⟩

end

def usesAlpha (q : TableRelationQuery K) : Bool := maxFragmentWidth q > 1

theorem alphaOf_eq (q : TableRelationQuery K) (qi : Nat) :
    alphaOf q qi = if usesAlpha q then some (2 * qi) else none := by
  simp [alphaOf, usesAlpha]

theorem le_foldl_max {xs : List Nat} {x a : Nat} (h : x ∈ xs ∨ x ≤ a) : x ≤ xs.foldl max a := by
  induction xs generalizing a with
  | nil => exact h.resolve_left not_mem_nil
  | cons y ys ih =>
    refine ih ?_
    rcases h with h | h
    · rcases mem_cons.1 h with rfl | h
      · exact .inr (Nat.le_max_right _ _)
      · exact .inl h
    · exact .inr (h.trans (Nat.le_max_left _ _))

theorem width_eq_one {q : TableRelationQuery K} (hq : usesAlpha q = false) {tab : Table K} (htab : tab ∈ q.A ++ q.B) :
    tab.width = 1 := by
  have hle : tab.width ≤ maxFragmentWidth q := le_foldl_max (.inl (mem_map_of_mem htab))
  have hpos : 0 < tab.width := length_pos_iff.2 tab.columns_ne_nil
  simp only [usesAlpha, gt_iff_lt, decide_eq_false_iff_not] at hq
  omega

section

variable [Field K] {mods : Nat → Module} {gp : GrandProduct K} {sides : List (List (Table K) × List (Table K))}

theorem queryFactors_eq_ok {q : TableRelationQuery K × Nat} (h : queryFactors q = .ok gp) :
    q.1.A.mapM (permutationFactor (alphaOf q.1 q.2) (betaOf q.2)) = .ok gp.numerators ∧
      q.1.B.mapM (permutationFactor (alphaOf q.1 q.2) (betaOf q.2)) = .ok gp.denominators := by
  obtain ⟨nums, hnums, h⟩ := bind_eq_ok.1 h
  obtain ⟨dens, hdens, h⟩ := bind_eq_ok.1 h
  cases h
  exact ⟨hnums, hdens⟩

theorem compilePermutations_eq_some {relations : List (TableRelationQuery K)}
    (h : compilePermutations mods relations = .ok (some gp)) :
    ∃ gps, List.Forall₂ (fun q gp => queryFactors q = .ok gp) (pendingPermutations relations).zipIdx gps ∧
      gp = ⟨gps.flatMap GrandProduct.numerators, gps.flatMap GrandProduct.denominators⟩ := by
  simp only [compilePermutations] at h
  split_ifs at h
  · cases h
  obtain ⟨_, -, h⟩ := bind_eq_ok.1 h
  obtain ⟨gps, hgps, h⟩ := bind_eq_ok.1 h
  cases h
  exact ⟨gps, mapM_eq_ok_iff.1 hgps, rfl⟩

theorem mem_compileMessageBuses {entries : List (MessageBus K)} {gps : List (String × GrandProduct K)} {h : String}
    (hc : compileMessageBuses entries = .ok gps) (hgp : (h, gp) ∈ gps) :
    gp = ⟨(busTables entries h .send).map (permutationFold 0 1),
      (busTables entries h .receive).map (permutationFold 0 1)⟩ := by
  unfold compileMessageBuses at hc
  split at hc
  · cases hc
    cases hgp
  · obtain ⟨_, -, hc⟩ := bind_eq_ok.1 hc
    obtain ⟨_, -, hc⟩ := bind_eq_ok.1 hc
    obtain ⟨_, -, hc⟩ := bind_eq_ok.1 hc
    cases hc
    obtain ⟨h', -, heq⟩ := mem_map.1 hgp
    cases heq
    rfl

theorem Reduces.wellFormed (h : Reduces mods gp sides) : gp.WellFormed := by
  intro e he
  cases h with
  | permutations h =>
    obtain ⟨gps, hgps, rfl⟩ := compilePermutations_eq_some h
    have hquery {gp} (hgp : gp ∈ gps) : ∀ e ∈ gp.numerators ++ gp.denominators, e.WellFormed := by
      obtain ⟨i, hi, rfl⟩ := getElem_of_mem hgp
      have hq := queryFactors_eq_ok (hgps.get (hgps.length_eq ▸ hi) hi)
      intro e he
      rcases mem_append.1 he with he | he
      · obtain ⟨j, hj, rfl⟩ := getElem_of_mem he
        have := mapM_eq_ok_iff.1 hq.1
        exact (factorOf_permutationFactor (this.get (this.length_eq ▸ hj) hj)).wellFormed
      · obtain ⟨j, hj, rfl⟩ := getElem_of_mem he
        have := mapM_eq_ok_iff.1 hq.2
        exact (factorOf_permutationFactor (this.get (this.length_eq ▸ hj) hj)).wellFormed
    rcases mem_append.1 he with he | he
    · obtain ⟨gp, hgp, he⟩ := mem_flatMap.1 he
      exact hquery hgp e (mem_append_left _ he)
    · obtain ⟨gp, hgp, he⟩ := mem_flatMap.1 he
      exact hquery hgp e (mem_append_right _ he)
  | handle hc hgp =>
    rw [mem_compileMessageBuses hc hgp] at he
    rcases mem_append.1 he with he | he
    · obtain ⟨tab, -, rfl⟩ := mem_map.1 he
      exact (factorOf_permutationFold 0 1 tab).wellFormed
    · obtain ⟨tab, -, rfl⟩ := mem_map.1 he
      exact (factorOf_permutationFold 0 1 tab).wellFormed

end

section

variable [Field K] [DecidableEq K] {mods : Nat → Module} (rt : Runtime mods K)

/-- The linear factors of the rows of one side of a query. -/
noncomputable def sideFactors (side : TableRelationQuery K → List (Table K)) (q : TableRelationQuery K × Nat) :
    List (LinearFactor K IsBeta) := (rt.rows (side q.1)).map (rowFactor (usesAlpha q.1) q.2)

/-- The factors of different queries have different coins, so they are compared query by query. -/
theorem flatMap_sideFactors_perm (qs : List (TableRelationQuery K)) (k : Nat) :
    ((qs.zipIdx k).flatMap (sideFactors rt TableRelationQuery.A)).Perm
        ((qs.zipIdx k).flatMap (sideFactors rt TableRelationQuery.B)) ↔
      ∀ q ∈ qs, (rt.rows q.A).Perm (rt.rows q.B) := by
  have hlead {side} {q : TableRelationQuery K × Nat} {u} (hu : u ∈ sideFactors rt side q) : u.lead = betaOf q.2 := by
    obtain ⟨row, -, rfl⟩ := mem_map.1 hu
    rfl
  have hone (q : TableRelationQuery K) (k : Nat) : (sideFactors rt TableRelationQuery.A (q, k)).Perm
      (sideFactors rt TableRelationQuery.B (q, k)) ↔ (rt.rows q.A).Perm (rt.rows q.B) := by
    refine map_rowFactor_perm fun hq row hrow => ?_
    rcases hrow with hrow | hrow
    · obtain ⟨tab, htab, hlen⟩ := length_of_mem_rows rt hrow
      rw [hlen, width_eq_one hq (mem_append_left _ htab)]
    · obtain ⟨tab, htab, hlen⟩ := length_of_mem_rows rt hrow
      rw [hlen, width_eq_one hq (mem_append_right _ htab)]
  induction qs generalizing k with
  | nil => simp
  | cons q qs ih =>
    rw [zipIdx_cons, flatMap_cons, flatMap_cons, forall_mem_cons]
    -- the coin of the first query separates its factors from the others
    have hfirst (side) : ∀ u ∈ sideFactors rt side (q, k), u.lead = betaOf k := fun u hu => hlead hu
    have hrest (side) : ∀ u ∈ (qs.zipIdx (k + 1)).flatMap (sideFactors rt side), ¬ u.lead = betaOf k := by
      intro u hu
      obtain ⟨x, hx, hu⟩ := mem_flatMap.1 hu
      rw [hlead hu]
      have := le_snd_of_mem_zipIdx hx
      simp only [betaOf]
      omega
    exact (append_perm_append_iff (fun u => u.lead = betaOf k) (hfirst _) (hfirst _) (hrest _) (hrest _)).trans
      (and_congr (hone q k) (ih (k + 1)))

theorem factorProduct_permutationFactor {q : TableRelationQuery K × Nat} {tab : Table K}
    (hbin : rt.Binary tab) {f : Factor K} (h : permutationFactor (alphaOf q.1 q.2) (betaOf q.2) tab = .ok f) :
    rt.formal.factorProduct f = algebraMap (MvPolynomial Nat K) (Formal K)
      ((rt.tableRows tab).map fun row => (rowFactor (usesAlpha q.1) q.2 row).poly).prod := by
  have hmod := (factorOf_permutationFactor h).module_eq
  obtain ⟨rlc, hrlc, hf⟩ := bind_eq_ok.1 h
  cases hf
  rw [alphaOf_eq] at hrlc
  refine factorProduct_formal rt hbin hmod fun row => ?_
  rw [Expression.eval, eval_rlcOfTable_formal rt _ _ hrlc row, LinearFactor.poly, map_add, add_comm]
  rfl

theorem factorProduct_permutationFold {tab : Table K} (hbin : rt.Binary tab) :
    rt.formal.factorProduct (permutationFold 0 1 tab) = algebraMap (MvPolynomial Nat K) (Formal K)
      ((rt.tableRows tab).map fun row => (rowFactor true 0 row).poly).prod := by
  refine factorProduct_formal rt hbin (factorOf_permutationFold 0 1 tab).module_eq fun row => ?_
  have hrlc := eval_rlcOfTable_formal rt true 0 (rlcOfTable_some 0 tab) row
  rw [Expression.eval, hrlc, LinearFactor.poly, map_add]
  rfl

theorem productOverRows_queries {side : TableRelationQuery K → List (Table K)}
    {factors : GrandProduct K → List (Factor K)} (hside : ∀ q gp, queryFactors q = .ok gp →
      (side q.1).mapM (permutationFactor (alphaOf q.1 q.2) (betaOf q.2)) = .ok (factors gp))
    {qs : List (TableRelationQuery K × Nat)} {gps : List (GrandProduct K)}
    (h : List.Forall₂ (fun q gp => queryFactors q = .ok gp) qs gps) (hbin : ∀ q ∈ qs, ∀ tab ∈ side q.1, rt.Binary tab) :
    rt.formal.productOverRows (gps.flatMap factors) = algebraMap (MvPolynomial Nat K) (Formal K)
      ((qs.flatMap (sideFactors rt side)).map LinearFactor.poly).prod := by
  induction h with
  | nil => simp [Runtime.productOverRows]
  | @cons q gp qs gps hq _ ih =>
    rw [forall_mem_cons] at hbin
    have htabs : List.Forall₂ (fun tab f => rt.formal.factorProduct f = algebraMap (MvPolynomial Nat K) (Formal K)
        ((rt.tableRows tab).map fun row => (rowFactor (usesAlpha q.1) q.2 row).poly).prod) (side q.1) (factors gp) :=
      ((forall₂_and_left _ _).2 ⟨hbin.1, mapM_eq_ok_iff.1 (hside q gp hq)⟩).imp fun tab f h =>
        factorProduct_permutationFactor rt h.1 h.2
    rw [flatMap_cons, flatMap_cons, map_append, prod_append, map_mul, ← ih hbin.2, sideFactors,
      ← productOverRows_formal rt htabs]
    simp only [Runtime.productOverRows, map_append, prod_append]

variable {gp : GrandProduct K} {sides : List (List (Table K) × List (Table K))}

/-- As polynomials in the coins, the two products are equal exactly if the sides have the same rows. -/
theorem Reduces.formal_iff (h : Reduces mods gp sides) (hbin : ∀ s ∈ sides, ∀ tab ∈ s.1 ++ s.2, rt.Binary tab) :
    rt.formal.productOverRows gp.numerators = rt.formal.productOverRows gp.denominators ↔
      ∀ s ∈ sides, (rt.rows s.1).Perm (rt.rows s.2) := by
  cases h with
  | @permutations relations _ h =>
    obtain ⟨gps, hgps, rfl⟩ := compilePermutations_eq_some h
    have hbin' (side : TableRelationQuery K → List (Table K)) (hside : ∀ q, ∀ tab ∈ side q, tab ∈ q.A ++ q.B) :
        ∀ q ∈ (pendingPermutations relations).zipIdx, ∀ tab ∈ side q.1, rt.Binary tab := fun q hq tab htab =>
      hbin (q.1.A, q.1.B) (mem_map.2 ⟨q.1, fst_mem_of_mem_zipIdx hq, rfl⟩) tab (hside q.1 tab htab)
    rw [productOverRows_queries rt (fun q gp h => (queryFactors_eq_ok h).1) hgps
        (hbin' TableRelationQuery.A fun q tab => mem_append_left _),
      productOverRows_queries rt (fun q gp h => (queryFactors_eq_ok h).2) hgps
        (hbin' TableRelationQuery.B fun q tab => mem_append_right _),
      algebraMap_prod_eq_iff, flatMap_sideFactors_perm, forall_mem_map]
  | @handle entries _ h _ hc hgp =>
    rw [mem_compileMessageBuses hc hgp]
    have hside {tables : List (Table K)} (htables : ∀ tab ∈ tables, rt.Binary tab) :
        rt.formal.productOverRows (tables.map (permutationFold 0 1)) = algebraMap (MvPolynomial Nat K) (Formal K)
          (((rt.rows tables).map (rowFactor true 0)).map LinearFactor.poly).prod :=
      productOverRows_formal rt (forall₂_map_right_iff.2
        (forall₂_same.2 fun tab htab => factorProduct_permutationFold rt (htables tab htab)))
    rw [forall_mem_singleton] at hbin ⊢
    rw [hside fun tab htab => hbin tab (mem_append_left _ htab),
      hside fun tab htab => hbin tab (mem_append_right _ htab), algebraMap_prod_eq_iff,
      map_rowFactor_perm fun h => absurd h Bool.true_eq_false_eq_False]

/-- The reduction of permutations and message buses to grand products, and of these to running products, is exact if the
columns `Z` are pinned down to their last rows, and only then. -/
theorem reduction_exact_iff (h : Reduces mods gp sides) (hbin : ∀ s ∈ sides, ∀ tab ∈ s.1 ++ s.2, rt.Binary tab) :
    ((rt.formal.productOverRows gp.numerators = rt.formal.productOverRows gp.denominators ↔
        ∀ s ∈ sides, (rt.rows s.1).Perm (rt.rows s.2)) ∧ (gp.Defined rt → gp.Exact rt)) ↔
      (gp.Defined rt → gp.Determined rt) := by
  constructor
  · rintro ⟨-, hexact⟩ hd
    exact (h.wellFormed.exact_iff hd).1 (hexact hd)
  · intro hdet
    exact ⟨h.formal_iff rt hbin, fun hd => (h.wellFormed.exact_iff hd).2 (hdet hd)⟩

end

/-! ### Two columns of two rows -/

open Koalabear

def shiftedPermutation (shift : Int) : TableRelationQuery Element where
  kind := .permutation
  A := [{ columns := [.view ⟨⟨0, 0, 0⟩, shift⟩], selector := none, module := 0
          columns_ne_nil := cons_ne_nil _ _, columns_module := by simp [TableEntry.module], selector_module := by simp
          has_view := .inr ⟨_, mem_singleton_self _⟩ }]
  B := [{ columns := [.view ⟨⟨0, 0, 1⟩, 0⟩], selector := none, module := 0
          columns_ne_nil := cons_ne_nil _ _, columns_module := by simp [TableEntry.module], selector_module := by simp
          has_view := .inr ⟨_, mem_singleton_self _⟩ }]
  isReduced := false
  A_ne_nil := cons_ne_nil _ _
  B_ne_nil := cons_ne_nil _ _

def shiftedGrandProduct (shift : Int) : GrandProduct Element where
  numerators := [.add (.leaf (.column ⟨0, 0, 0⟩ shift)) (.leaf (.coin 1))]
  denominators := [.add (.leaf (.column ⟨0, 0, 1⟩ 0)) (.leaf (.coin 1))]

theorem compile_shiftedPermutation (shift : Int) :
    compilePermutations (fun _ => .sized 2) [shiftedPermutation shift] = .ok (some (shiftedGrandProduct shift)) := rfl

/-- The columns `[a, a']` and `[b, b']`, with coins that are 0. -/
def twoRows (a a' b b' : Element) : Runtime (fun _ => .sized 2) Element where
  runtimeSize _ := 2
  column c i := if c.index = 0 then (if i = 0 then a else a') else if i = 0 then b else b'
  coin _ := 0
  cell _ := 0
  runtimeSize_pos _ := Nat.two_pos
  runtimeSize_eq _ _ := rfl

theorem groups_shiftedGrandProduct (shift : Int) : (shiftedGrandProduct shift).groups =
    [⟨0, (shiftedGrandProduct shift).numerators, (shiftedGrandProduct shift).denominators⟩] := by
  have hceil : divCeil 1 packingArity = 1 := by decide
  show ([0].flatMap fun m => packModule m _ _) = _
  rw [flatMap_singleton, packModule]
  show (range (max (divCeil 1 packingArity) (divCeil 1 packingArity))).map _ = _
  rw [hceil]
  rfl

theorem defined_shiftedGrandProduct {shift : Int} {a a' b b' : Element} (hb : b ≠ 0) (hb' : b' ≠ 0) :
    (shiftedGrandProduct shift).Defined (twoRows a a' b b') := by
  intro e he row hrow
  rw [mem_singleton.1 he] at hrow ⊢
  have hrow : row < 2 := hrow
  interval_cases row
  · exact fun h => hb ((add_zero b).symm.trans h)
  · exact fun h => hb' ((add_zero b').symm.trans h)

/-- Without a shift, the result of the grand product is forced. -/
theorem reduction_exact_unshifted : (shiftedGrandProduct 0).Exact (twoRows 1 2 2 1) := by
  have hbin : ∀ s ∈ (pendingPermutations [shiftedPermutation 0]).map fun q => (q.A, q.B), ∀ tab ∈ s.1 ++ s.2,
      (twoRows 1 2 2 1).Binary tab := by
    intro s hs tab htab cv hcv
    cases mem_singleton.1 hs
    rcases mem_append.1 htab with htab | htab <;> cases mem_singleton.1 htab <;> cases hcv
  have hdet : (shiftedGrandProduct 0).Determined (twoRows 1 2 2 1) :=
    GrandProduct.determined_of_unshifted (fun _ => .inr rfl) (by simp [shiftedGrandProduct, Expression.leaves])
  exact ((reduction_exact_iff _ (.permutations (compile_shiftedPermutation 0)) hbin).2 fun _ => hdet).2
    (defined_shiftedGrandProduct (by decide) (by decide))

/-- With a shift by one, the last of two rows is not checked: `[1, 2]` passes for a permutation of `[3, 4]`. -/
theorem shifted_permutation_accepted :
    compilePermutations (fun _ => .sized 2) [shiftedPermutation 1] = .ok (some (shiftedGrandProduct 1)) ∧
    (shiftedGrandProduct 1).Defined (twoRows 1 2 3 4) ∧
    (∃ entries, compileGrandProduct (fun _ => .sized 2) (shiftedGrandProduct 1) = .ok entries ∧
      Discharges (twoRows 1 2 3 4) entries 1) ∧
    (twoRows 1 2 3 4).productOverRows (shiftedGrandProduct 1).numerators ≠
      (twoRows 1 2 3 4).productOverRows (shiftedGrandProduct 1).denominators ∧
    ¬ ((twoRows 1 2 3 4).rows (shiftedPermutation 1).A).Perm ((twoRows 1 2 3 4).rows (shiftedPermutation 1).B) := by
  have hd : (shiftedGrandProduct 1).Defined (twoRows 1 2 3 4) := defined_shiftedGrandProduct (by decide) (by decide)
  have hwf : (shiftedGrandProduct 1).WellFormed := Reduces.wellFormed (.permutations (compile_shiftedPermutation 1))
  have hdef : ∀ r ∈ (shiftedGrandProduct 1).groups.map (ZGroup.runningProduct (twoRows 1 2 3 4)), r.Defined := by
    intro r hr
    obtain ⟨g, hg, rfl⟩ := mem_map.1 hr
    exact hd.runningProduct_defined hwf hg
  -- the view of the factor wraps around on the last row
  have hfree : ∀ r ∈ (shiftedGrandProduct 1).groups.map (ZGroup.runningProduct (twoRows 1 2 3 4)), ¬ r.Forced := by
    intro r hr hforced
    rw [groups_shiftedGrandProduct, map_singleton, mem_singleton] at hr
    subst hr
    obtain ⟨j, h1, h2, -⟩ := hforced 1 Nat.one_pos Nat.one_lt_two fun h => absurd (h.2 1 (by decide)).2 (by decide)
    exact absurd h2 (Nat.not_lt.2 h1)
  have hnot : ¬ RunningProduct.AllForced
      ((shiftedGrandProduct 1).groups.map (ZGroup.runningProduct (twoRows 1 2 3 4))) := by
    rintro (h | ⟨r, hr, h, -⟩)
    · exact hfree _ (by rw [groups_shiftedGrandProduct]; exact mem_singleton_self _) (h _
        (by rw [groups_shiftedGrandProduct]; exact mem_singleton_self _))
    · exact hfree r hr h
  refine ⟨rfl, hd, ⟨_, (mapM_buildZ_eq_ok hwf.groups_wellFormed).2 ⟨fun _ _ => .inl rfl, rfl⟩,
    (discharges_iff hwf.groups_wellFormed fun _ _ => .inl rfl).2
      ⟨fun _ _ => .inl rfl, RunningProduct.endsAll_of_not_allForced hdef hnot 1⟩⟩, ?_, ?_⟩
  · decide +kernel
  · decide

end Lineth.Wiop

import Lineth.Accumulator.Leaf
import Mathlib.Data.List.AList

/-!
# The prover's side of the accumulator

The prover keeps the tree and, for every occupied position, the opened leaf with its key and value. Each operation
returns a trace. The scans over the entries follow Go's map iteration: an operation takes, for each scan, the
`Shuffle` that the runtime picked. A panic ends an operation, so its state is not kept. -/

namespace Lineth.Accumulator

open Smt (Proof)

inductive Panic where
  | tree (p : Smt.Panic)
  | entryAlreadyFound | entryMissing
  | keyPresent | keyMissing | keyMismatch
  | perfectMatch | sandwichCollapsed
  | illegalTuple (e : TupleError) | illegalOldTuple (e : TupleError)
  | changedKey | illegalChange (numChanges : Nat)
deriving DecidableEq, Repr

/-- The order in which one `range` loop visits the keys of a map. -/
structure Shuffle where
  order : List Int → List Int
  perm : ∀ l, (order l).Perm l

/-! ### Traces -/

structure InsertionTrace (K V H : Type) where
  location : String
  newNextFreeNode : Int
  oldSubRoot : H
  newSubRoot : H
  proofMinus : Proof H
  proofNew : Proof H
  proofPlus : Proof H
  key : K
  val : V
  oldOpenMinus : LeafOpening H
  oldOpenPlus : LeafOpening H

structure DeletionTrace (K V H : Type) where
  location : String
  newNextFreeNode : Int
  oldSubRoot : H
  newSubRoot : H
  proofMinus : Proof H
  proofDeleted : Proof H
  proofPlus : Proof H
  key : K
  oldOpenMinus : LeafOpening H
  deletedOpen : LeafOpening H
  oldOpenPlus : LeafOpening H
  deletedValue : V

structure UpdateTrace (K V H : Type) where
  location : String
  key : K
  oldValue : V
  newValue : V
  newNextFreeNode : Int
  oldSubRoot : H
  newSubRoot : H
  oldOpening : LeafOpening H
  proof : Proof H

structure ReadNonZeroTrace (K V H : Type) where
  location : String
  nextFreeNode : Int
  key : K
  value : V
  subRoot : H
  leafOpening : LeafOpening H
  proof : Proof H

structure ReadZeroTrace (K H : Type) where
  location : String
  key : K
  subRoot : H
  nextFreeNode : Int
  openingMinus : LeafOpening H
  openingPlus : LeafOpening H
  proofMinus : Proof H
  proofPlus : Proof H

inductive Trace (K V H : Type) where
  | insertion (trace : InsertionTrace K V H)
  | update (trace : UpdateTrace K V H)
  | deletion (trace : DeletionTrace K V H)
  | readNonZero (trace : ReadNonZeroTrace K V H)
  | readZero (trace : ReadZeroTrace K H)

/-! ### The state -/

def addInt64 (a b : Int) : Int := Int.bmod (a + b) (2 ^ 64)

abbrev Data (K V H : Type) := AList fun _ : Int => KVOpeningTuple K V H

structure ProverState (K V H : Type) where
  location : String
  nextFreeNode : Int
  tree : Smt.Tree H
  data : Data K V H

variable {K V H : Type}

def liftTree {α : Type} : Except Smt.Panic α → Except Panic α
  | .ok a => .ok a
  | .error e => .error (.tree e)

namespace Data

def mustGet (data : Data K V H) (i : Int) : Except Panic (KVOpeningTuple K V H) :=
  match data.lookup i with
  | some t => return t
  | none => throw .entryMissing

theorem mustGet_eq {data : Data K V H} {i : Int} {t : KVOpeningTuple K V H} (ht : data.lookup i = some t) :
    data.mustGet i = .ok t := by
  rw [mustGet, ht]; rfl

def insertNew (data : Data K V H) (i : Int) (t : KVOpeningTuple K V H) : Except Panic (Data K V H) :=
  match data.lookup i with
  | some _ => throw .entryAlreadyFound
  | none => return data.insert i t

end Data

variable [LinearOrder H] [BoundedOrder H] (hs : Hashes K V H)

/-- `InitializeProverState`; the sentinels have the zero key and the zero value of their types. -/
def initializeProverState [Inhabited K] [Inhabited V] (location : String) : Except Panic (ProverState K V H) := do
  let tree := Smt.newEmptyTree hs.node []
  let tree ← liftTree (tree.update hs.node 0 (hs.leaf .head))
  let tree ← liftTree (tree.update hs.node 1 (hs.leaf .tail))
  let data ← Data.insertNew (∅ : Data K V H) 0 { leafOpening := .head, key := default, value := default }
  let data ← Data.insertNew data 1 { leafOpening := .tail, key := default, value := default }
  return { location := location, nextFreeNode := 2, tree := tree, data := data }

/-! ### Scans -/

/-- The loop of `FindKey`; `none` is `0, false`. -/
def findKeyIn (data : Data K V H) (hkey : H) : List Int → Except Panic (Option Int)
  | [] => return none
  | i :: is => do
    let tuple ← data.mustGet i
    if hkey = tuple.leafOpening.hKey then return some i else findKeyIn data hkey is

def findSandwichIn (data : Data K V H) (hkey : H) : List Int → H → Int → H → Int → Except Panic (Int × Int)
  | [], _, iminus, _, iplus => if iminus = iplus then throw .sandwichCollapsed else return (iminus, iplus)
  | i :: is, hminus, iminus, hplus, iplus => do
    let tuple ← data.mustGet i
    let curHkey := tuple.leafOpening.hKey
    match compare curHkey hkey with
    | .eq => throw .perfectMatch
    | .gt =>
      if compare curHkey hplus = .lt then findSandwichIn data hkey is hminus iminus curHkey i
      else findSandwichIn data hkey is hminus iminus hplus iplus
    | .lt =>
      if compare curHkey hminus = .gt then findSandwichIn data hkey is curHkey i hplus iplus
      else findSandwichIn data hkey is hminus iminus hplus iplus

namespace ProverState

variable (p : ProverState K V H)

def subTreeRoot : H := p.tree.root

def findKey (sh : Shuffle) (k : K) : Except Panic (Option Int) :=
  findKeyIn p.data (hs.key k) (sh.order p.data.keys)

def findSandwich (sh : Shuffle) (k : K) : Except Panic (Int × Int) :=
  findSandwichIn p.data (hs.key k) (sh.order p.data.keys) ⊥ 0 ⊤ 1

/-! ### Writing a leaf -/

def numChanges (old new : LeafOpening H) : Nat :=
  (if old.hVal ≠ new.hVal then 1 else 0) + (if old.prev ≠ new.prev then 1 else 0) +
    (if old.next ≠ new.next then 1 else 0)

omit [BoundedOrder H] in
theorem numChanges_copyWithNext {o : LeafOpening H} {n : Int} (h : o.next ≠ n) :
    numChanges o (o.copyWithNext n) = 1 := by
  simp [numChanges, LeafOpening.copyWithNext, h]

omit [BoundedOrder H] in
theorem numChanges_copyWithPrev {o : LeafOpening H} {n : Int} (h : o.prev ≠ n) :
    numChanges o (o.copyWithPrev n) = 1 := by
  simp [numChanges, LeafOpening.copyWithPrev, h]

/-- The checks of `upsertTuple` against the entry it overwrites. -/
def checkOld (old tuple : KVOpeningTuple K V H) : Except Panic Unit :=
  match old.checkAndLeaf hs with
  | .error e => throw (.illegalOldTuple e)
  | .ok _ =>
    if old.leafOpening.hKey ≠ tuple.leafOpening.hKey then throw .changedKey
    else if numChanges old.leafOpening tuple.leafOpening ≠ 1 then
      throw (.illegalChange (numChanges old.leafOpening tuple.leafOpening))
    else return ()

def upsertTuple (i : Int) (tuple : KVOpeningTuple K V H) :
    Except Panic (Proof H × ProverState K V H) :=
  match tuple.checkAndLeaf hs with
  | .error e => throw (.illegalTuple e)
  | .ok leaf => do
    match p.data.lookup i with
    | some old => checkOld hs old tuple
    | none => pure ()
    let tree ← liftTree (p.tree.update hs.node i leaf)
    let proof ← liftTree (tree.prove i)
    return (proof, { p with data := p.data.insert i tuple, tree := tree })

def rmTuple (i : Int) : Except Panic (Proof H × ProverState K V H) := do
  if i ∉ p.data then throw .entryMissing
  let tree ← liftTree (p.tree.update hs.node i Smt.emptyLeaf)
  let proof ← liftTree (tree.prove i)
  return (proof, { p with data := p.data.erase i, tree := tree })

/-! ### The operations -/

def insertAndProve (shFind shSandwich : Shuffle) (key : K) (val : V) :
    Except Panic (InsertionTrace K V H × ProverState K V H) := do
  let found ← p.findKey hs shFind key
  if found.isSome then throw .keyPresent
  let (iMinus, iPlus) ← p.findSandwich hs shSandwich key
  let tupleMinus ← p.data.mustGet iMinus
  let tuplePlus ← p.data.mustGet iPlus
  let iInserted := p.nextFreeNode
  -- each proof is taken right after its own update
  let (proofMinus, p₁) ← p.upsertTuple hs iMinus (tupleMinus.copyWithNext iInserted)
  let insertedTuple : KVOpeningTuple K V H :=
    { key := key, value := val,
      leafOpening := { prev := iMinus, next := iPlus, hKey := hs.key key, hVal := hs.val val } }
  let (proofNew, p₂) ← p₁.upsertTuple hs iInserted insertedTuple
  let (proofPlus, p₃) ← p₂.upsertTuple hs iPlus (tuplePlus.copyWithPrev iInserted)
  let p₄ := { p₃ with nextFreeNode := addInt64 p₃.nextFreeNode 1 }
  return ({ location := p.location, key := key, val := val, oldSubRoot := p.subTreeRoot,
            oldOpenMinus := tupleMinus.leafOpening, oldOpenPlus := tuplePlus.leafOpening,
            newNextFreeNode := addInt64 p.nextFreeNode 1, proofMinus := proofMinus, proofNew := proofNew,
            proofPlus := proofPlus, newSubRoot := p₄.subTreeRoot }, p₄)

def deleteAndProve (shFind : Shuffle) (key : K) :
    Except Panic (DeletionTrace K V H × ProverState K V H) := do
  match ← p.findKey hs shFind key with
  | none => throw .keyMissing
  | some i =>
    let tuple ← p.data.mustGet i
    let iMinus := tuple.leafOpening.prev
    let iPlus := tuple.leafOpening.next
    let tupleMinus ← p.data.mustGet iMinus
    let tuplePlus ← p.data.mustGet iPlus
    let (proofMinus, p₁) ← p.upsertTuple hs iMinus (tupleMinus.copyWithNext iPlus)
    let (proofDeleted, p₂) ← p₁.rmTuple hs i
    let (proofPlus, p₃) ← p₂.upsertTuple hs iPlus (tuplePlus.copyWithPrev iMinus)
    return ({ location := p.location, key := key, oldSubRoot := p.subTreeRoot,
              oldOpenMinus := tupleMinus.leafOpening, oldOpenPlus := tuplePlus.leafOpening,
              deletedOpen := tuple.leafOpening, deletedValue := tuple.value,
              newNextFreeNode := p.nextFreeNode, proofMinus := proofMinus, proofDeleted := proofDeleted,
              proofPlus := proofPlus, newSubRoot := p₃.subTreeRoot }, p₃)

def updateAndProve (shFind : Shuffle) (key : K) (newVal : V) :
    Except Panic (UpdateTrace K V H × ProverState K V H) := do
  match ← p.findKey hs shFind key with
  | none => throw .keyMissing
  | some i =>
    let tuple ← p.data.mustGet i
    if hs.key key ≠ hs.key tuple.key then throw .keyMismatch
    let newTuple : KVOpeningTuple K V H :=
      { tuple with value := newVal, leafOpening := { tuple.leafOpening with hVal := hs.val newVal } }
    -- the tree is written directly, without the checks of `upsertTuple`
    let tree ← liftTree (p.tree.update hs.node i (hs.leaf newTuple.leafOpening))
    let proof ← liftTree (tree.prove i)
    let p' := { p with data := p.data.insert i newTuple, tree := tree }
    return ({ location := p.location, key := newTuple.key, oldValue := tuple.value, newValue := newVal,
              oldOpening := tuple.leafOpening, oldSubRoot := p.subTreeRoot, newSubRoot := p'.subTreeRoot,
              newNextFreeNode := p.nextFreeNode, proof := proof }, p')

def readNonZeroAndProve (shFind : Shuffle) (key : K) :
    Except Panic (ReadNonZeroTrace K V H) := do
  match ← p.findKey hs shFind key with
  | none => throw .keyMissing
  | some i =>
    let tuple ← p.data.mustGet i
    if hs.key key ≠ hs.key tuple.key then throw .keyMismatch
    let proof ← liftTree (p.tree.prove i)
    return { location := p.location, key := tuple.key, value := tuple.value, leafOpening := tuple.leafOpening,
             subRoot := p.subTreeRoot, proof := proof, nextFreeNode := p.nextFreeNode }

def readZeroAndProve (shFind shSandwich : Shuffle) (key : K) :
    Except Panic (ReadZeroTrace K H) := do
  let found ← p.findKey hs shFind key
  if found.isSome then throw .keyPresent
  let (iMinus, iPlus) ← p.findSandwich hs shSandwich key
  let dataMinus ← p.data.mustGet iMinus
  let dataPlus ← p.data.mustGet iPlus
  let proofMinus ← liftTree (p.tree.prove iMinus)
  let proofPlus ← liftTree (p.tree.prove iPlus)
  return { location := p.location, key := key, subRoot := p.subTreeRoot, proofMinus := proofMinus,
           openingMinus := dataMinus.leafOpening, proofPlus := proofPlus, openingPlus := dataPlus.leafOpening,
           nextFreeNode := p.nextFreeNode }

end ProverState

/-- A call of one of the five operations, with the iteration orders of its scans. -/
inductive Op (K V : Type) where
  | insert (shFind shSandwich : Shuffle) (key : K) (val : V)
  | update (shFind : Shuffle) (key : K) (newVal : V)
  | delete (shFind : Shuffle) (key : K)
  | readNonZero (shFind : Shuffle) (key : K)
  | readZero (shFind shSandwich : Shuffle) (key : K)

def ProverState.step (p : ProverState K V H) : Op K V → Except Panic (Trace K V H × ProverState K V H)
  | .insert shFind shSandwich key val => do
    let (trace, p') ← p.insertAndProve hs shFind shSandwich key val
    return (.insertion trace, p')
  | .update shFind key newVal => do
    let (trace, p') ← p.updateAndProve hs shFind key newVal
    return (.update trace, p')
  | .delete shFind key => do
    let (trace, p') ← p.deleteAndProve hs shFind key
    return (.deletion trace, p')
  | .readNonZero shFind key => do
    let trace ← p.readNonZeroAndProve hs shFind key
    return (.readNonZero trace, p)
  | .readZero shFind shSandwich key => do
    let trace ← p.readZeroAndProve hs shFind shSandwich key
    return (.readZero trace, p)

def ProverState.run (p : ProverState K V H) : List (Op K V) → Except Panic (List (Trace K V H) × ProverState K V H)
  | [] => return ([], p)
  | op :: ops => do
    let (trace, p') ← p.step hs op
    let (traces, p'') ← p'.run ops
    return (trace :: traces, p'')

end Lineth.Accumulator

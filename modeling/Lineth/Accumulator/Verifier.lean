import Lineth.Accumulator.Prover

/-!
# The verifier's side of the accumulator

The verifier keeps the root of the tree and the next free position. A verification accepts, fails, or panics on a path
that does not fit its siblings; it returns the state it leaves behind in each case. -/

namespace Lineth.Accumulator

open Smt (Proof)

structure VerifierState (H : Type) where
  location : String
  nextFreeNode : Int
  subTreeRoot : H
deriving DecidableEq, Repr

/-- The errors of the verifications, with the data their messages print. -/
inductive Failure (K H : Type) where
  | panic (p : Smt.Panic)
  | inconsistentLocation (verifier trace : String)
  | inconsistentRoot (verifier trace : H)
  | wrongPlace (iInserted nextFreeNode : Int)
  | badSandwich (left right : LeafOpening H)
  | incorrectSandwich (minus hkey plus : H)
  | updateMinus | updateMiddle | updatePlus
  | inconsistentNextFreeNode (verifier trace : Int)
  | deletedValue
  | wrongLeaf (key : K) (hkey : H)
  | tuple (e : TupleError)
  | merkleProof | merkleProofMinus | merkleProofPlus
  | updateCheck
  | newRoot
deriving DecidableEq, Repr

variable {K V H : Type}

def ProverState.verifierState (p : ProverState K V H) : VerifierState H :=
  { location := p.location, nextFreeNode := p.nextFreeNode, subTreeRoot := p.tree.root }

variable [LinearOrder H] [BoundedOrder H] (hs : Hashes K V H)

/-- `smt.Verify`, failing with `err` on an invalid proof. -/
def checkProof (err : Failure K H) (proof : Proof H) (leaf root : H) : Except (Failure K H) Unit :=
  match Smt.verify hs.node proof leaf root with
  | .ok true => return ()
  | .ok false => throw err
  | .error p => throw (.panic p)

def updateCheckRoot (err : Failure K H) (proof : Proof H) (root old new : H) : Except (Failure K H) H := do
  checkProof hs err proof old root
  match Smt.recoverRoot hs.node proof new with
  | .ok newRoot => return newRoot
  | .error p => throw (.panic p)

def checkSandwich (minus plus : LeafOpening H) (iMinus iPlus : Int) (hkey : H) : Except (Failure K H) Unit :=
  if minus.next ≠ iPlus ∨ plus.prev ≠ iMinus then throw (.badSandwich minus plus)
  else if compare hkey minus.hKey ≠ .gt ∨ compare hkey plus.hKey ≠ .lt then
    throw (.incorrectSandwich minus.hKey hkey plus.hKey)
  else return ()

omit [BoundedOrder H] in
theorem checkSandwich_eq_ok {minus plus : LeafOpening H} {iMinus iPlus : Int} {hkey : H} :
    (checkSandwich minus plus iMinus iPlus hkey : Except (Failure K H) Unit) = .ok () ↔
      (minus.next = iPlus ∧ plus.prev = iMinus) ∧ minus.hKey < hkey ∧ hkey < plus.hKey := by
  simp [checkSandwich, not_or, compare_gt_iff_gt, compare_lt_iff_lt]

namespace VerifierState

variable (v : VerifierState H)

def checkHeader (location : String) (root : H) : Except (Failure K H) Unit :=
  if v.location ≠ location then throw (.inconsistentLocation v.location location)
  else if v.subTreeRoot ≠ root then throw (.inconsistentRoot v.subTreeRoot root)
  else return ()

def checkNextFreeNode (nextFreeNode : Int) : Except (Failure K H) Unit :=
  if v.nextFreeNode ≠ nextFreeNode then throw (.inconsistentNextFreeNode v.nextFreeNode nextFreeNode) else return ()

omit [BoundedOrder H] in
theorem checkHeader_eq_ok {v : VerifierState H} {location : String} {root : H} :
    (v.checkHeader location root : Except (Failure K H) Unit) = .ok () ↔ v.location = location ∧
      v.subTreeRoot = root := by
  simp [checkHeader]

omit [LinearOrder H] [BoundedOrder H] in
theorem checkNextFreeNode_eq_ok {v : VerifierState H} {nextFreeNode : Int} :
    (v.checkNextFreeNode nextFreeNode : Except (Failure K H) Unit) = .ok () ↔ v.nextFreeNode = nextFreeNode := by
  simp [checkNextFreeNode]

/-- The checks of `VerifyInsertion` before it writes the state: the new root. -/
def auditInsertion (trace : InsertionTrace K V H) : Except (Failure K H) H := do
  v.checkHeader trace.location trace.oldSubRoot
  let iMinus := trace.proofMinus.path
  let iInserted := trace.proofNew.path
  let iPlus := trace.proofPlus.path
  if iInserted ≠ v.nextFreeNode then throw (.wrongPlace iInserted v.nextFreeNode)
  let hkey := hs.key trace.key
  checkSandwich trace.oldOpenMinus trace.oldOpenPlus iMinus iPlus hkey
  let root₁ ← updateCheckRoot hs .updateMinus trace.proofMinus trace.oldSubRoot (hs.leaf trace.oldOpenMinus)
    (hs.leaf (trace.oldOpenMinus.copyWithNext v.nextFreeNode))
  let newLeaf := hs.leaf { prev := iMinus, next := iPlus, hKey := hkey, hVal := hs.val trace.val }
  let root₂ ← updateCheckRoot hs .updateMiddle trace.proofNew root₁ Smt.emptyLeaf newLeaf
  let root₃ ← updateCheckRoot hs .updatePlus trace.proofPlus root₂ (hs.leaf trace.oldOpenPlus)
    (hs.leaf (trace.oldOpenPlus.copyWithPrev iInserted))
  if root₃ ≠ trace.newSubRoot then throw (.inconsistentRoot root₃ trace.newSubRoot)
  return root₃

/-- `VerifyInsertion`: the state is written before the last check. -/
def verifyInsertion (trace : InsertionTrace K V H) : Except (Failure K H) Unit × VerifierState H :=
  match v.auditInsertion hs trace with
  | .error e => (.error e, v)
  | .ok root =>
    let v' := { v with subTreeRoot := root, nextFreeNode := addInt64 v.nextFreeNode 1 }
    (v'.checkNextFreeNode trace.newNextFreeNode, v')

def auditDeletion (trace : DeletionTrace K V H) : Except (Failure K H) H := do
  v.checkHeader trace.location trace.oldSubRoot
  if hs.val trace.deletedValue ≠ trace.deletedOpen.hVal then throw .deletedValue
  let iMinus := trace.proofMinus.path
  let iDeleted := trace.proofDeleted.path
  let iPlus := trace.proofPlus.path
  if trace.oldOpenMinus.next ≠ iDeleted ∨ trace.deletedOpen.prev ≠ iMinus then
    throw (.badSandwich trace.oldOpenMinus trace.deletedOpen)
  if trace.deletedOpen.next ≠ iPlus ∨ trace.oldOpenPlus.prev ≠ iDeleted then
    throw (.badSandwich trace.deletedOpen trace.oldOpenPlus)
  if ¬ trace.deletedOpen.matchKey hs trace.key then throw (.wrongLeaf trace.key trace.deletedOpen.hKey)
  let root₁ ← updateCheckRoot hs .updateMinus trace.proofMinus trace.oldSubRoot (hs.leaf trace.oldOpenMinus)
    (hs.leaf (trace.oldOpenMinus.copyWithNext iPlus))
  let root₂ ← updateCheckRoot hs .updateMiddle trace.proofDeleted root₁ (hs.leaf trace.deletedOpen) Smt.emptyLeaf
  let root₃ ← updateCheckRoot hs .updatePlus trace.proofPlus root₂ (hs.leaf trace.oldOpenPlus)
    (hs.leaf (trace.oldOpenPlus.copyWithPrev iMinus))
  if root₃ ≠ trace.newSubRoot then throw (.inconsistentRoot root₃ trace.newSubRoot)
  v.checkNextFreeNode trace.newNextFreeNode
  return root₃

def verifyDeletion (trace : DeletionTrace K V H) : Except (Failure K H) Unit × VerifierState H :=
  match v.auditDeletion hs trace with
  | .error e => (.error e, v)
  | .ok root => (.ok (), { v with subTreeRoot := root })

/-- The checks that `ReadNonZeroVerify` and `UpdateVerify` share: the leaf of an opening in the tree. -/
def auditOpening (location : String) (root : H) (tuple : KVOpeningTuple K V H) (proof : Proof H) :
    Except (Failure K H) H := do
  v.checkHeader location root
  match tuple.checkAndLeaf hs with
  | .error e => throw (.tuple e)
  | .ok leaf =>
    checkProof hs .merkleProof proof leaf root
    return leaf

def auditUpdate (trace : UpdateTrace K V H) : Except (Failure K H) Unit := do
  let tuple : KVOpeningTuple K V H := { key := trace.key, value := trace.oldValue, leafOpening := trace.oldOpening }
  let leaf ← v.auditOpening hs trace.location trace.oldSubRoot tuple trace.proof
  let newLeaf := hs.leaf { trace.oldOpening with hVal := hs.val trace.newValue }
  let newRoot ← updateCheckRoot hs .updateCheck trace.proof trace.oldSubRoot leaf newLeaf
  if newRoot ≠ trace.newSubRoot then throw .newRoot
  v.checkNextFreeNode trace.newNextFreeNode

def updateVerify (trace : UpdateTrace K V H) : Except (Failure K H) Unit × VerifierState H :=
  match v.auditUpdate hs trace with
  | .error e => (.error e, v)
  | .ok _ => (.ok (), { v with subTreeRoot := trace.newSubRoot })

def readNonZeroVerify (trace : ReadNonZeroTrace K V H) : Except (Failure K H) Unit := do
  let tuple : KVOpeningTuple K V H := { key := trace.key, value := trace.value, leafOpening := trace.leafOpening }
  let _ ← v.auditOpening hs trace.location trace.subRoot tuple trace.proof
  v.checkNextFreeNode trace.nextFreeNode

def readZeroVerify (trace : ReadZeroTrace K H) : Except (Failure K H) Unit := do
  v.checkHeader trace.location trace.subRoot
  checkSandwich trace.openingMinus trace.openingPlus trace.proofMinus.path trace.proofPlus.path (hs.key trace.key)
  checkProof hs .merkleProofMinus trace.proofMinus (hs.leaf trace.openingMinus) trace.subRoot
  checkProof hs .merkleProofPlus trace.proofPlus (hs.leaf trace.openingPlus) trace.subRoot
  v.checkNextFreeNode trace.nextFreeNode

def verify : Trace K V H → Except (Failure K H) Unit × VerifierState H
  | .insertion trace => v.verifyInsertion hs trace
  | .update trace => v.updateVerify hs trace
  | .deletion trace => v.verifyDeletion hs trace
  | .readNonZero trace => (v.readNonZeroVerify hs trace, v)
  | .readZero trace => (v.readZeroVerify hs trace, v)

def verifyAll (v : VerifierState H) : List (Trace K V H) → Except (Failure K H) Unit × VerifierState H
  | [] => (.ok (), v)
  | trace :: traces =>
    match v.verify hs trace with
    | (.ok _, v') => v'.verifyAll traces
    | (.error e, v') => (.error e, v')

end VerifierState

end Lineth.Accumulator

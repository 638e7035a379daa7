import Lineth.StateManager.Traces

/-!
# The checks on the traces of a block (`CheckTraces`)

The traces are dispatched into one segment per account. The storage traces before a trace of the world state form a
*splice*: `checkSpliceST` replays them from the state that the first of them claims, and `checkProofsForAccount`
compares the two roots with the ones in the account. The traces of the world state are then verified in a row. -/

namespace Lineth.StateManager

open Accumulator Except

variable {H : Type} [LinearOrder H] [BoundedOrder H] (hs : StateHashes H)

def topRoot (v : VerifierState H) : H := hs.top v.nextFreeNode v.subTreeRoot

/-- `EmptyStorageTrieHash`, which `ZKHASH_EMPTY_STORAGE` holds; the trie is the one of the zero address. -/
def emptyStorageTrieHash : Except (Error H) H :=
  match (initializeProverState hs.storage "0x0000000000000000000000000000000000000000" : Except _
    (ProverState _ FullBytes32 H)) with
  | .ok trie => return hs.top trie.nextFreeNode trie.tree.root
  | .error p => throw (.emptyStorage p)

/-- The next free node and the root that a trace starts from; an insertion has increased the former. -/
def startOf {K V : Type} : Trace K V H → Int × H
  | .readNonZero t => (t.nextFreeNode, t.subRoot)
  | .readZero t => (t.nextFreeNode, t.subRoot)
  | .insertion t => (addInt64 t.newNextFreeNode (-1), t.oldSubRoot)
  | .update t => (t.newNextFreeNode, t.oldSubRoot)
  | .deletion t => (t.newNextFreeNode, t.oldSubRoot)

def bootstrapVerifierStateFromST (a : StorageAccess H) : VerifierState H :=
  ⟨a.location, (startOf a.trace).1, (startOf a.trace).2⟩

def bootstrapVerifierStateFromWS (trace : AccountTrace H) : VerifierState H :=
  ⟨wsLocation, (startOf trace).1, (startOf trace).2⟩

/-- `checkSpliceST`: the roots before and after. -/
def checkSpliceST : List (StorageAccess H) → Except (Error H) (H × H)
  | [] => throw .emptySlice
  | first :: rest =>
    let vs := bootstrapVerifierStateFromST first
    match vs.verifyAll hs.storage ((first :: rest).map StorageAccess.trace) with
    | (.ok _, vs') => return (topRoot hs vs, topRoot hs vs')
    | (.error e, _) => throw (.storage e)

/-- What `checkProofsForAccount` asks of a trace of the world state after a splice with these roots. -/
def checkRoots (old new : H) : AccountTrace H → Except (Error H) Unit
  | .readNonZero t => do
    failIf (old ≠ new) .readUpdated
    failIf (t.value.storageRoot ≠ old) .readRoot
  | .readZero _ => throw .readZeroWithStorage
  | .insertion t => do
    let empty ← emptyStorageTrieHash hs
    failIf (old ≠ empty) (.insertionOld old empty)
    failIf (t.val.storageRoot ≠ new) (.insertionNew t.val.storageRoot new)
  | .update t => failIf (t.oldValue.storageRoot ≠ old ∨ t.newValue.storageRoot ≠ new) .updateRoot
  | .deletion t => do
    failIf (old ≠ new) .deletionUpdated
    -- a deletion trace need not contain the deleted account
    failIf (t.deletedValue ≠ Account.zero ∧ t.deletedValue.storageRoot ≠ old) .deletionRoot

/-- `checkProofsForAccount`; `curr` is the splice read so far. -/
def checkProofsForAccount : List (StorageAccess H) → List (DecodedTrace H) → Except (Error H) Unit
  | curr, [] => failIf (curr ≠ []) .notTerminated
  | curr, .st a :: rest => checkProofsForAccount (curr ++ [a]) rest
  | curr, .ws t :: rest => do
    -- without storage traces there is nothing to check
    if curr ≠ [] then
      let (old, new) ← checkSpliceST hs curr
      checkRoots hs old new t
    checkProofsForAccount [] rest

/-- One round of `checkProofsWorldState`: the verifier and the joined errors. A panic of the Merkle
verifier ends the loop. -/
def checkWorldStateAt (i : Nat) (trace : AccountTrace H) (next? : Option (AccountTrace H)) (vs : VerifierState H)
    (err : List (WorldStateError H)) : Except (Error H) (VerifierState H × List (WorldStateError H)) :=
  let curr := hKey hs.account trace
  let err := match next?.map (hKey hs.account) with
    | some next => if next < curr then err ++ [.notWellOrdered curr next] else err
    | none => err
  match vs.verify hs.account trace with
  | (.ok _, vs') => return (vs', err)
  | (.error (.panic p), _) => throw (.accountPanic p)
  | (.error e, vs') => return (vs', err ++ [.verifying i e])

def checkWorldStateFrom : Nat → List (AccountTrace H) → VerifierState H → List (WorldStateError H) →
    Except (Error H) (VerifierState H × List (WorldStateError H))
  | _, [], vs, err => return (vs, err)
  | i, trace :: rest, vs, err => do
    let (vs, err) ← checkWorldStateAt hs i trace rest.head? vs err
    checkWorldStateFrom (i + 1) rest vs err

def checkProofsWorldState : List (AccountTrace H) → Except (Error H) (H × H)
  | [] => throw .emptySlice
  | first :: rest => do
    let vs := bootstrapVerifierStateFromWS first
    let (vs', err) ← checkWorldStateFrom hs 0 (first :: rest) vs []
    failIf (err ≠ []) (.worldState err)
    return (topRoot hs vs, topRoot hs vs')

/-! ### The dispatch into segments -/

structure Dispatch (H : Type) where
  traceByAccount : List (List (DecodedTrace H))
  traceWs : List (AccountTrace H)
  alreadyFoundAcc : List Address
  /-- `none` before the first trace. -/
  prevAddress : Option Address

def Dispatch.init : Dispatch H := ⟨[], [], [], none⟩

def pushLast (segments : List (List (DecodedTrace H))) (trace : DecodedTrace H) : List (List (DecodedTrace H)) :=
  segments.dropLast ++ [segments.getLastD [] ++ [trace]]

/-- One round of the loop of `CheckTraces`. -/
def dispatch (d : Dispatch H) (trace : DecodedTrace H) : Except (Error H) (Dispatch H) := do
  let traceWs := match trace with
    | .ws t => d.traceWs ++ [t]
    | .st _ => d.traceWs
  let address ← trace.getRelatedAccount
  failIf (address ∈ d.alreadyFoundAcc ∧ d.prevAddress ≠ some address) (.twoSegments address)
  let traceByAccount := if d.prevAddress ≠ some address then d.traceByAccount ++ [[]] else d.traceByAccount
  return { traceByAccount := pushLast traceByAccount trace, traceWs, alreadyFoundAcc := address :: d.alreadyFoundAcc,
           prevAddress := some address }

def checkSegment (traces : List (DecodedTrace H)) : Except (Error H) Unit := do
  let traces ← inspectPattern hs traces
  checkProofsForAccount hs [] traces

def checkTraces (traces : List (DecodedTrace H)) : Except (Error H) (H × H) := do
  failIf (traces = []) .noTraces
  let d ← traces.foldlM dispatch Dispatch.init
  d.traceByAccount.forM (checkSegment hs)
  checkProofsWorldState hs d.traceWs

end Lineth.StateManager

import Lineth.Accumulator.Verifier

/-!
# Shomei traces and the patterns they may follow (`statemanager`)

Shomei sends the accesses of a block as a list of traces: those of the world state, which maps addresses to accounts,
and those of the storage tries. The traces of one account are contiguous and form a *segment*, which `inspectPattern`
compares with the six patterns that are allowed. A decoded trace is one of the world state exactly when its location
is `"0x"`, which is what `UnmarshalJSON` enforces, so the location is a field of the storage accesses only. -/

namespace Lineth.StateManager

open Accumulator Except

abbrev Address := BitVec 160

abbrev FullBytes32 := BitVec 256

structure Account (H : Type) where
  nonce : Int
  balance : Option Int
  storageRoot : H
  lineaCodeHash : H
  keccakCodeHash : FullBytes32
  codeSize : Int
deriving DecidableEq, Repr

def Account.zero {H : Type} [Bot H] : Account H := ⟨0, none, ⊥, ⊥, 0, 0⟩

/-- The hashes of the two kinds of tries, and the one of `TopRoot`, over the next free node and the root
of the tree. -/
structure StateHashes (H : Type) where
  account : Hashes Address (Account H) H
  storage : Hashes FullBytes32 FullBytes32 H
  top : Int → H → H

def wsLocation : String := "0x"

abbrev AccountTrace (H : Type) := Trace Address (Account H) H

abbrev StorageTrace (H : Type) := Trace FullBytes32 FullBytes32 H

structure StorageAccess (H : Type) where
  location : String
  location_ne : location ≠ wsLocation
  trace : StorageTrace H

inductive DecodedTrace (H : Type) where
  | ws (trace : AccountTrace H)
  | st (access : StorageAccess H)

inductive Kind where
  | readNonZero | readZero | insertion | update | deletion
deriving DecidableEq, Repr

def kind {K V H : Type} : Trace K V H → Kind
  | .insertion _ => .insertion
  | .update _ => .update
  | .deletion _ => .deletion
  | .readNonZero _ => .readNonZero
  | .readZero _ => .readZero

/-- `HKey` of a trace: a deletion has it from the leaf it opens. -/
def hKey {K V H : Type} (hs : Hashes K V H) : Trace K V H → H
  | .insertion t => hs.key t.key
  | .update t => hs.key t.key
  | .deletion t => t.deletedOpen.hKey
  | .readNonZero t => hs.key t.key
  | .readZero t => hs.key t.key

/-- `RWInt`: 1 for a write. -/
def rwInt {K V H : Type} : Trace K V H → Nat
  | .insertion _ => 1
  | .update _ => 1
  | .deletion _ => 1
  | .readNonZero _ => 0
  | .readZero _ => 0

/-! ### Errors -/

structure TypeName where
  worldState : Bool
  kind : Kind
deriving DecidableEq, Repr

inductive Pattern where
  | accountCreation | accountDeletion | accountRead | accountUpdate | accountRedeploy
deriving DecidableEq, Repr

/-- `trace i is a write but followed by a read`. -/
structure OrderError where
  i : Nat
deriving DecidableEq, Repr

/-- The errors that `checkProofsWorldState` joins. -/
inductive WorldStateError (H : Type) where
  | notWellOrdered (curr next : H)
  | verifying (i : Nat) (failure : Failure Address H)
deriving DecidableEq, Repr

inductive Error (H : Type) where
  | noTraces | emptySlice | indexOutOfRange | boom
  | emptyStorage (p : Accumulator.Panic)
  | notAnAddress (location : String)
  | twoSegments (address : Address)
  | readZeroInLongTrace | twoAccountReads | twoDeletions
  | precededBy (pattern : Pattern) (trace : Kind)
  | invalidTraces (pattern : Pattern) (found : List Kind)
  | order (pattern : Pattern) (errs : List OrderError)
  | noMatch (types : List TypeName)
  | storage (failure : Failure FullBytes32 H)
  | readUpdated | readZeroWithStorage | deletionUpdated | notTerminated
  | readRoot | updateRoot | deletionRoot
  | insertionOld (old empty : H) | insertionNew (inserted new : H)
  | accountPanic (p : Smt.Panic)
  | worldState (errs : List (WorldStateError H))
deriving DecidableEq, Repr

variable {H : Type}

def Error.isPanic : Error H → Bool
  | .noTraces | .emptySlice | .indexOutOfRange | .boom | .emptyStorage _ | .storage (.panic _) => true
  | .readUpdated | .readZeroWithStorage | .deletionUpdated | .notTerminated | .accountPanic _ => true
  | _ => false

namespace DecodedTrace

def isWorldState : DecodedTrace H → Bool
  | .ws _ => true
  | .st _ => false

def typeName : DecodedTrace H → TypeName
  | .ws t => ⟨true, kind t⟩
  | .st a => ⟨false, kind a.trace⟩

def rwInt : DecodedTrace H → Nat
  | .ws t => StateManager.rwInt t
  | .st a => StateManager.rwInt a.trace

def hKey (hs : StateHashes H) : DecodedTrace H → H
  | .ws t => StateManager.hKey hs.account t
  | .st a => StateManager.hKey hs.storage a.trace

end DecodedTrace

/-! ### The account of a trace -/

def fromHexChar (c : Char) : Option Nat :=
  if '0' ≤ c ∧ c ≤ '9' then some (c.toNat - '0'.toNat)
  else if 'a' ≤ c ∧ c ≤ 'f' then some (c.toNat - 'a'.toNat + 10)
  else if 'A' ≤ c ∧ c ≤ 'F' then some (c.toNat - 'A'.toNat + 10)
  else none

def decodeHex : List Char → Option (List Nat)
  | [] => some []
  | [_] => none
  | a :: b :: rest => do
    let a ← fromHexChar a
    let b ← fromHexChar b
    let rest ← decodeHex rest
    return (16 * a + b) :: rest

def trimHexMark : List Char → List Char
  | '0' :: 'x' :: rest => rest
  | s => s

/-- `AddressFromHex`: 20 bytes, the most significant first. -/
def addressFromHex (h : String) : Option Address := do
  let byt ← decodeHex (trimHexMark h.toList)
  if byt.length = 20 then return BitVec.ofNat 160 (byt.foldl (fun n b => 256 * n + b) 0) else none

def traceKey {K V : Type} : Trace K V H → K
  | .insertion t => t.key
  | .update t => t.key
  | .deletion t => t.key
  | .readNonZero t => t.key
  | .readZero t => t.key

def DecodedTrace.getRelatedAccount : DecodedTrace H → Except (Error H) Address
  | .ws t => return traceKey t
  | .st a => orThrow (addressFromHex a.location) (.notAnAddress a.location)

/-! ### The patterns -/

variable [LinearOrder H] [BoundedOrder H] (hs : StateHashes H)

/-- `checkStorageTraceOrder`, from position `i` on: the loop stops two positions before the end, so that the
last two traces are not compared. -/
def checkStorageTraceOrder : Nat → List (DecodedTrace H) → Except (Error H) (List OrderError)
  | i, curr :: next :: after :: rest => do
    failIf (curr.rwInt = next.rwInt ∧ next.hKey hs ≤ curr.hKey hs) .boom
    let errs ← checkStorageTraceOrder (i + 1) (next :: after :: rest)
    return if next.rwInt < curr.rwInt then ⟨i⟩ :: errs else errs
  | _, _ => return []

def checkOrder (pattern : Pattern) (traces : List (DecodedTrace H)) : Except (Error H) Unit := do
  let errs ← checkStorageTraceOrder hs 0 traces
  failIf (errs ≠ []) (.order pattern errs)

/-- What the type switches do with a trace that is not on the list of a pattern: its error is only recorded
over an earlier one. -/
def record (err : List Kind) (k : Kind) : List Kind := if err ≠ [] then err ++ [k] else err

/-- The loops over the storage part of a segment: the first trace of the world state in it, or the errors
recorded for the traces that are not `allowed`. -/
def scanStorage (allowed : Kind → Bool) : List Kind → List (DecodedTrace H) → Kind ⊕ List Kind
  | err, [] => .inr err
  | _, .ws t :: _ => .inl (kind t)
  | err, .st a :: rest => scanStorage allowed (if allowed (kind a.trace) then err else record err (kind a.trace)) rest

def isRead : Kind → Bool
  | .readNonZero | .readZero => true
  | _ => false

/-- The storage accesses of a fresh account. -/
def isFresh : Kind → Bool
  | .readZero | .insertion => true
  | _ => false

def wsKind : Option (DecodedTrace H) → Option Kind
  | some (.ws t) => some (kind t)
  | _ => none

def isMissingAccRead (traces : List (DecodedTrace H)) : Except (Error H) Bool := do
  failIf (traces = []) .indexOutOfRange
  if wsKind traces.head? = some .readZero ∧ traces.length = 1 then return true
  failIf (traces.any fun t => wsKind (some t) = some .readZero) .readZeroInLongTrace
  return false

/-- `isAccCreation`: another trace of the world state may mean a redeployment. -/
def isAccCreation (traces : List (DecodedTrace H)) : Except (Error H) Bool := do
  failIf (traces = []) .indexOutOfRange
  if wsKind traces.getLast? ≠ some .insertion then return false
  if traces.length = 1 then return true
  match scanStorage isFresh [] traces.dropLast with
  | .inl _ => return false
  | .inr err =>
    failIf (err ≠ []) (.invalidTraces .accountCreation err)
    checkOrder hs .accountCreation traces.dropLast
    return true

/-- What `isAccDeletion`, `isAccUpdate` and `isAccRead` ask of the storage part of a segment. -/
def checkStoragePart (pattern : Pattern) (allowed : Kind → Bool) (traces : List (DecodedTrace H)) :
    Except (Error H) Unit :=
  match scanStorage allowed [] traces with
  | .inl k => throw (.precededBy pattern k)
  | .inr err => do
    failIf (err ≠ []) (.invalidTraces pattern err)
    checkOrder hs pattern traces

section

variable (traces : List (DecodedTrace H))

def isAccDeletion : Except (Error H) Bool := do
  failIf (traces = []) .indexOutOfRange
  if wsKind traces.getLast? ≠ some .deletion then return false
  if traces.length = 1 then return true
  checkStoragePart hs .accountDeletion isRead traces.dropLast
  return true

def isAccUpdate : Except (Error H) Bool := do
  failIf (traces = []) .indexOutOfRange
  if wsKind traces.getLast? ≠ some .update then return false
  if traces.length = 1 then return true
  checkStoragePart hs .accountUpdate (fun _ => true) traces.dropLast
  return true

/-- `isAccRead`: a leading read of the account is moved to the end of the segment, in place. -/
def isAccRead : Except (Error H) (Option (List (DecodedTrace H))) := do
  failIf (traces = []) .indexOutOfRange
  let okFirst := wsKind traces.head? = some .readNonZero
  let okLast := wsKind traces.getLast? = some .readNonZero
  if ¬ okFirst ∧ ¬ okLast then return none
  failIf (okFirst ∧ okLast ∧ 1 < traces.length) .twoAccountReads
  if traces.length = 1 then return some traces
  let moved := if okFirst then traces.tail ++ traces.take 1 else traces
  checkStoragePart hs .accountRead isRead moved.dropLast
  return some moved

end

/-- The loop of `isAccRedeploy` from position `i` on: the position of the deletion, and the errors
recorded. -/
def scanRedeploy : Nat → Option Nat → List Kind → List (DecodedTrace H) → Except (Error H) (Option Nat × List Kind)
  | _, pos, err, [] => return (pos, err)
  | i, pos, err, .ws (.deletion _) :: rest =>
    if pos.isSome then throw .twoDeletions else scanRedeploy (i + 1) (some i) err rest
  | _, _, _, .ws t :: _ => throw (.precededBy .accountRedeploy (kind t))
  | i, pos, err, .st a :: rest =>
    let allowed := if pos.isSome then isFresh (kind a.trace) else isRead (kind a.trace)
    scanRedeploy (i + 1) pos (if allowed then err else record err (kind a.trace)) rest

def isAccRedeploy (traces : List (DecodedTrace H)) : Except (Error H) Bool := do
  failIf (traces = []) .indexOutOfRange
  if wsKind traces.getLast? ≠ some .insertion then return false
  if traces.length = 1 then return false
  let (pos, err) ← scanRedeploy 0 none [] traces.dropLast
  failIf (err ≠ []) (.invalidTraces .accountRedeploy err)
  let posDeletion := pos.getD 0
  let errs ← checkStorageTraceOrder hs 0 (traces.take posDeletion)
  let errs' ← checkStorageTraceOrder hs 0 (traces.dropLast.drop (posDeletion + 1))
  failIf (errs ++ errs' ≠ []) (.order .accountRedeploy (errs ++ errs'))
  return true

/-- `inspectPattern`: the segment as `isAccRead` leaves it. -/
def inspectPattern (traces : List (DecodedTrace H)) : Except (Error H) (List (DecodedTrace H)) := do
  if ← isMissingAccRead traces then return traces
  if ← isAccCreation hs traces then return traces
  if ← isAccDeletion hs traces then return traces
  if let some moved ← isAccRead hs traces then return moved
  if ← isAccUpdate hs traces then return traces
  if ← isAccRedeploy hs traces then return traces
  throw (.noMatch (traces.map DecodedTrace.typeName))

end Lineth.StateManager

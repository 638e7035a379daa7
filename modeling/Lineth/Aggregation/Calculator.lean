import Lineth.Conflation.Domain

/-!
# The aggregation calculator

`GlobalAggregationCalculator` groups the blobs it receives into aggregations. If a trigger calculator asks for one
when a blob has joined the pending ones, it is cut from them, rounded down to a multiple, and what is left goes
through the same procedure again. `processBlob` takes the depth of these calls as a parameter; `n` pending blobs need
at most `n + 1` (`processBlob_spec`). The calculators are programs on one record that holds the fields of each of
them. A priority queue is a list sorted by its key. -/

namespace Lineth.Aggregation

open Exec
open Conflation (BlockInterval)

inductive Error
  /-- A blob that does not follow the last one. -/
  | notSequential (lastBlockNumber startBlockNumber : UInt64)
  /-- The `require` on the bounds of an interval. -/
  | startAfterEnd (startBlockNumber endBlockNumber : UInt64)
  /-- A blob with more proofs than an aggregation may have. -/
  | tooManyProofs
  | proofCountOverflowed
  | blobLimitOverflow
  /-- A trigger for an interval that does not start and end with pending blobs. -/
  | blobsNotPending
  /-- `first()` of an empty list. -/
  | noSuchElement
  /-- An integer is divided by zero. -/
  | arithmetic
  | stackOverflow
  deriving Repr, DecidableEq

structure BlobCounters where
  numberOfBatches : UInt32
  startBlockNumber : UInt64
  endBlockNumber : UInt64
  startBlockTimestamp : Int
  endBlockTimestamp : Int
  deriving Repr, DecidableEq

namespace BlobCounters

def lo (b : BlobCounters) : Nat := b.startBlockNumber.toNat

def hi (b : BlobCounters) : Nat := b.endBlockNumber.toNat

def countProofs (b : BlobCounters) : UInt32 := b.numberOfBatches + 1

end BlobCounters

inductive AggregationTriggerType
  | timeLimit
  | proofLimit
  | blobLimit
  | targetBlockNumber
  | hardFork
  deriving Repr, DecidableEq

structure AggregationTrigger where
  aggregationTriggerType : AggregationTriggerType
  aggregation : BlockInterval
  deriving Repr, DecidableEq

/-- The pending blobs, the aggregations handed to the handler, and the fields of the trigger calculators.
`deadlines` are the intervals the deadline calculator has held so far. -/
structure State where
  lastBlockNumber : UInt64
  pendingBlobs : List BlobCounters
  aggregations : List BlockInterval
  proofsInFlight : Option (UInt32 × BlockInterval)
  blobsInFlight : Option (UInt32 × BlockInterval)
  targetInFlight : Option BlockInterval
  firstBlobWasConsumed : Bool
  targetEndBlockNumbers : List UInt64
  forkInFlight : Option BlockInterval
  lastProcessedTimestamp : Int
  deadlineInFlight : Option (Int × BlockInterval)
  deadlines : List BlockInterval

def State.initial (lastBlockNumber : UInt64) (targets : List UInt64) (initialTimestamp : Int) : State where
  lastBlockNumber := lastBlockNumber
  pendingBlobs := []
  aggregations := []
  proofsInFlight := none
  blobsInFlight := none
  targetInFlight := none
  firstBlobWasConsumed := false
  targetEndBlockNumbers := targets
  forkInFlight := none
  lastProcessedTimestamp := initialTimestamp
  deadlineInFlight := none
  deadlines := []

abbrev AggM := EStateM Error State

def blobsToAggregate (startBlockNumber endBlockNumber : UInt64) : AggM BlockInterval :=
  if h : startBlockNumber ≤ endBlockNumber then pure ⟨startBlockNumber, endBlockNumber, h⟩
  else throw (.startAfterEnd startBlockNumber endBlockNumber)

def extend (inFlight : Option BlockInterval) (b : BlobCounters) : AggM BlockInterval :=
  blobsToAggregate ((inFlight.map (·.startBlockNumber)).getD b.startBlockNumber) b.endBlockNumber

structure SyncAggregationTriggerCalculator where
  checkAggregationTrigger : BlobCounters → AggM (Option AggregationTrigger)
  newBlob : BlobCounters → AggM Unit
  reset : State → State
  inFlight : State → Option BlockInterval

/-! ### By proof limit -/

def byProofLimit (maxProofsPerAggregation : UInt32) : SyncAggregationTriggerCalculator where
  checkAggregationTrigger b := do
    if b.countProofs > maxProofsPerAggregation then throw .tooManyProofs
    match (← get).proofsInFlight with
    | some (proofsCount, inFlight) =>
      let newProofsCount := proofsCount + b.countProofs
      if newProofsCount > maxProofsPerAggregation then pure (some ⟨.proofLimit, inFlight⟩)
      else if newProofsCount = maxProofsPerAggregation then
        pure (some ⟨.proofLimit, ← blobsToAggregate inFlight.startBlockNumber b.endBlockNumber⟩)
      else pure none
    | none =>
      if b.countProofs = maxProofsPerAggregation then
        pure (some ⟨.proofLimit, ← blobsToAggregate b.startBlockNumber b.endBlockNumber⟩)
      else pure none
  newBlob b := do
    if b.countProofs > maxProofsPerAggregation then throw .tooManyProofs
    let s ← get
    let newProofsCount := (s.proofsInFlight.map (·.1)).getD 0 + b.countProofs
    if newProofsCount > maxProofsPerAggregation then throw .proofCountOverflowed
    let i ← extend (s.proofsInFlight.map (·.2)) b
    set { s with proofsInFlight := some (newProofsCount, i) }
  reset s := { s with proofsInFlight := none }
  inFlight s := s.proofsInFlight.map (·.2)

/-! ### By blob limit -/

def blobCountWithOneMore (s : State) : UInt32 := (s.blobsInFlight.map (·.1)).getD 0 + 1

def byBlobLimit (maxBlobsPerAggregation : UInt32) : SyncAggregationTriggerCalculator where
  checkAggregationTrigger b := do
    let s ← get
    if blobCountWithOneMore s ≥ maxBlobsPerAggregation then
      pure (some ⟨.blobLimit, ← extend (s.blobsInFlight.map (·.2)) b⟩)
    else pure none
  newBlob b := do
    let s ← get
    if blobCountWithOneMore s ≥ maxBlobsPerAggregation then throw .blobLimitOverflow
    let i ← extend (s.blobsInFlight.map (·.2)) b
    set { s with blobsInFlight := some (blobCountWithOneMore s, i) }
  reset s := { s with blobsInFlight := none }
  inFlight s := s.blobsInFlight.map (·.2)

/-! ### By target block numbers -/

def byTargetBlockNumbers : SyncAggregationTriggerCalculator where
  checkAggregationTrigger b := do
    let s ← get
    let endBlockNumbers := s.targetEndBlockNumbers.mergeSort
    match endBlockNumbers.getLast? with
    | none => pure none
    | some lastTarget =>
      if b.endBlockNumber > lastTarget then
        set { s with firstBlobWasConsumed := true }
        pure none
      else if (endBlockNumbers.find? fun t => b.startBlockNumber ≤ t && t < b.endBlockNumber).isSome then pure none
      else if b.endBlockNumber ∈ endBlockNumbers then
        pure (some ⟨.targetBlockNumber, ← extend s.targetInFlight b⟩)
      else pure none
  newBlob b := do
    let s ← get
    let i ← extend s.targetInFlight b
    set { s with targetInFlight := some i }
  reset s := { s with targetInFlight := none }
  inFlight s := s.targetInFlight

/-! ### By hard fork timestamp -/

def byTimestampHardFork (hardForkTimestamps : List Int) : SyncAggregationTriggerCalculator where
  checkAggregationTrigger b := do
    let s ← get
    let applicable := hardForkTimestamps.find? fun t => s.lastProcessedTimestamp < t && t ≤ b.endBlockTimestamp
    match applicable, s.forkInFlight with
    | some _, some inFlight => pure (some ⟨.hardFork, inFlight⟩)
    | _, _ => pure none
  newBlob b := do
    let s ← get
    let i ← extend s.forkInFlight b
    set { s with forkInFlight := some i, lastProcessedTimestamp := b.endBlockTimestamp }
  reset s := { s with forkInFlight := none }
  inFlight s := s.forkInFlight

/-! ### By deadline -/

def deadlineNewBlob (b : BlobCounters) : AggM Unit := do
  let s ← get
  let i ← extend (s.deadlineInFlight.map (·.2)) b
  set { s with
    deadlineInFlight := some ((s.deadlineInFlight.map Prod.fst).getD b.startBlockTimestamp, i)
    deadlines := s.deadlines ++ [i] }

def deadlineReset (s : State) : State := { s with deadlineInFlight := none }

/-! ### The calculator -/

inductive CalculatorId
  | proofLimit
  | targetBlockNumbers
  | blobLimit
  | timestampHardFork
  deriving Repr, DecidableEq

structure GlobalAggregationCalculator where
  maxProofsPerAggregation : UInt32
  maxBlobsPerAggregation : UInt32
  hardForkTimestamps : List Int
  syncAggregationTrigger : List CalculatorId
  deadline : Bool
  aggregationSizeMultipleOf : Nat
  sync_nodup : syncAggregationTrigger.Nodup

namespace GlobalAggregationCalculator

variable (g : GlobalAggregationCalculator)

def calculator : CalculatorId → SyncAggregationTriggerCalculator
  | .proofLimit => byProofLimit g.maxProofsPerAggregation
  | .targetBlockNumbers => byTargetBlockNumbers
  | .blobLimit => byBlobLimit g.maxBlobsPerAggregation
  | .timestampHardFork => byTimestampHardFork g.hardForkTimestamps

def resetTriggerCalculators (s : State) : State :=
  let s := g.syncAggregationTrigger.foldl (fun s id => (g.calculator id).reset s) s
  if g.deadline then deadlineReset s else s

/-- Division by a zero multiple throws. -/
def getUpdatedAggregationSize (aggregationSize aggregationSizeMultipleOf : Nat) : AggM Nat :=
  if aggregationSize > aggregationSizeMultipleOf then
    if aggregationSizeMultipleOf = 0 then throw .arithmetic
    else pure (aggregationSize - aggregationSize % aggregationSizeMultipleOf)
  else pure aggregationSize

/-- A pending blob that the loop still takes into the aggregation. -/
def inAggregation (aggregation : BlockInterval) (b : BlobCounters) : Bool :=
  aggregation.startBlockNumber ≤ b.startBlockNumber && b.endBlockNumber ≤ aggregation.endBlockNumber

def interval (blobs : List BlobCounters) : AggM BlockInterval :=
  match blobs.head?, blobs.getLast? with
  | some first, some last => blobsToAggregate first.startBlockNumber last.endBlockNumber
  | _, _ => throw .noSuchElement

def handleAggregationTrigger (processBlob : BlobCounters → AggM Unit) (t : AggregationTrigger) : AggM Unit := do
  let s ← get
  if (s.pendingBlobs.find? (·.startBlockNumber == t.aggregation.startBlockNumber)).isNone ||
      (s.pendingBlobs.find? (·.endBlockNumber == t.aggregation.endBlockNumber)).isNone then
    throw .blobsNotPending
  let blobsInAggregation := s.pendingBlobs.takeWhile (inAggregation t.aggregation)
  let blobsNotInAggregation := s.pendingBlobs.dropWhile (inAggregation t.aggregation)
  set { s with pendingBlobs := [] }
  let updatedAggregationSize ← getUpdatedAggregationSize blobsInAggregation.length g.aggregationSizeMultipleOf
  let blobsInUpdatedAggregation := blobsInAggregation.take updatedAggregationSize
  let blobsNotInUpdatedAggregation := blobsInAggregation.drop updatedAggregationSize
  let updatedAggregation ← interval blobsInUpdatedAggregation
  modify g.resetTriggerCalculators
  modify fun s => { s with aggregations := s.aggregations ++ [updatedAggregation] }
  let blobsToReprocess := (blobsNotInUpdatedAggregation ++ blobsNotInAggregation).mergeSort
    fun b c => b.startBlockNumber ≤ c.startBlockNumber
  blobsToReprocess.forM processBlob

def addPending (b : BlobCounters) (s : State) : State :=
  { s with pendingBlobs := s.pendingBlobs.orderedInsert (fun b c => b.startBlockNumber ≤ c.startBlockNumber) b }

def register (b : BlobCounters) : AggM Unit := do
  g.syncAggregationTrigger.forM fun id => (g.calculator id).newBlob b
  if g.deadline then deadlineNewBlob b

def processBlob : Nat → BlobCounters → AggM Unit
  | 0, _ => throw .stackOverflow
  | depth + 1, b => do
    modify (addPending b)
    let aggregationTriggers ← mapNotNull (fun id => (g.calculator id).checkAggregationTrigger b)
      g.syncAggregationTrigger
    match aggregationTriggers with
    | t :: _ => g.handleAggregationTrigger (processBlob depth) t
    | [] => g.register b

def newBlob (b : BlobCounters) : AggM Unit := do
  let s ← get
  if b.startBlockNumber ≠ s.lastBlockNumber + 1 then throw (.notSequential s.lastBlockNumber b.startBlockNumber)
  set { s with lastBlockNumber := b.endBlockNumber }
  g.processBlob (s.pendingBlobs.length + 1) b

/-- The deadline callback: it may come late, with an interval that was in flight at some earlier time. -/
def deadlineTrigger (aggregation : BlockInterval) : AggM Unit := do
  let s ← get
  if aggregation ∈ s.deadlines then
    g.handleAggregationTrigger (g.processBlob s.pendingBlobs.length) ⟨.timeLimit, aggregation⟩

end GlobalAggregationCalculator

end Lineth.Aggregation

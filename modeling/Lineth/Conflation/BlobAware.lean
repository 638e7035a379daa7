import Lineth.Conflation.Partition

/-!
# The blob aware conflation calculator

`GlobalBlobAwareConflationCalculator` collects conflations into blobs. A blob is closed by some triggers, by the
number of its batches, or when the next block does not fit into the compressor any more. `Blob` carries the two checks
its constructor makes. -/

namespace Lineth.Conflation

open Exec

variable {κ M : Type}

def isAllConsecutive : List (ConflationCalculationResult M) → Bool
  | c :: d :: cs => d.startBlockNumber == c.endBlockNumber + 1 && isAllConsecutive (d :: cs)
  | _ => true

structure Blob (M : Type) where
  conflations : List (ConflationCalculationResult M)
  compressedData : List UInt8
  startBlockTime : Int
  endBlockTime : Int
  consecutive : isAllConsecutive conflations = true
  start_le_end : startBlockTime ≤ endBlockTime

def Blob.create {σ : Type} (conflations : List (ConflationCalculationResult M)) (compressedData : List UInt8)
    (startBlockTime endBlockTime : Int) : EStateM Error σ (Blob M) :=
  if hc : isAllConsecutive conflations = true then
    if ht : startBlockTime ≤ endBlockTime then
      pure ⟨conflations, compressedData, startBlockTime, endBlockTime, hc, ht⟩
    else throw (.endTimePredatesStart startBlockTime endBlockTime)
  else throw .conflationsNotConsecutive

/-- The calculators, the fields of the blob aware calculator, and what it handed to its two handlers. -/
structure BlobState (κ M : Type) where
  calculators : Calculators κ M
  blobBatches : List (ConflationCalculationResult M)
  blobBlockCounters : List (BlockCounters M)
  numberOfBatches : UInt32
  conflations : List (ConflationCalculationResult M)
  blobs : List (Blob M)

def BlobState.initial (calculators : Calculators κ M) : BlobState κ M := ⟨calculators, [], [], 0, [], []⟩

def ConflationTriggerCalculator.lift (c : ConflationTriggerCalculator (Calculators κ M) M) :
    ConflationTriggerCalculator (BlobState κ M) M where
  checkOverflow b := zoom BlobState.calculators (fun k s => { s with calculators := k }) (c.checkOverflow b)
  appendBlock b := zoom BlobState.calculators (fun k s => { s with calculators := k }) (c.appendBlock b)
  reset s := { s with calculators := c.reset s.calculators }
  copyCountersTo s := c.copyCountersTo s.calculators

def blobCutOffTriggers : List ConflationTrigger :=
  [.dataLimit, .timeLimit, .targetBlockNumber, .hardFork, .forcedTransaction]

def aggregationCutOffTriggers : List ConflationTrigger := [.hardFork, .forcedTransaction]

/-- The calculators in use have different ids, and the data calculator is one of them. -/
structure GlobalBlobAwareConflationCalculator (κ M : Type) where
  config : CalculatorsConfig M
  compressor : BlobCompressor κ
  ids : List CalculatorId
  batchesLimit : UInt32
  ids_nodup : ids.Nodup
  dataLimit_mem : CalculatorId.dataLimit ∈ ids

namespace GlobalBlobAwareConflationCalculator

variable (a : GlobalBlobAwareConflationCalculator κ M)

def onData {α : Type} (x : EStateM Error (DataCompressed κ) α) : EStateM Error (BlobState κ M) α :=
  zoom BlobState.calculators (fun k s => { s with calculators := k }) (Calculators.onData x)

def findCounters (blockNumber : UInt64) (s : BlobState κ M) : EStateM Error (BlobState κ M) (BlockCounters M) :=
  match s.blobBlockCounters.find? (·.blockNumber == blockNumber) with
  | some b => pure b
  | none => throw (.noCounterForBlock blockNumber)

def getCompressedData : EStateM Error (DataCompressed κ) (List UInt8) := do
  let d ← get
  set { d with dataDrained := true }
  pure (a.compressor.getCompressedData d.blobCompressor)

/-- The counters of the blocks of the blob go, and the compressor starts over. -/
def closeBlob (blob : Blob M) (s : BlobState κ M) : BlobState κ M :=
  { s with
    blobs := s.blobs ++ [blob]
    blobBlockCounters := s.blobBlockCounters.filter fun b => !s.blobBatches.any (·.contains b.blockNumber)
    blobBatches := []
    calculators := s.calculators.setData (s.calculators.data.reset a.compressor)
    numberOfBatches := 0 }

def fireBlobTriggerAndResetState : EStateM Error (BlobState κ M) Unit := do
  let compressedData ← onData a.getCompressedData
  let s ← get
  match s.blobBatches.head?, s.blobBatches.getLast? with
  | some first, some last =>
    let blobInterval ← BlockInterval.create first.startBlockNumber last.endBlockNumber
    let startCounters ← findCounters blobInterval.startBlockNumber s
    let endCounters ← findCounters blobInterval.endBlockNumber s
    let blob ← Blob.create s.blobBatches compressedData startCounters.blockTimestamp endCounters.blockTimestamp
    modify (a.closeBlob blob)
  | _, _ => throw .noSuchElement

section

variable (c : ConflationCalculationResult M)

/-- The conflation joins the batches of the blob and goes to the conflation handler. -/
def addBatch (s : BlobState κ M) : BlobState κ M :=
  { s with
    blobBatches := s.blobBatches ++ [c]
    numberOfBatches := s.numberOfBatches + 1
    conflations := s.conflations ++ [c] }

def addTargetEndBlock (s : BlobState κ M) : BlobState κ M :=
  if c.conflationTrigger ∈ aggregationCutOffTriggers then
    { s with calculators := { s.calculators with
        targetEndBlockNumbers := s.calculators.targetEndBlockNumbers.insert c.endBlockNumber } }
  else s

def handleBatchTrigger : EStateM Error (BlobState κ M) Unit := do
  modify (addBatch c)
  let s ← get
  if c.conflationTrigger ∈ blobCutOffTriggers ∨ a.batchesLimit ≤ s.numberOfBatches then
    modify (addTargetEndBlock c)
    a.fireBlobTriggerAndResetState
  else
    onData (modify (DataCompressed.startNewBatch a.compressor))
    match s.blobBlockCounters.getLast? with
    | none => throw .noSuchElement
    | some b =>
      let overflow ← onData (DataCompressed.checkOverflow a.compressor b.blockRLPEncoded)
      if overflow.isSome then a.fireBlobTriggerAndResetState

end

variable [Fintype M]

def conflationCalculator : GlobalBlockConflationCalculator (BlobState κ M) M where
  calculators := a.ids.map fun id => (Calculators.calculator a.config a.compressor id).lift
  emptyTracesCounters := TracesCounters.emptyTracesCounters
  conflationConsumer := a.handleBatchTrigger

def addCounters (b : BlockCounters M) (s : BlockState (BlobState κ M) M) : BlockState (BlobState κ M) M :=
  { s with env := { s.env with blobBlockCounters := s.env.blobBlockCounters ++ [b] } }

def newBlock (b : BlockCounters M) : EStateM Error (BlockState (BlobState κ M) M) Unit := do
  modify (addCounters b)
  a.conflationCalculator.newBlock b

end GlobalBlobAwareConflationCalculator

end Lineth.Conflation

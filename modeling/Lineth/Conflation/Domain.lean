import Mathlib.Data.Fintype.Pi
import Lineth.Lib.Exec
import Lineth.Lib.Intervals

/-!
# Blocks, conflations and their counters

The data of the conflation and aggregation calculators. An interval of blocks carries the check its constructor makes,
so it is not empty. Block numbers are `ULong`, counters `UInt`; an `Instant` is an integer number of nanoseconds. -/

namespace Lineth.Conflation

open Intervals (Tiles)

/-- The exceptions thrown by the calculators, with the numbers their messages show. -/
inductive Error
  /-- A block or blob that does not follow the last one. -/
  | notSequential (lastBlockNumber blockNumber : UInt64)
  /-- A `require` on the bounds of an interval. -/
  | startAfterEnd (startBlockNumber endBlockNumber : UInt64)
  /-- The two `require`s of `Blob`. -/
  | conflationsNotConsecutive
  | endTimePredatesStart (startBlockTime endBlockTime : Int)
  /-- A failed `checkNotNull`. -/
  | noCounterForBlock (blockNumber : UInt64)
  /-- `!!` on null. -/
  | nullPointer
  /-- `first()` or `last()` of an empty collection. -/
  | noSuchElement
  /-- `appendBlock` of a calculator refuses the block. -/
  | cannotAppend (blockNumber : UInt64)
  | unvalidatedBlock
  | doesNotFitInBlob
  /-- `KMath.addExact` overflows, or an integer is divided by zero. -/
  | arithmetic
  /-- The compressor rejects the encoding of a block. -/
  | blobCompression
  deriving Repr, DecidableEq

def Error.isInternalCheck : Error → Bool
  | startAfterEnd .. | conflationsNotConsecutive | endTimePredatesStart .. | noCounterForBlock _ => true
  | _ => false

structure BlockInterval where
  startBlockNumber : UInt64
  endBlockNumber : UInt64
  start_le_end : startBlockNumber ≤ endBlockNumber
  deriving Repr, DecidableEq

namespace BlockInterval

variable {σ : Type}

def create (startBlockNumber endBlockNumber : UInt64) : EStateM Error σ BlockInterval :=
  if h : startBlockNumber ≤ endBlockNumber then pure ⟨startBlockNumber, endBlockNumber, h⟩
  else throw (.startAfterEnd startBlockNumber endBlockNumber)

def contains (i : BlockInterval) (blockNumber : UInt64) : Bool :=
  i.startBlockNumber ≤ blockNumber && blockNumber ≤ i.endBlockNumber

def lo (i : BlockInterval) : Nat := i.startBlockNumber.toNat

def hi (i : BlockInterval) : Nat := i.endBlockNumber.toNat

theorem lo_le_hi (i : BlockInterval) : i.lo ≤ i.hi := UInt64.le_iff_toNat_le.mp i.start_le_end

theorem contains_iff {i : BlockInterval} {n : UInt64} : i.contains n ↔ i.lo ≤ n.toNat ∧ n.toNat ≤ i.hi := by
  simp [contains, lo, hi, UInt64.le_iff_toNat_le]

def blocks (i : BlockInterval) : List Nat := Intervals.points lo hi i

end BlockInterval

/-- The number after `n`, which a `ULong` only has when the sum does not wrap. -/
theorem toNat_of_eq_succ {n m : UInt64} (h : n = m + 1) (hn : n ≠ 0) : n.toNat = m.toNat + 1 := by
  have hpos : n.toNat ≠ 0 := fun h0 => hn (UInt64.toNat_inj.mp (by simpa using h0))
  have hadd : (m + 1).toNat = (m.toNat + 1) % 2 ^ 64 := UInt64.toNat_add m 1
  have := m.toNat_lt
  rw [h] at hpos ⊢
  omega

theorem eq_succ_of_toNat {n m : UInt64} (h : n.toNat = m.toNat + 1) : n = m + 1 := by
  have hadd : (m + 1).toNat = (m.toNat + 1) % 2 ^ 64 := UInt64.toNat_add m 1
  have := n.toNat_lt
  exact UInt64.toNat_inj.mp (by omega)

/-! ### Triggers -/

inductive ConflationTrigger
  | targetBlockNumber
  | forcedTransaction
  | coinbaseChange
  | hardFork
  | dataLimit
  | tracesLimit
  | timeLimit
  | blocksLimit
  deriving Repr, DecidableEq

def ConflationTrigger.triggerPriority : ConflationTrigger → Nat
  | targetBlockNumber => 1
  | forcedTransaction => 2
  | coinbaseChange => 3
  | hardFork => 4
  | dataLimit => 5
  | tracesLimit => 6
  | timeLimit => 7
  | blocksLimit => 8

structure OverflowTrigger where
  trigger : ConflationTrigger
  singleBlockOverSized : Bool
  deriving Repr, DecidableEq

/-! ### Counters -/

abbrev TracesCounters (M : Type) := M → UInt32

namespace TracesCounters

variable {M : Type}

def emptyTracesCounters : TracesCounters M := fun _ => 0

variable [Fintype M]

/-- The sum, module by module; `none` when a count exceeds its width. -/
def add (t u : TracesCounters M) : Option (TracesCounters M) :=
  if ∀ m, (t m).toNat + (u m).toNat < 2 ^ 32 then some (fun m => u m + t m) else none

def allTracesWithinLimits (t limits : TracesCounters M) : Bool := decide (∀ m, t m ≤ limits m)

def anyOversized (t limits : TracesCounters M) : Bool := decide (∃ m, limits m < t m)

theorem add_empty (t : TracesCounters M) : emptyTracesCounters.add t = some t := by
  have h : ∀ m, ((emptyTracesCounters : TracesCounters M) m).toNat + (t m).toNat < 2 ^ 32 := by
    intro m
    have := (t m).toNat_lt
    simpa [emptyTracesCounters] using this
  rw [add, if_pos h]
  simp [emptyTracesCounters]

end TracesCounters

structure BlockCounters (M : Type) where
  blockNumber : UInt64
  blockTimestamp : Int
  tracesCounters : TracesCounters M
  blockRLPEncoded : List UInt8
  coinbase : String

structure ConflationCounters (M : Type) where
  dataSize : UInt32 := 0
  blockCount : UInt32 := 0
  tracesCounters : TracesCounters M

structure ConflationCalculationResult (M : Type) extends BlockInterval where
  conflationTrigger : ConflationTrigger
  tracesCounters : TracesCounters M

end Lineth.Conflation

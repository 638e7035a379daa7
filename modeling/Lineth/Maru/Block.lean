import Mathlib.Data.List.Dedup
import Mathlib.Algebra.Order.Group.Nat

/-!
# Beacon blocks

A beacon block carries an execution payload. The seals of the validators are over the hash of its header, with the
round in which it was agreed on and its proposer. From a fork on, the hash that identifies a block leaves the round
and the proposer out, since the same block can be agreed on in different rounds. -/

namespace Lineth.Maru

/-! ### Forks -/

inductive ClFork where
  | qbftPhase0
  | qbftPhase1
deriving DecidableEq, Repr

def ClFork.version : ClFork → Nat
  | qbftPhase0 => 0
  | qbftPhase1 => 1

inductive ElFork where
  | paris
  | shanghai
  | cancun
  | prague
  | osaka
  | amsterdam
deriving DecidableEq, Repr

def ElFork.version : ElFork → Nat
  | paris => 1
  | shanghai => 2
  | cancun => 3
  | prague => 4
  | osaka => 5
  | amsterdam => 6

structure ForkSpec where
  timestampSeconds : Nat
  clFork : ClFork
deriving DecidableEq, Repr

structure ForksSchedule where
  forks : List ForkSpec
  sorted : forks.Pairwise fun f g => g.timestampSeconds < f.timestampSeconds

/-- There is none for a timestamp before the first fork. -/
def ForksSchedule.getForkByTimestamp (s : ForksSchedule) (timestamp : Nat) : Option ForkSpec :=
  s.forks.find? fun f => timestamp ≥ f.timestampSeconds

/-! ### Blocks -/

abbrev Validator := BitVec 160

abbrev Seal := List UInt8

/-- `rest` are the fields that only the execution layer reads. -/
structure ExecutionPayload where
  blockNumber : Nat
  slotNumber : Option Nat
  transactions : List (List UInt8)
  rest : List UInt8
deriving DecidableEq, Repr

structure BeaconBlockBody where
  prevCommitSeals : List Seal
  executionPayload : ExecutionPayload
deriving DecidableEq, Repr

structure BeaconBlockHeader (H : Type) where
  number : Nat
  round : Nat
  timestamp : Nat
  proposer : Validator
  parentRoot : H
  stateRoot : H
  bodyRoot : H
deriving DecidableEq, Repr

structure BeaconBlock (H : Type) where
  header : BeaconBlockHeader H
  body : BeaconBlockBody
deriving DecidableEq, Repr

structure SealedBeaconBlock (H : Type) where
  block : BeaconBlock H
  commitSeals : List Seal
deriving DecidableEq, Repr

structure BeaconState (H : Type) where
  header : BeaconBlockHeader H
  validators : List Validator
deriving DecidableEq, Repr

variable {H : Type}

def SealedBeaconBlock.header (b : SealedBeaconBlock H) : BeaconBlockHeader H := b.block.header

/-- Block numbers are 64 bits wide. -/
def prevNumber (n : Nat) : Nat := (n + (2 ^ 64 - 1)) % 2 ^ 64

def succNumber (n : Nat) : Nat := (n + 1) % 2 ^ 64

theorem prevNumber_succ {n : Nat} (h : n < 2 ^ 64) : prevNumber (n + 1) = n := by
  rw [prevNumber]
  omega

/-! ### Hashes -/

structure Hashing (H : Type) where
  headerHash : BeaconBlockHeader H → H
  bodyRoot : BeaconBlockBody → H
  stateRoot : BeaconState H → H
  emptyHash : H

structure Network (H : Type) where
  hash : Hashing H
  forks : ForksSchedule
  /-- The validators of every block. -/
  validators : List Validator
  /-- The signer of a hash, if the signature has one. -/
  recover : Seal → H → Option Validator
  /-- The seals a block needs, for the number of validators. -/
  requiredQuorum : Nat → Nat
  /-- The proposer of a round of a block, for the one of the block before; there is none for numbers that are not
  positive. -/
  selectProposerForRound : (sequenceNumber roundNumber : Nat) → Validator → List Validator → Option Validator

/-- A header without its round and proposer. -/
def BeaconBlockHeader.withoutRound (h : BeaconBlockHeader H) : BeaconBlockHeader H :=
  { h with round := 0, proposer := 0 }

theorem BeaconBlockHeader.fields_eq_of_withoutRound {h h' : BeaconBlockHeader H}
    (heq : h.withoutRound = h'.withoutRound) :
    h.number = h'.number ∧ h.timestamp = h'.timestamp ∧ h.parentRoot = h'.parentRoot ∧ h.stateRoot = h'.stateRoot ∧
      h.bodyRoot = h'.bodyRoot := by
  simp only [withoutRound, BeaconBlockHeader.mk.injEq, true_and] at heq
  exact heq

namespace Network

variable (net : Network H)

def isRoundIndependent (timestamp : Nat) : Option Bool :=
  (net.forks.getForkByTimestamp timestamp).map fun f => f.clFork.version ≥ ClFork.qbftPhase1.version

def beaconBlockIdHash (h : BeaconBlockHeader H) : Option H := do
  if ← net.isRoundIndependent h.timestamp then return net.hash.headerHash h.withoutRound
  else return net.hash.headerHash h

def stateRoot (s : BeaconState H) : Option H := do
  if ← net.isRoundIndependent s.header.timestamp then
    return net.hash.stateRoot { s with header := s.header.withoutRound }
  else return net.hash.stateRoot s

def processBlock (b : BeaconBlock H) : BeaconState H := ⟨b.header, net.validators⟩

end Network

/-! ### What an identity commits to -/

section

variable {net : Network H}

theorem beaconBlockIdHash_eq_some {h : BeaconBlockHeader H} {root : H} :
    net.beaconBlockIdHash h = some root ↔
      (net.isRoundIndependent h.timestamp = some true ∧ net.hash.headerHash h.withoutRound = root) ∨
        (net.isRoundIndependent h.timestamp = some false ∧ net.hash.headerHash h = root) := by
  rw [Network.beaconBlockIdHash]
  cases net.isRoundIndependent h.timestamp with
  | none => simp
  | some independent => cases independent <;> simp

theorem withoutRound_eq_of_idHash (hinj : Function.Injective net.hash.headerHash)
    {h h' : BeaconBlockHeader H} {root : H}
    (hroot : net.beaconBlockIdHash h = some root) (hroot' : net.beaconBlockIdHash h' = some root) :
    h.withoutRound = h'.withoutRound := by
  rcases beaconBlockIdHash_eq_some.1 hroot with ⟨hfork, rfl⟩ | ⟨hfork, rfl⟩ <;>
    rcases beaconBlockIdHash_eq_some.1 hroot' with ⟨hfork', heq⟩ | ⟨hfork', heq⟩
  · exact (hinj heq).symm
  · -- the timestamps are equal, and so are the forks
    have heq := hinj heq
    subst heq
    rw [show h.withoutRound.timestamp = h.timestamp from rfl, hfork] at hfork'
    cases hfork'
  · have heq := hinj heq
    subst heq
    rw [show h'.withoutRound.timestamp = h'.timestamp from rfl, hfork'] at hfork
    cases hfork
  · rw [hinj heq]

end

end Lineth.Maru

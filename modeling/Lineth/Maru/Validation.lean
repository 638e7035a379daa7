import Lineth.Lib.Except
import Lineth.Maru.Block

/-!
# Validating beacon blocks

A node keeps the blocks and states of its chain by their identities, the identities by number, and the latest state. A
sealed block is imported if a quorum of validators sealed it and it passes the checks against the block stored one
number below. -/

namespace Lineth.Maru

open Except List

variable {H : Type} [DecidableEq H]

/-! ### The database -/

structure Database (H : Type) where
  latestBeaconState : BeaconState H
  beaconStateByBlockRoot : H → Option (BeaconState H)
  sealedBeaconBlockByBlockRoot : H → Option (SealedBeaconBlock H)
  beaconBlockRootByBlockNumber : Nat → Option H

namespace Database

def getBeaconState (d : Database H) (root : H) : Option (BeaconState H) := d.beaconStateByBlockRoot root

def getSealedBeaconBlock (d : Database H) (number : Nat) : Option (SealedBeaconBlock H) :=
  (d.beaconBlockRootByBlockNumber number).bind d.sealedBeaconBlockByBlockRoot

def putBeaconState (d : Database H) (root : H) (s : BeaconState H) : Database H :=
  { d with
    latestBeaconState := s
    beaconStateByBlockRoot := fun r => if r = root then some s else d.beaconStateByBlockRoot r }

def putSealedBeaconBlock (d : Database H) (root : H) (b : SealedBeaconBlock H) : Database H :=
  { d with
    sealedBeaconBlockByBlockRoot := fun r => if r = root then some b else d.sealedBeaconBlockByBlockRoot r
    beaconBlockRootByBlockNumber := fun n => if n = b.header.number then some root
      else d.beaconBlockRootByBlockNumber n }

end Database

/-- `TransactionalSealedBeaconBlockImporter`: the state and the block are written at once, if the block has an
identity. -/
def Network.importBlock (net : Network H) (d : Database H) (b : SealedBeaconBlock H) : Option (Database H) :=
  (net.beaconBlockIdHash b.header).map fun root =>
    (d.putBeaconState root (net.processBlock b.block)).putSealedBeaconBlock root b

/-! ### Checks -/

inductive Outcome (ε : Type) where
  | ok
  | error (e : ε)
  | exception
deriving DecidableEq

def Outcome.require {ε : Type} (condition : Prop) [Decidable condition] (e : ε) : Outcome ε :=
  if condition then .ok else .error e

inductive BlockValidationError (H : Type) where
  | number (blockNumber parentBlockNumber : Nat)
  | payloadNumber (elBlockNumber parentElBlockNumber : Nat)
  | slotNumberMissing
  | slotNumber (slotNumber : Option Nat) (blockNumber : Nat)
  | timestamp (blockTimestamp parentBlockTimestamp : Nat)
  | stateNotFound (parentHash : H)
  | proposer (proposer expectedProposer : Validator)
  | parentRoot (parentRoot expectedParentRoot : H)
  | stateRoot (stateRoot expectedStateRoot : H)
  | bodyRoot (bodyRoot expectedBodyRoot : H)
  | payload (validationError : String)
  | empty (number elBlockNumber : Nat) (hash : H)
deriving DecidableEq

abbrev BlockValidator (H : Type) := BeaconBlock H → Outcome (BlockValidationError H)

def compositeBlockValidator (validators : List (BlockValidator H)) (b : BeaconBlock H) :
    Outcome (List (BlockValidationError H)) :=
  let outcomes := validators.map fun v => v b
  if outcomes.any (· matches .exception) then .exception
  else
    let errors := outcomes.filterMap fun
      | .error e => some e
      | _ => none
    .require (errors = []) errors

def blockNumberValidator (parent : BeaconBlockHeader H) : BlockValidator H := fun b =>
  .require (b.header.number = succNumber parent.number) (.number b.header.number parent.number)

def executionPayloadBlockNumberValidator (parent : ExecutionPayload) : BlockValidator H := fun b =>
  -- the chain may start at a later block of the execution layer
  if parent.blockNumber = 0 then .ok
  else .require (b.body.executionPayload.blockNumber = succNumber parent.blockNumber)
    (.payloadNumber b.body.executionPayload.blockNumber parent.blockNumber)

def executionPayloadSlotNumberValidator (elFork : ElFork) : BlockValidator H := fun b =>
  let slotNumber := b.body.executionPayload.slotNumber
  if elFork.version ≥ ElFork.amsterdam.version ∧ slotNumber = none then .error .slotNumberMissing
  else .require (slotNumber = none ∨ slotNumber = some b.header.number) (.slotNumber slotNumber b.header.number)

def timestampValidator (parent : BeaconBlockHeader H) : BlockValidator H := fun b =>
  .require (b.header.timestamp > parent.timestamp) (.timestamp b.header.timestamp parent.timestamp)

def emptyBlockValidator (net : Network H) : BlockValidator H := fun b =>
  if b.body.executionPayload.transactions ≠ [] then .ok
  else match net.beaconBlockIdHash b.header with
    | none => .exception
    | some hash => .error (.empty b.header.number b.body.executionPayload.blockNumber hash)

abbrev ExecutionLayer := ExecutionPayload → Outcome String

def executionPayloadValidator (newPayload : ExecutionLayer) : BlockValidator H := fun b =>
  match newPayload b.body.executionPayload with
  | .ok => .ok
  | .error e => .error (.payload e)
  | .exception => .exception

section

variable (net : Network H)

def getProposerForBlock (parentState : BeaconState H) (number round : Nat) : Option Validator :=
  net.selectProposerForRound number round parentState.header.proposer parentState.validators

def proposerValidator (d : Database H) : BlockValidator H := fun b =>
  match d.getBeaconState b.header.parentRoot with
  | none => .error (.stateNotFound b.header.parentRoot)
  | some parentState => match getProposerForBlock net parentState b.header.number b.header.round with
    | none => .exception
    | some proposer => .require (b.header.proposer = proposer) (.proposer b.header.proposer proposer)

def parentRootValidator (parent : BeaconBlockHeader H) : BlockValidator H := fun b =>
  match net.beaconBlockIdHash parent with
  | none => .exception
  | some root => .require (b.header.parentRoot = root) (.parentRoot b.header.parentRoot root)

def stateRootValidator : BlockValidator H := fun b =>
  let postState := net.processBlock b
  match net.stateRoot { postState with header := { postState.header with stateRoot := net.hash.emptyHash } } with
  | none => .exception
  | some root => .require (b.header.stateRoot = root) (.stateRoot b.header.stateRoot root)

def bodyRootValidator : BlockValidator H := fun b =>
  .require (b.header.bodyRoot = net.hash.bodyRoot b.body) (.bodyRoot b.header.bodyRoot (net.hash.bodyRoot b.body))

/-! ### Seals -/

inductive SealsError where
  | extract (s : Seal)
  | notExpected (v : Validator)
  | quorum (sealers validators quorumCount : Nat)
deriving DecidableEq

/-- The seal is over the hash with the round. -/
def extractValidator (header : BeaconBlockHeader H) (s : Seal) : Except SealsError Validator :=
  match net.recover s (net.hash.headerHash header) with
  | none => .error (.extract s)
  | some v => if v ∈ net.validators then .ok v else .error (.notExpected v)

def verifySeals (seals : List Seal) (header : BeaconBlockHeader H) : Except SealsError Unit := do
  let issuers ← seals.mapM (extractValidator net header)
  let quorumCount := net.requiredQuorum net.validators.length
  if quorumCount > issuers.dedup.length then .error (.quorum seals.length net.validators.length quorumCount)
  else .ok ()

/-! ### Importers -/

/-- The importers that validate: the pipeline that downloads blocks, and the one that follows the gossip. -/
inductive Importer where
  | sync (allowEmptyBlocks : Bool)
  | follower (elFork : ElFork) (newPayload : Option ExecutionLayer) (allowEmptyBlocks : Bool)

def Importer.validators (d : Database H) (parent : BeaconBlock H) : Importer → List (BlockValidator H)
  | sync allowEmptyBlocks =>
    [stateRootValidator net, blockNumberValidator parent.header,
      timestampValidator parent.header, proposerValidator net d,
      parentRootValidator net parent.header, bodyRootValidator net,
      executionPayloadBlockNumberValidator parent.body.executionPayload] ++
      if allowEmptyBlocks then [] else [emptyBlockValidator net]
  | follower elFork newPayload allowEmptyBlocks =>
    [stateRootValidator net, blockNumberValidator parent.header,
      executionPayloadBlockNumberValidator parent.body.executionPayload, executionPayloadSlotNumberValidator elFork,
      timestampValidator parent.header, proposerValidator net d, parentRootValidator net parent.header,
        bodyRootValidator net] ++
      newPayload.toList.map executionPayloadValidator ++ if allowEmptyBlocks then [] else [emptyBlockValidator net]

inductive ImportError (H : Type) where
  | seals (e : SealsError)
  | block (es : List (BlockValidationError H))
deriving DecidableEq

/-- `ValidatingSealedBeaconBlockImporter`, up to the import itself. -/
def Importer.validate (imp : Importer) (d : Database H) (b : SealedBeaconBlock H) : Outcome (ImportError H) :=
  match d.getSealedBeaconBlock (prevNumber b.header.number) with
  | none => .exception
  | some parent => match compositeBlockValidator (imp.validators net d parent.block) b.block with
    | .exception => .exception
    | .ok => match verifySeals net b.commitSeals b.header with
      | .error e => .error (.seals e)
      | .ok _ => .ok
    | .error es => match verifySeals net b.commitSeals b.header with
      | .error e => .error (.seals e)
      | .ok _ => .error (.block es)

end

/-! ### What an accepted block satisfies -/

section

variable {net : Network H} {d : Database H}

theorem Outcome.require_eq_ok {ε : Type} {condition : Prop} [Decidable condition] {e : ε} :
    require condition e = .ok ↔ condition := by
  unfold require
  split <;> simp_all

theorem Outcome.require_ne_exception {ε : Type} {condition : Prop} [Decidable condition] {e : ε} :
    require condition e ≠ .exception := by
  unfold require
  split <;> simp

variable {b : BeaconBlock H}

omit [DecidableEq H] in
theorem composite_eq_exception {vs : List (BlockValidator H)} :
    compositeBlockValidator vs b = .exception ↔ ∃ v ∈ vs, v b = .exception := by
  have hany : (vs.map fun v => v b).any (· matches .exception) = true ↔ ∃ v ∈ vs, v b = .exception := by
    rw [any_map, any_eq_true]
    refine exists_congr fun v => and_congr_right fun _ => ?_
    cases h : v b <;> simp [h]
  rw [compositeBlockValidator, ← hany]
  dsimp only
  split
  · rename_i h
    exact ⟨fun _ => h, fun _ => rfl⟩
  · rename_i h
    exact ⟨fun h' => absurd h' Outcome.require_ne_exception, fun h' => absurd h' h⟩

omit [DecidableEq H] in
theorem composite_eq_ok {vs : List (BlockValidator H)} :
    compositeBlockValidator vs b = .ok ↔ ∀ v ∈ vs, v b = .ok := by
  constructor
  · intro h v hv
    have hno : ¬ ∃ v ∈ vs, v b = .exception := fun he => by rw [composite_eq_exception.2 he] at h; cases h
    rw [compositeBlockValidator] at h
    dsimp only at h
    split at h
    · cases h
    · rw [Outcome.require_eq_ok, filterMap_eq_nil_iff] at h
      cases hvb : v b with
      | ok => rfl
      | error e =>
        have := h (v b) (mem_map_of_mem hv)
        rw [hvb] at this
        cases this
      | exception => exact absurd ⟨v, hv, hvb⟩ hno
  · intro h
    have hno : ¬ compositeBlockValidator vs b = .exception := fun he => by
      obtain ⟨v, hv, hvb⟩ := composite_eq_exception.1 he
      rw [h v hv] at hvb
      cases hvb
    rw [compositeBlockValidator] at hno ⊢
    dsimp only at hno ⊢
    split at hno
    · exact absurd rfl hno
    · rename_i hany
      rw [if_neg hany, Outcome.require_eq_ok, filterMap_eq_nil_iff]
      intro o ho
      obtain ⟨v, hv, rfl⟩ := mem_map.1 ho
      rw [h v hv]

omit [DecidableEq H] in
theorem blockNumberValidator_eq_ok {parent : BeaconBlockHeader H} :
    blockNumberValidator parent b = .ok ↔ b.header.number = succNumber parent.number := Outcome.require_eq_ok

theorem parentRootValidator_eq_ok {parent : BeaconBlockHeader H} :
    parentRootValidator net parent b = .ok ↔ net.beaconBlockIdHash parent = some b.header.parentRoot := by
  rw [parentRootValidator]
  cases net.beaconBlockIdHash parent with
  | none => simp
  | some root =>
    dsimp only
    rw [Outcome.require_eq_ok, Option.some_inj, eq_comm]

theorem stateRootValidator_eq_ok (h : stateRootValidator net b = .ok) :
    ∃ root, net.beaconBlockIdHash b.header = some root := by
  rw [stateRootValidator] at h
  cases hfork : net.isRoundIndependent b.header.timestamp with
  | none =>
    have hroot : net.stateRoot ⟨{ b.header with stateRoot := net.hash.emptyHash }, net.validators⟩ = none := by
      rw [Network.stateRoot]
      change (net.isRoundIndependent b.header.timestamp).bind _ = _
      rw [hfork]
      rfl
    dsimp only [Network.processBlock] at h
    rw [hroot] at h
    cases h
  | some independent =>
    cases independent with
    | true => exact ⟨_, beaconBlockIdHash_eq_some.2 (.inl ⟨hfork, rfl⟩)⟩
    | false => exact ⟨_, beaconBlockIdHash_eq_some.2 (.inr ⟨hfork, rfl⟩)⟩

/-- A block on top of another, with an identity of its own. -/
structure Extends (net : Network H) (parent b : BeaconBlock H) : Prop where
  number : b.header.number = succNumber parent.header.number
  timestamp : parent.header.timestamp < b.header.timestamp
  parentRoot : net.beaconBlockIdHash parent.header = some b.header.parentRoot
  bodyRoot : b.header.bodyRoot = net.hash.bodyRoot b.body
  identity : ∃ root, net.beaconBlockIdHash b.header = some root

def HasQuorum (net : Network H) (b : SealedBeaconBlock H) : Prop :=
  ∃ sealers : List Validator, sealers.Nodup ∧ net.requiredQuorum net.validators.length ≤ sealers.length ∧
    ∀ v ∈ sealers, v ∈ net.validators ∧ ∃ s ∈ b.commitSeals, net.recover s (net.hash.headerHash b.header) = some v

omit [DecidableEq H] in
theorem extractValidator_eq_ok {header : BeaconBlockHeader H} {s : Seal} {v : Validator} :
    extractValidator net header s = .ok v ↔ net.recover s (net.hash.headerHash header) = some v ∧
    v ∈ net.validators := by
  rw [extractValidator]
  cases hr : net.recover s (net.hash.headerHash header) with
  | none => simp
  | some w =>
    dsimp only
    rw [ite_else_error_eq_ok, ok.injEq, Option.some_inj]
    constructor
    · rintro ⟨hw, rfl⟩
      exact ⟨rfl, hw⟩
    · rintro ⟨rfl, hw⟩
      exact ⟨hw, rfl⟩

variable {b : SealedBeaconBlock H}

omit [DecidableEq H] in
theorem hasQuorum_of_verifySeals (h : verifySeals net b.commitSeals b.header = .ok ()) :
    HasQuorum net b := by
  obtain ⟨issuers, hissuers, hquorum⟩ := bind_eq_ok.1 h
  rw [ite_error_eq_ok, not_lt] at hquorum
  refine ⟨issuers.dedup, issuers.nodup_dedup, hquorum.1, fun v hv => ?_⟩
  obtain ⟨s, hs, hsv⟩ := exists_of_mem_mapM hissuers (mem_dedup.1 hv)
  obtain ⟨hrecover, hmem⟩ := extractValidator_eq_ok.1 hsv
  exact ⟨hmem, s, hs, hrecover⟩

variable {imp : Importer}

theorem Importer.validate_eq_ok {parent : SealedBeaconBlock H}
    (hparent : d.getSealedBeaconBlock (prevNumber b.header.number) = some parent) : imp.validate net d b = .ok ↔
      (∀ v ∈ imp.validators net d parent.block, v b.block = .ok) ∧ verifySeals net b.commitSeals b.header = .ok () := by
  rw [validate, hparent, ← composite_eq_ok]
  dsimp only
  cases compositeBlockValidator (imp.validators net d parent.block) b.block <;>
    cases verifySeals net b.commitSeals b.header <;> simp

theorem Importer.extends_of_validators {parent b : BeaconBlock H}
    (h : ∀ v ∈ imp.validators net d parent, v b = .ok) : Extends net parent b where
  number := blockNumberValidator_eq_ok.1 (h _ (by cases imp <;> simp [validators]))
  timestamp := Outcome.require_eq_ok.1 (h (timestampValidator parent.header) (by cases imp <;> simp [validators]))
  parentRoot := parentRootValidator_eq_ok.1 (h _ (by cases imp <;> simp [validators]))
  bodyRoot := Outcome.require_eq_ok.1 (h (bodyRootValidator net) (by cases imp <;> simp [validators]))
  identity := stateRootValidator_eq_ok (h _ (by cases imp <;> simp [validators]))

theorem Importer.extends_of_validate (h : imp.validate net d b = .ok) :
    ∃ parent, d.getSealedBeaconBlock (prevNumber b.header.number) = some parent ∧ Extends net parent.block b.block ∧
      HasQuorum net b := by
  cases hparent : d.getSealedBeaconBlock (prevNumber b.header.number) with
  | none =>
    rw [validate, hparent] at h
    cases h
  | some parent =>
    obtain ⟨hvalidators, hseals⟩ := (validate_eq_ok hparent).1 h
    exact ⟨parent, rfl, extends_of_validators hvalidators, hasQuorum_of_verifySeals hseals⟩

end

end Lineth.Maru

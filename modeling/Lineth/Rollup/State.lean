import Lineth.Lib.Except
import Lineth.Messaging.Hashing

/-!
# The L1 contracts: storage, call context, errors and logs

`L1` is the storage that the modelled functions of `LinethRollup` and of `ForcedTransactionGateway` read and write.
Roles, pausing, block data and the answers of other contracts come with each call, in a `Ctx`: a result about every
run is about every sequence of contexts. -/

namespace Lineth.Rollup

open Evm Messaging

inductive PauseType where
  | general | l1L2 | l2L1 | finalization | nativeYieldStaking | stateDataSubmission
  deriving DecidableEq

inductive Role where
  | operator | forcedTransactionSender | forcedTransactionFeeSetter | verifierSetter | verifierUnsetter
  | setAddressFilter | setYieldManager | yieldProviderStaking | rateLimitSetter | usedRateLimitResetter
  | gatewayDefaultAdmin | l1L2MessageSetter | minimumFeeSetter
  deriving DecidableEq

structure ClaimMessageWithProofParams where
  proof : List Word
  messageNumber : Word
  leafIndex : BitVec 32
  from_ : Address
  to_ : Address
  fee : Word
  value : Word
  feeRecipient : Address
  merkleRoot : Word
  data : List Byte
  deriving DecidableEq

/-- The message whose hash is the leaf of a claim. -/
def ClaimMessageWithProofParams.message (p : ClaimMessageWithProofParams) : Message :=
  ⟨p.from_, p.to_, p.fee, p.value, p.messageNumber, p.data⟩

structure Ctx where
  self : Address
  sender : Address
  value : Word
  timestamp : Word
  blockNumber : Word
  balance : Word
  paused : PauseType → Bool
  hasRole : Role → Bool
  /-- The roles of the forced transaction gateway on the rollup. -/
  gatewayHasRole : Role → Bool
  /-- Whether an address has no code. -/
  isEOA : Address → Bool
  /-- What delivering the claimed message cost, overhead included. -/
  deliveryFee : Word
  /-- `addressIsFiltered` of an address filter. -/
  addressIsFiltered : Address → Address → Bool
  /-- `blobShnarfExists` of a shnarf provider. -/
  blobShnarfExists : Address → Word → Word
  /-- `getChainConfiguration` of a verifier, if it returns. -/
  getChainConfiguration : Address → Option Word
  /-- What `Verify` of a verifier returns for a proof and a public input. -/
  verify : Address → List Byte → Word → Bool
  blobhash : Nat → Word
  /-- The point evaluation precompile, if it succeeds. -/
  pointEvaluation : List Byte → Option (List Byte)
  /-- Memory and the free memory pointer where the public input is assembled. -/
  memory : Memory
  freeMemoryPointer : Nat

structure RateLimiter where
  periodInSeconds : Word
  limitInWei : Word
  currentPeriodEnd : Word
  currentPeriodAmountInWei : Word
  deriving DecidableEq

structure L1 where
  -- L1MessageServiceBase, L1MessageManager and L1MessageManagerV1
  nextMessageNumber : Word
  rollingHashes : Word → Word
  messageClaimedBitMap : Word → Bool
  l2MerkleRootsDepths : Word → Word
  inboxL2L1MessageStatus : Word → Word
  rateLimiter : RateLimiter
  -- transient storage
  reentrancyGuardEntered : Bool
  messageSender : Address
  isWithdrawLSTAllowed : Bool
  -- ZkEvmV2
  currentL2BlockNumber : Word
  stateRootHashes : Word → Word
  verifiers : Word → Address
  -- LinethRollupBase
  currentFinalizedShnarf : Word
  blobShnarfExists : Word → Word
  currentFinalizedState : Word
  shnarfProvider : Address
  nextForcedTransactionNumber : Word
  forcedTransactionL2BlockNumbers : Word → Word
  forcedTransactionRollingHashes : Word → Word
  forcedTransactionFeeInWei : Word
  addressFilter : Address
  -- LinethRollupYieldExtension
  yieldManager : Address
  -- ForcedTransactionGateway
  useAddressFilter : Bool
  lastSubmissionBlock : Word

inductive Error where
  -- compiler checks
  | arithmeticOverflow
  | invalidCalldata
  -- access, pausing, re-entrancy, rate limit
  | missingRole (role : Role)
  | isPaused (pauseType : PauseType)
  | reentrantCall
  | rateLimitExceeded
  | periodIsZero
  | limitIsZero
  | zeroAddressNotAllowed
  | zeroValueNotAllowed
  | zeroHashNotAllowed
  | zeroLengthNotAllowed
  -- message service
  | valueSentTooLow
  | l2MerkleRootDoesNotExist
  | proofLengthDifferentThanMerkleDepth (merkleDepth : Word) (proofLength : Nat)
  | messageAlreadyClaimed (messageNumber : Word)
  | safeCastOverflowedUintDowncast (bits : Nat) (value : Nat)
  | leafIndexOutOfBounds (leafIndex : BitVec 32) (maxAllowedIndex : Nat)
  | invalidMerkleProof
  /-- `MessageSendingFailed`, or the revert data of the recipient. -/
  | messageSendingFailed (destination : Address)
  | feePaymentFailed (recipient : Address)
  | messageDoesNotExistOrHasAlreadyBeenClaimed (messageHash : Word)
  -- L2 message service
  | feeTooLow
  | messageHashesListLengthIsZero
  | messageHashesListLengthHigherThanOneHundred (length : Nat)
  | finalRollingHashIsZero
  | l1MessageNumberSynchronizationWrong (expected found : Word)
  | l1RollingHashSynchronizationWrong (expected found : Word)
  -- yield extension
  | noEthSent
  | callerIsNotYieldManager
  | lstWithdrawalRequiresDeficit
  | callerNotLSTWithdrawalRecipient
  /-- A call to the yield manager reverted. -/
  | yieldManagerCallFailed
  -- data submission
  | blobSubmissionDataIsMissing
  | blobSubmissionDataEmpty (emptyBlobIndex : Nat)
  | emptyBlobDataAtIndex (index : Nat)
  | pointEvaluationFailed
  | precompileReturnDataLengthWrong (expected actual : Nat)
  | pointEvaluationResponseInvalid (fieldElements blsCurveModulus : Word)
  | finalShnarfWrong (expected value : Word)
  | parentShnarfNotSubmitted (shnarf : Word)
  | shnarfAlreadySubmitted (shnarf : Word)
  | emptySubmissionData
  | bytesLengthNotMultipleOf32
  | firstByteIsNotZero
  | shnarfSubmissionIsZeroHash
  | finalStateRootHashIsZeroHash
  -- finalization
  | proofIsEmpty
  | startingRootHashDoesNotMatch
  | invalidProofType
  | missingRollingHashForForcedTransactionNumber (forcedTransactionNumber : Word)
  | missingMessageNumberForRollingHash (rollingHash : Word)
  | missingRollingHashForMessageNumber (messageNumber : Word)
  | l1RollingHashDoesNotExistOnL1 (messageNumber rollingHash : Word)
  | addressIsNotFiltered (address : Address)
  | finalizationStateIncorrect (expected value : Word)
  | finalizationInTheFuture (l2BlockTimestamp currentBlockTimestamp : Word)
  | finalBlockStateEqualsZeroHash
  | finalizationDataMissingForcedTransaction (nextForcedTransactionNumber : Word)
  | finalShnarfNotSubmitted (shnarf : Word)
  | l2MerkleRootAlreadyAnchored (merkleRoot : Word)
  | bytesLengthNotMultipleOfTwo (bytesLength : Nat)
  /-- The call to the verifier for its chain configuration reverted. -/
  | chainConfigurationCallFailed
  | invalidProofOrProofVerificationRanOutOfGas
  | invalidProof
  -- forced transactions
  | forcedTransactionExistsForBlockOrIsTooLow (blockNumber : Word)
  | gasLimitTooLow
  | maxGasLimitExceeded
  | calldataInputLengthLimitExceeded
  | gasFeeParametersContainZero (maxFeePerGas maxPriorityFeePerGas : Word)
  | maxPriorityFeePerGasHigherThanMaxFee (maxFeePerGas maxPriorityFeePerGas : Word)
  | yParityGreaterThanOne (yParity : Byte)
  | forcedTransactionAlreadySubmittedInBlock (blockNumber : Word)
  | forcedTransactionFeeNotMet (expectedFee actualFee : Word)
  | invalidSignature
  | addressIsFiltered
  | addressFilterAlreadySet (existingStatus : Bool)
  deriving DecidableEq

structure FinalizationData where
  parentStateRootHash : Word
  endBlockNumber : Word
  parentShnarf : Word
  snarkHash : Word
  finalStateRootHash : Word
  dataEvaluationPoint : Word
  dataEvaluationClaim : Word
  lastFinalizedTimestamp : Word
  finalTimestamp : Word
  lastFinalizedL1RollingHash : Word
  l1RollingHash : Word
  lastFinalizedL1RollingHashMessageNumber : Word
  l1RollingHashMessageNumber : Word
  l2MerkleTreesDepth : Word
  lastFinalizedForcedTransactionNumber : Word
  finalForcedTransactionNumber : Word
  lastFinalizedForcedTransactionRollingHash : Word
  deriving DecidableEq

/-- A finalization as it reaches the verifier: the decoded data, the arguments of `_computePublicInput`
and the memory range whose hash is the public input. -/
structure Finalization where
  data : FinalizationData
  l2MerkleRoots : List Word
  filteredAddresses : List Address
  lastFinalizedShnarf : Word
  finalShnarf : Word
  lastFinalizedBlockNumber : Word
  finalForcedTransactionRollingHash : Word
  verifierChainConfiguration : Word
  image : List Byte
  deriving DecidableEq

/-- Logs: the events that results speak about, the calls to the verifier and the gateway's computations. -/
inductive Log where
  | rollingHashUpdated (messageNumber rollingHash messageHash : Word)
  | messageSent (message : Message) (messageHash : Word)
  | messageClaimed (messageHash : Word)
  | l2MerkleRootAdded (l2MerkleRoot treeDepth : Word)
  | l2MessagingBlockAnchored (l2Block : Word)
  | dataSubmittedV3 (parentShnarf shnarf finalStateRootHash : Word)
  | finalizedStateUpdated (blockNumber timestamp messageNumber forcedTransactionNumber : Word)
  | dataFinalizedV3 (startBlockNumber endBlockNumber shnarf parentStateRootHash finalStateRootHash : Word)
  | forcedTransactionAdded (forcedTransactionNumber : Word) (from_ : Address) (blockNumberDeadline rollingHash : Word)
      (rlpEncodedSignedTransaction : List Byte)
  /-- The operands of the gateway's unchecked sum for a deadline. -/
  | deadlineComputed (currentFinalizedL2BlockNumber elapsedBlocks l2BlockBuffer : Word)
  /-- The call of `Verify` for a finalization. -/
  | proofVerification (finalization : Finalization)
  deriving DecidableEq

/-! ### Checks shared by the functions -/

/-- Addition as the compiler checks it. -/
def checkedAdd (a b : Word) : Except Error Word :=
  if a.toNat + b.toNat < 2 ^ 256 then .ok (a + b) else .error .arithmeticOverflow

def requireTypeAndGeneralNotPaused (ctx : Ctx) (pauseType : PauseType) : Except Error Unit := do
  if ctx.paused pauseType then throw (.isPaused pauseType)
  if ctx.paused .general then throw (.isPaused .general)

def onlyRole (ctx : Ctx) (role : Role) : Except Error Unit :=
  if ctx.hasRole role then .ok () else .error (.missingRole role)

theorem checkedAdd_eq_ok {a b c : Word} : checkedAdd a b = .ok c ↔ a.toNat + b.toNat < 2 ^ 256 ∧ a + b = c := by
  simp [checkedAdd]

theorem toNat_add_one {a : Word} (h : a.toNat + (1 : Word).toNat < 2 ^ 256) : (a + 1).toNat = a.toNat + 1 := by
  rw [BitVec.toNat_add]
  exact Nat.mod_eq_of_lt h

end Lineth.Rollup

import Lineth.Rollup.Finalize

/-!
# Forced transactions

`storeForcedTransaction` numbers a forced transaction and records the L2 block by which it must be processed.
`submitForcedTransaction` of the gateway checks and hashes a signed transaction, computes that block from the last
finalization, and stores it. -/

namespace Lineth.Rollup

open Evm Messaging Except

inductive Rlp where
  | uint (value : Word)
  | address (value : Address)
  | bytes (value : List Byte)
  | list (items : List Rlp)

/-- Hashes, codec and signature recovery that the contracts take from libraries and precompiles. -/
structure Primitives where
  keccak : List Byte → Word
  /-- `Mimc.hash`. -/
  mimcHash : List Byte → Word
  /-- `LibRLP.encode` of a list. -/
  rlpEncode : List Rlp → List Byte
  /-- `ECDSA.recover` of hash, v, r and s, if it does not revert. -/
  ecdsaRecover : Word → Byte → Word → Word → Option Address

/-- The immutables of `ForcedTransactionGateway`, with what its constructor requires of them. -/
structure GatewayConfig where
  destinationChainId : Word
  l2BlockBuffer : Word
  maxGasLimit : Word
  maxInputLengthLimit : Word
  addressFilter : Address
  l2BlockDurationSeconds : Word
  blockNumberDeadlineBuffer : Word
  destinationChainId_ne : destinationChainId ≠ 0
  l2BlockBuffer_ne : l2BlockBuffer ≠ 0
  maxGasLimit_ne : maxGasLimit ≠ 0
  maxInputLengthLimit_ne : maxInputLengthLimit ≠ 0
  addressFilter_ne : addressFilter ≠ 0
  l2BlockDurationSeconds_ne : l2BlockDurationSeconds ≠ 0
  blockNumberDeadlineBuffer_ne : blockNumberDeadlineBuffer ≠ 0

structure AccessList where
  contractAddress : Address
  storageKeys : List Word

structure Eip1559Transaction where
  nonce : Word
  maxPriorityFeePerGas : Word
  maxFeePerGas : Word
  gasLimit : Word
  to_ : Address
  value : Word
  input : List Byte
  accessList : List AccessList
  yParity : Byte
  r : Word
  s : Word

/-- `storeForcedTransaction`; its arithmetic is unchecked. -/
def storeForcedTransaction (hasRole : Role → Bool) (forcedTransactionRollingHash : Word) (from_ : Address)
    (blockNumberDeadline : Word) (rlpEncodedSignedTransaction : List Byte) (s : L1) : Except Error (L1 × List Log) := do
  if !hasRole .forcedTransactionSender then throw (.missingRole .forcedTransactionSender)
  if rlpEncodedSignedTransaction = [] then throw .zeroLengthNotAllowed
  if blockNumberDeadline = 0 then throw .zeroValueNotAllowed
  if from_ = 0 then throw .zeroAddressNotAllowed
  if forcedTransactionRollingHash = 0 then throw .zeroHashNotAllowed
  let forcedTransactionNumber := s.nextForcedTransactionNumber
  if ¬ s.forcedTransactionL2BlockNumbers (forcedTransactionNumber - 1) < blockNumberDeadline then
    throw (.forcedTransactionExistsForBlockOrIsTooLow blockNumberDeadline)
  return ({ s with
      nextForcedTransactionNumber := forcedTransactionNumber + 1
      forcedTransactionRollingHashes :=
        Function.update s.forcedTransactionRollingHashes forcedTransactionNumber forcedTransactionRollingHash
      forcedTransactionL2BlockNumbers :=
        Function.update s.forcedTransactionL2BlockNumbers forcedTransactionNumber blockNumberDeadline },
    [.forcedTransactionAdded forcedTransactionNumber from_ blockNumberDeadline forcedTransactionRollingHash
      rlpEncodedSignedTransaction])

/-- `getRequiredForcedTransactionFields`: the previous rolling hash and deadline; the number is checked. -/
def requiredForcedTransactionFields (s : L1) : Except Error (Word × Word) :=
  if s.nextForcedTransactionNumber = 0 then .error .arithmeticOverflow
  else .ok (s.forcedTransactionRollingHashes (s.nextForcedTransactionNumber - 1),
    s.forcedTransactionL2BlockNumbers (s.nextForcedTransactionNumber - 1))

def buildAccessList (accessList : List AccessList) : Rlp :=
  .list (accessList.map fun a => .list [.address a.contractAddress,
    .list (a.storageKeys.map fun k => .bytes (toBytes k))])

def transactionFieldList (G : GatewayConfig) (t : Eip1559Transaction) : List Rlp :=
  [.uint G.destinationChainId, .uint t.nonce, .uint t.maxPriorityFeePerGas, .uint t.maxFeePerGas, .uint t.gasLimit,
    if t.to_ = 0 then .bytes [] else .address t.to_, .uint t.value, .bytes t.input, buildAccessList t.accessList]

def validateForcedTransaction (G : GatewayConfig) (t : Eip1559Transaction) : Except Error Unit := do
  if t.gasLimit < 21000 then throw .gasLimitTooLow
  if t.gasLimit > G.maxGasLimit then throw .maxGasLimitExceeded
  if t.input.length > G.maxInputLengthLimit.toNat then throw .calldataInputLengthLimitExceeded
  if ¬ (t.maxPriorityFeePerGas > 0 ∧ t.maxFeePerGas > 0) then
    throw (.gasFeeParametersContainZero t.maxFeePerGas t.maxPriorityFeePerGas)
  if t.maxPriorityFeePerGas > t.maxFeePerGas then
    throw (.maxPriorityFeePerGasHigherThanMaxFee t.maxFeePerGas t.maxPriorityFeePerGas)
  if t.yParity > 1 then throw (.yParityGreaterThanOne t.yParity)

def validateAddresses (ctx : Ctx) (G : GatewayConfig) (useAddressFilter : Bool) (signer to_ : Address) :
    Except Error Unit :=
  if useAddressFilter && ctx.addressIsFiltered G.addressFilter signer then .error .addressIsFiltered
  else if useAddressFilter && signer ≠ to_ && ctx.addressIsFiltered G.addressFilter to_ then .error .addressIsFiltered
  else .ok ()

/-- The time since the last finalization in L2 blocks; unchecked. -/
def elapsedBlocks (G : GatewayConfig) (timestamp lastTimestamp : Word) : Word :=
  (timestamp - lastTimestamp) / G.l2BlockDurationSeconds

/-- The deadline; after a previous one that is not lower, that one plus a buffer, which is checked. -/
def blockNumberDeadline (G : GatewayConfig) (candidate previousDeadline : Word) : Except Error Word :=
  if candidate ≤ previousDeadline then checkedAdd previousDeadline G.blockNumberDeadlineBuffer else .ok candidate

def submitForcedTransaction (P : Primitives) (G : GatewayConfig) (ctx : Ctx) (t : Eip1559Transaction)
    (lastFinalizedState : FinalizedState) (s : L1) : Except Error (L1 × List Log) := do
  validateForcedTransaction G t
  if ¬ ctx.blockNumber > s.lastSubmissionBlock then
    throw (.forcedTransactionAlreadySubmittedInBlock ctx.blockNumber)
  let (previousRollingHash, previousDeadline) ← requiredForcedTransactionFields s
  if ctx.value ≠ s.forcedTransactionFeeInWei then
    throw (.forcedTransactionFeeNotMet s.forcedTransactionFeeInWei ctx.value)
  let computedState := computeLastFinalizedState P.keccak lastFinalizedState
  if s.currentFinalizedState ≠ computedState then
    throw (.finalizationStateIncorrect s.currentFinalizedState computedState)
  let fields := transactionFieldList G t
  let hashedPayload := P.keccak (0x02 :: P.rlpEncode fields)
  match P.ecdsaRecover hashedPayload (t.yParity + 27) t.r t.s with
  | none => throw .invalidSignature
  | some signer =>
    validateAddresses ctx G s.useAddressFilter signer t.to_
    let elapsed := elapsedBlocks G ctx.timestamp lastFinalizedState.timestamp
    let deadline ← blockNumberDeadline G (s.currentL2BlockNumber + elapsed + G.l2BlockBuffer) previousDeadline
    let hashedPayloadMsb := hashedPayload >>> 128
    let hashedPayloadLsb := hashedPayload &&& 0xffffffffffffffffffffffffffffffff
    let rollingHash := P.mimcHash
      (words [previousRollingHash, hashedPayloadMsb, hashedPayloadLsb, deadline, signer.setWidth 256])
    let signedFields := fields ++ [.uint (t.yParity.setWidth 256), .uint t.r, .uint t.s]
    let (stored, logs) ← storeForcedTransaction ctx.gatewayHasRole rollingHash signer deadline
      (0x02 :: P.rlpEncode signedFields) s
    return ({ stored with lastSubmissionBlock := ctx.blockNumber },
      .deadlineComputed s.currentL2BlockNumber elapsed G.l2BlockBuffer :: logs)

def toggleUseAddressFilter (ctx : Ctx) (useAddressFilter : Bool) (s : L1) : Except Error (L1 × List Log) := do
  onlyRole ctx .gatewayDefaultAdmin
  if s.useAddressFilter = useAddressFilter then throw (.addressFilterAlreadySet useAddressFilter)
  return ({ s with useAddressFilter := useAddressFilter }, [])

/-! ### What a registration changes -/

/-- A forced transaction with `deadline` and `rollingHash` was registered between `s` and `s'`. -/
structure Registers (deadline rollingHash : Word) (s : L1) (l : List Log) (s' : L1) : Prop where
  deadline_gt : s.forcedTransactionL2BlockNumbers (s.nextForcedTransactionNumber - 1) < deadline
  rollingHash_ne : rollingHash ≠ 0
  state : ∃ block, s' = { s with
    nextForcedTransactionNumber := s.nextForcedTransactionNumber + 1
    forcedTransactionRollingHashes :=
      Function.update s.forcedTransactionRollingHashes s.nextForcedTransactionNumber rollingHash
    forcedTransactionL2BlockNumbers :=
      Function.update s.forcedTransactionL2BlockNumbers s.nextForcedTransactionNumber deadline
    lastSubmissionBlock := block }
  logs : ∃ from_ rlp, l = [.forcedTransactionAdded s.nextForcedTransactionNumber from_ deadline rollingHash rlp]

theorem storeForcedTransaction_registers {hasRole : Role → Bool} {rollingHash deadline : Word} {from_ : Address}
    {rlp : List Byte} {s s' : L1} {l : List Log}
    (h : storeForcedTransaction hasRole rollingHash from_ deadline rlp s = .ok (s', l)) :
    Registers deadline rollingHash s l s' := by
  simp only [storeForcedTransaction, throw_eq_error, error_bind, pure_eq_ok,
    ite_error_eq_ok, ok.injEq, Prod.mk.injEq, not_not] at h
  obtain ⟨-, -, -, -, hhash, hdeadline, rfl, rfl⟩ := h
  exact ⟨hdeadline, hhash, ⟨s.lastSubmissionBlock, rfl⟩, from_, rlp, rfl⟩

/-- The gateway registered a forced transaction `elapsed` blocks after the last finalization. -/
structure GatewaySubmits (G : GatewayConfig) (elapsed : Word) (s : L1) (l : List Log) (s' : L1) : Prop where
  next_ne : s.nextForcedTransactionNumber ≠ 0
  registers : ∃ deadline rollingHash logs, blockNumberDeadline G (s.currentL2BlockNumber + elapsed + G.l2BlockBuffer)
      (s.forcedTransactionL2BlockNumbers (s.nextForcedTransactionNumber - 1)) = .ok deadline ∧
    Registers deadline rollingHash s logs s' ∧
    l = .deadlineComputed s.currentL2BlockNumber elapsed G.l2BlockBuffer :: logs

theorem submitForcedTransaction_submits {P : Primitives} {G : GatewayConfig} {ctx : Ctx} {t : Eip1559Transaction}
    {last : FinalizedState} {s s' : L1} {l : List Log}
    (h : submitForcedTransaction P G ctx t last s = .ok (s', l)) :
    GatewaySubmits G (elapsedBlocks G ctx.timestamp last.timestamp) s l s' := by
  simp only [submitForcedTransaction, requiredForcedTransactionFields, bind_eq_ok, throw_eq_error,
    error_bind, pure_eq_ok, ite_error_eq_ok, Prod.exists, ok.injEq, Prod.mk.injEq] at h
  obtain ⟨_, -, -, previousRollingHash, previousDeadline, ⟨hnext, rfl, rfl⟩, -, -, h⟩ := h
  split at h
  · cases h
  simp only [bind_eq_ok, Prod.exists, ok.injEq, Prod.mk.injEq] at h
  obtain ⟨_, -, deadline, hdeadline, _, logs, hstore, rfl, rfl⟩ := h
  obtain ⟨hgt, hne, ⟨_, rfl⟩, hlogs⟩ := storeForcedTransaction_registers hstore
  exact ⟨hnext, deadline, _, logs, hdeadline, ⟨hgt, hne, ⟨ctx.blockNumber, rfl⟩, hlogs⟩, rfl⟩

end Lineth.Rollup

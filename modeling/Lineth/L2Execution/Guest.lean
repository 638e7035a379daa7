import Mathlib.Data.List.Sort
import Lineth.Lib.Except
import Lineth.L2Execution.Types

/-!
# The guest

The program that is proved, `l2_execution.zig`. Its integers have fixed widths, and an addition that does not fit
is illegal: a checked build stops there. -/

namespace Lineth.L2Execution

open Evm Except Acceptance

inductive GuestError where
  | emptyPayloads | invalidStatelessInput
  | chainIdMismatch | parentHashChainMismatch | baseFeeNotConstant | feeRecipientMismatch
  | invalidGenesisParentHash | missingParentHeaderWitness
  | executionRequestsNotSupported | blobTransactionsNotSupported | withdrawalsNotSupported | unsupportedFork
  /-- The engine rejects the block. -/
  | invalidBlock
  | forcedTxOutOfOrder | forcedTxDeadlineExceeded
  /-- The forced transaction does not decode. -/
  | invalidTransaction
  | forcedTxSenderRecoveryFailed | filteredAddressToOnContractCreation | includedForcedTxNotInBlock
  | unknownForcedTxAcceptance | invalidForcedTxFoundInBlock
  /-- A node of the trie is missing from the witnesses. -/
  | invalidProof
  | forcedTxSenderAbsent | badNonceMismatch | badBalanceMismatch
  | invalidBridgeMessageLog | rollingHashNumberOverflow | messagingBlockOffsetOverflow
  /-- Integer overflow. -/
  | overflow
deriving DecidableEq

def guestFork : String := "Amsterdam"

def bridgeRollingHashUpdatedTopic0 : Word := 0x99b65a4301b38c09fb6a5f27052d73e8372bbe8f6779d678bfe8a41b66cce7ac

/-! ### Hashes -/

def u64ToSlot32 (n : BitVec 64) : List Byte := List.replicate 24 0 ++ beBytes 8 n.toNat

def chainConfigHash (host : Host) (chainConfig : ChainConfig) (baseFee : BitVec 64) : Word :=
  host.keccak (u64ToSlot32 chainConfig.chainId ++ addressBytes chainConfig.coinbase ++
    addressBytes chainConfig.l2MessageServiceAddress ++ u64ToSlot32 baseFee)

def addToForcedTxRollingHash (host : Host) (prev txHash : Word) (deadline : BitVec 64) (fromAddress : Address) : Word :=
  host.keccak (toBytes prev ++ toBytes txHash ++ u64ToSlot32 deadline ++ addressBytes fromAddress)

def hashAddressList (host : Host) (values : List Address) : Word := host.keccak (values.flatMap addressBytes)

/-! ### Forced transactions -/

/-- A transaction as `tx_decode` hands it out. -/
structure TxInput where
  type : Byte
  nonce : Option (BitVec 64)
  gas : BitVec 64
  gasPrice : Option (BitVec 128)
  maxFeePerGas : Option (BitVec 128)
  maxFeePerBlobGas : Option (BitVec 128)
  blobVersionedHashes : {hs : List Word // hs.length < 2 ^ 64}
  to_ : Option Address
  value : Word

def noBlobs : {hs : List Word // hs.length < 2 ^ 64} := ⟨[], by decide⟩

def Transaction.toTxInput (tx : Transaction) : TxInput :=
  let fields (type : Byte) (gasPrice maxFeePerGas maxFeePerBlobGas : Option (BitVec 128))
      (blobVersionedHashes : {hs : List Word // hs.length < 2 ^ 64}) : TxInput :=
    { type, nonce := some tx.nonce, gas := tx.gas, gasPrice, maxFeePerGas, maxFeePerBlobGas, blobVersionedHashes,
      to_ := tx.to_, value := tx.value }
  match tx.fees with
  | .legacy gasPrice => fields 0 (some gasPrice) none none noBlobs
  | .accessList gasPrice => fields 1 (some gasPrice) none none noBlobs
  | .feeMarket maxFeePerGas => fields 2 none (some maxFeePerGas) none noBlobs
  | .blob maxFeePerGas maxFeePerBlobGas hashes => fields 3 none (some maxFeePerGas) (some maxFeePerBlobGas) hashes
  | .setCode maxFeePerGas => fields 4 none (some maxFeePerGas) none noBlobs

def gasPerBlob : Nat := 131072

/-- The source computes it in 256 bits, where none of it overflows: the factors have 64, 128 and 17 bits. -/
def maxGasFee (tx : TxInput) : Nat :=
  if tx.type = 2 ∨ tx.type = 3 ∨ tx.type = 4 then
    let fee := tx.gas.toNat * (tx.maxFeePerGas.getD 0).toNat
    if tx.type = 3 then
      let blobGas := tx.blobVersionedHashes.1.length * gasPerBlob
      fee + blobGas * (tx.maxFeePerBlobGas.getD 0).toNat
    else fee
  else tx.gas.toNat * (tx.gasPrice.getD 0).toNat

/-- What the loop of `validateForcedTransactions` carries. -/
structure FtxState where
  rollingHash : Word
  lastProcessedNumber : BitVec 64
  rejected : List Address
deriving DecidableEq

/-- The checks on a forced transaction that the sequencer says is invalid. -/
def checkInvalid (host : Host) (preStateRoot : Word) (nodes : List (List Byte)) (tx : TxInput) (fromAddress : Address)
    (acceptance : Byte) : Except GuestError Unit := do
  let senderAccount ← orThrow (host.account preStateRoot nodes fromAddress) .invalidProof
  let senderAccount ← orThrow senderAccount .forcedTxSenderAbsent
  if acceptance = badNonce then
    failIf (senderAccount.nonce = tx.nonce.getD 0) .badNonceMismatch
  else
    failIf (2 ^ 256 ≤ maxGasFee tx + tx.value.toNat) .overflow
    failIf (maxGasFee tx + tx.value.toNat ≤ senderAccount.balance.toNat) .badBalanceMismatch

/-- The declared outcome of a forced transaction, with the address that is reported for it. -/
def checkOutcome (host : Host) (payload : ExecutionPayload) (preStateRoot : Word) (nodes : List (List Byte))
    (tx : TxInput) (fromAddress : Address) (txHash : Word) (acceptance : Byte) : Except GuestError (List Address) :=
  if acceptance = filteredAddressFrom then .ok [fromAddress]
  else if acceptance = filteredAddressTo then do
    let to_ ← orThrow tx.to_ .filteredAddressToOnContractCreation
    return [to_]
  else
    let payloadTxHashes := payload.rawTransactions.map host.keccak
    if acceptance = included then do
      failIf (txHash ∉ payloadTxHashes) .includedForcedTxNotInBlock
      return []
    else do
      failIf (acceptance ≠ badNonce ∧ acceptance ≠ badBalance) .unknownForcedTxAcceptance
      failIf (txHash ∈ payloadTxHashes) .invalidForcedTxFoundInBlock
      checkInvalid host preStateRoot nodes tx fromAddress acceptance
      return []

section

variable (host : Host) (chainId : BitVec 64) (payload : ExecutionPayload) (preStateRoot : Word)
  (nodes : List (List Byte)) (st : FtxState)

def validateForcedTransaction (ftx : ForcedTransactionWitness) : Except GuestError FtxState := do
  failIf (2 ^ 64 ≤ st.lastProcessedNumber.toNat + 1) .overflow
  failIf (ftx.number.toNat ≠ st.lastProcessedNumber.toNat + 1) .forcedTxOutOfOrder
  failIf (ftx.deadline < payload.blockNumber) .forcedTxDeadlineExceeded
  let tx ← orThrow (host.decodeTx ftx.signedTxRlp) .invalidTransaction
  let fromAddress ← orThrow (host.recoverSender tx chainId) .forcedTxSenderRecoveryFailed
  let txHash := host.keccak ftx.signedTxRlp
  let addresses ← checkOutcome host payload preStateRoot nodes tx.toTxInput fromAddress txHash ftx.acceptance
  return { rollingHash := addToForcedTxRollingHash host st.rollingHash txHash ftx.deadline fromAddress
           lastProcessedNumber := ftx.number
           rejected := st.rejected ++ addresses }

def validateForcedTransactions (forcedTransactions : List ForcedTransactionWitness) :
    Except GuestError FtxState :=
  forcedTransactions.foldlM (validateForcedTransaction host chainId payload preStateRoot nodes) st

end

/-! ### The bridge's logs -/

structure BridgeState where
  hash : Word
  number : BitVec 64

structure L2MessageServiceScan where
  hasMessages : Bool
  rollingHash : BridgeState

/-- One log, with the list of messages that the scan appends to. -/
def scanLog (l2MsAddress : Address) (st : List Word × L2MessageServiceScan) (log : Log) :
    Except GuestError (List Word × L2MessageServiceScan) :=
  if log.address ≠ l2MsAddress ∨ log.topics.length = 0 then .ok st
  else if log.topics.getD 0 0 = bridgeL2L1MessageSentTopic0 then do
    failIf (log.topics.length < 4) .invalidBridgeMessageLog
    return (st.1 ++ [log.topics.getD 3 0], { st.2 with hasMessages := true })
  else if log.topics.getD 0 0 = bridgeRollingHashUpdatedTopic0 then do
    failIf (log.topics.length < 3) .invalidBridgeMessageLog
    failIf ((log.topics.getD 1 0).toNat > 2 ^ 64 - 1) .rollingHashNumberOverflow
    return (st.1, { st.2 with rollingHash := ⟨log.topics.getD 2 0, BitVec.ofNat 64 (log.topics.getD 1 0).toNat⟩ })
  else .ok st

def scanL2MessageServiceLogs (messages : List Word) (receipts : List Receipt) (l2MsAddress : Address) :
    Except GuestError (List Word × L2MessageServiceScan) :=
  receipts.foldlM (fun st receipt => receipt.logs.foldlM (scanLog l2MsAddress) st) (messages, ⟨false, ⟨0, 0⟩⟩)

/-! ### Filtered addresses -/

/-- One round of the loop that removes duplicates in place: the first `n` items are the distinct ones so far. -/
def compactStep (st : List Address × Nat) (i : Nat) : List Address × Nat :=
  let a := st.1.getD i 0
  if st.2 > 0 ∧ st.1.getD (st.2 - 1) 0 = a then st else (st.1.set st.2 a, st.2 + 1)

def mergeFilteredAddresses (list : List Address) : List Address :=
  let items := list.mergeSort fun a b => a ≤ b
  let (items, n) := (List.range items.length).foldl compactStep (items, 0)
  items.take n

/-! ### The range of blocks -/

def lastHeaderIsParent (host : Host) (headers : List (List Byte)) (blockNumber : BitVec 64) : Bool :=
  if headers.length = 0 ∨ blockNumber = 0 then false
  else match host.decodeMinimalHeader (headers.getD (headers.length - 1) []) with
    | none => false
    | some number => number = blockNumber - 1

def isBlobTransaction (raw : List Byte) : Bool := raw.length > 0 ∧ raw.getD 0 0 = 0x03

/-- A block above genesis brings its parent's header, genesis has none. -/
def checkParentHeader (host : Host) (si : StatelessInput) : Except GuestError Unit :=
  if si.payload.blockNumber = 0 then failIf (si.payload.parentHash ≠ 0) .invalidGenesisParentHash
  else failIf (lastHeaderIsParent host si.witness.headers si.payload.blockNumber = false) .missingParentHeaderWitness

/-- What is checked of a block before the engine executes it. -/
def checkPayload (host : Host) (input : PrivateInput) (baseFee : Nat) (parentHash : Word) (si : StatelessInput) :
    Except GuestError Unit := do
  failIf (si.chainConfig.chainId ≠ input.chainConfig.chainId) .chainIdMismatch
  failIf (si.payload.parentHash ≠ parentHash) .parentHashChainMismatch
  failIf (si.payload.baseFeePerGas ≠ baseFee) .baseFeeNotConstant
  failIf (si.payload.feeRecipient ≠ input.chainConfig.coinbase) .feeRecipientMismatch
  checkParentHeader host si
  let requests := si.newPayloadRequest.executionRequests
  failIf (requests.deposits ≠ [] ∨ requests.withdrawals ≠ [] ∨ requests.consolidations ≠ [] ∨
    requests.builderDeposits ≠ [] ∨ requests.builderExits ≠ []) .executionRequestsNotSupported
  failIf (si.newPayloadRequest.versionedHashes ≠ []) .blobTransactionsNotSupported
  failIf (si.payload.rawTransactions.any isBlobTransaction) .blobTransactionsNotSupported
  failIf (si.payload.withdrawals ≠ []) .withdrawalsNotSupported
  failIf (si.chainConfig.forkName ≠ some guestFork) .unsupportedFork

structure RunState where
  parentHash : Word
  ftxRollingHash : Word
  lastProcessedFtxNumber : BitVec 64
  l2L1Messages : List Word
  txFroms : List Address
  filteredAddresses : List Address
  messagingOffsets : List Nat
  endBridge : BridgeState
  lastPayload : ExecutionPayload

/-- The bridge's part of one block: `idx` counts the blocks from 0. -/
def scanBlock (l2MsAddress : Address) (receipts : List Receipt) (idx : Nat) (st : RunState) :
    Except GuestError RunState := do
  let (messages, scan) ← scanL2MessageServiceLogs st.l2L1Messages receipts l2MsAddress
  let st := { st with
    l2L1Messages := messages
    endBridge := if scan.rollingHash.number ≠ 0 then scan.rollingHash else st.endBridge }
  if scan.hasMessages then do
    failIf (idx + 1 > 2 ^ 16 - 1) .messagingBlockOffsetOverflow
    return { st with messagingOffsets := st.messagingOffsets ++ [idx + 1] }
  else return st

def processPayload (host : Host) (input : PrivateInput) (baseFee : Nat) (nodes : List (List Byte)) (st : RunState)
    (lineaPayload : LineaPayloadInput) (si : StatelessInput) (idx : Nat) : Except GuestError RunState := do
  checkPayload host input baseFee st.parentHash si
  let result ← orThrow (host.execute si input.chainConfig.systemContracts nodes) .invalidBlock
  let ftx ← validateForcedTransactions host input.chainConfig.chainId si.payload result.preStateRoot nodes
    ⟨st.ftxRollingHash, st.lastProcessedFtxNumber, []⟩ lineaPayload.forcedTransactions
  let st := { st with
    parentHash := si.payload.blockHash
    ftxRollingHash := ftx.rollingHash
    lastProcessedFtxNumber := ftx.lastProcessedNumber
    txFroms := st.txFroms ++ result.receipts.map Receipt.from_
    filteredAddresses := st.filteredAddresses ++ ftx.rejected
    lastPayload := si.payload }
  if input.chainConfig.l2MessageServiceAddress = 0 then return st
  else scanBlock input.chainConfig.l2MessageServiceAddress result.receipts idx st

structure GuestOutput extends Output where
  txFroms : List Address

def runL2ExecutionWithEngine (host : Host) (input : PrivateInput) : Except GuestError GuestOutput := do
  failIf (input.payloads = []) .emptyPayloads
  let statelessInputs ← input.payloads.mapM fun p =>
    orThrow (host.decodeStateless p.statelessInputSsz) .invalidStatelessInput
  let nodes := statelessInputs.flatMap fun si => si.witness.nodes
  let first ← orThrow statelessInputs.head? .emptyPayloads
  let baseFee := first.payload.baseFeePerGas
  -- `lastPayload` starts undefined in the source and is written in the first round
  let st ← ((input.payloads.zip statelessInputs).zipIdx).foldlM
    (fun st e => processPayload host input baseFee nodes st e.1.1 e.1.2 e.2)
    { parentHash := first.payload.parentHash
      ftxRollingHash := input.parentFtxRollingHash
      lastProcessedFtxNumber := input.parentLastProcessedFtxNumber
      l2L1Messages := [], txFroms := [], filteredAddresses := [], messagingOffsets := []
      endBridge := ⟨0, 0⟩
      lastPayload := first.payload }
  return {
    publicInputs := {
      parentBlockHash := first.payload.parentHash
      endBlockHash := st.lastPayload.blockHash
      endBlockNumber := st.lastPayload.blockNumber
      endBlockTimestamp := st.lastPayload.timestamp
      l2L1Messages := st.l2L1Messages
      endL1L2BridgeRollingHash := st.endBridge.hash
      endL1L2BridgeRollingHashMessageNumber := st.endBridge.number
      dynamicChainConfigHash := chainConfigHash host input.chainConfig (BitVec.ofNat 64 baseFee)
      parentFtxRollingHash := input.parentFtxRollingHash
      parentFtxNumber := input.parentLastProcessedFtxNumber
      endFtxRollingHash := st.ftxRollingHash
      endProcessedFtxNumber := st.lastProcessedFtxNumber
      filteredAddresses := mergeFilteredAddresses st.filteredAddresses
      txFromsHash := hashAddressList host st.txFroms
      blockCount := input.payloads.length
      l2MessagingBlocksOffsets := st.messagingOffsets }
    startBlockNumber := first.payload.blockNumber
    txFroms := st.txFroms }

end Lineth.L2Execution

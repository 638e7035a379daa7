import Mathlib.Data.List.Basic
import Lineth.Lib.Memory

/-!
# The l2-execution proof: its input, its output and what it takes from the engine

One proof covers a range of consecutive blocks. The guest gets every block as a stateless input, with the forced
transactions that the sequencer says it has handled there, and puts its own rules on top of the block's execution.
Decoding, hashing, signature recovery, the execution of a block and the Merkle walk over the witness come from
libraries (`Host`). -/

namespace Lineth.L2Execution

open Evm

structure SystemContracts where
  beaconRoots : Address
  historyStorage : Address
  deposit : Address
  withdrawalRequest : Address
  consolidationRequest : Address
  builderDepositRequest : Address
  builderExitRequest : Address

structure ChainConfig where
  chainId : BitVec 64
  coinbase : Address
  l2MessageServiceAddress : Address
  systemContracts : SystemContracts

/-- What the sequencer declares about a forced transaction; the guest checks it. -/
structure ForcedTransactionWitness where
  number : BitVec 64
  signedTxRlp : List Byte
  acceptance : Byte
  deadline : BitVec 64

namespace Acceptance

def included : Byte := 0
def badNonce : Byte := 1
def badBalance : Byte := 2
def filteredAddressFrom : Byte := 3
def filteredAddressTo : Byte := 4

end Acceptance

structure LineaPayloadInput where
  statelessInputSsz : List Byte
  forcedTransactions : List ForcedTransactionWitness

structure PrivateInput where
  parentFtxRollingHash : Word
  parentLastProcessedFtxNumber : BitVec 64
  payloads : List LineaPayloadInput
  chainConfig : ChainConfig

/-! ### The decoded stateless input -/

structure ExecutionPayload where
  parentHash : Word
  feeRecipient : Address
  blockNumber : BitVec 64
  timestamp : BitVec 64
  /-- The guest holds it in 64 bits. -/
  baseFeePerGas : Nat
  blockHash : Word
  rawTransactions : List (List Byte)
  withdrawals : List (List Byte)

structure ExecutionRequests where
  deposits : List (List Byte)
  withdrawals : List (List Byte)
  consolidations : List (List Byte)
  builderDeposits : List (List Byte)
  builderExits : List (List Byte)

structure NewPayloadRequest where
  executionPayload : ExecutionPayload
  versionedHashes : List Word
  executionRequests : ExecutionRequests

structure ExecutionWitness where
  nodes : List (List Byte)
  headers : List (List Byte)

structure StatelessChainConfig where
  chainId : BitVec 64
  forkName : Option String

structure StatelessInput where
  newPayloadRequest : NewPayloadRequest
  witness : ExecutionWitness
  chainConfig : StatelessChainConfig
  /-- The fields that only the engine reads. -/
  engineData : List Byte

def StatelessInput.payload (si : StatelessInput) : ExecutionPayload := si.newPayloadRequest.executionPayload

/-! ### Transactions and accounts -/

/-- What a sender offers for gas, by transaction type. A list in the guest's memory has fewer than `2 ^ 64`
entries. -/
inductive Fees where
  | legacy (gasPrice : BitVec 128)
  | accessList (gasPrice : BitVec 128)
  | feeMarket (maxFeePerGas : BitVec 128)
  | blob (maxFeePerGas maxFeePerBlobGas : BitVec 128) (blobVersionedHashes : {hs : List Word // hs.length < 2 ^ 64})
  | setCode (maxFeePerGas : BitVec 128)

structure Transaction where
  nonce : BitVec 64
  gas : BitVec 64
  to_ : Option Address
  value : Word
  fees : Fees

structure Account where
  nonce : BitVec 64
  balance : Word
deriving DecidableEq

/-! ### The engine -/

structure Log where
  address : Address
  topics : List Word

structure Receipt where
  from_ : Address
  logs : List Log

structure EngineResult where
  preStateRoot : Word
  receipts : List Receipt

/-- The libraries under the guest. Each function gives no result where the library fails. -/
structure Host where
  keccak : List Byte → Word
  decodeStateless : List Byte → Option StatelessInput
  /-- The number in an RLP header. -/
  decodeMinimalHeader : List Byte → Option (BitVec 64)
  decodeTx : List Byte → Option Transaction
  recoverSender : Transaction → BitVec 64 → Option Address
  /-- The list is that of the nodes of all witnesses. -/
  execute : StatelessInput → SystemContracts → List (List Byte) → Option EngineResult
  /-- The account under a state root, by the nodes of the witnesses: `none` if a node is missing,
  `some none` if they prove the account absent. -/
  account : Word → List (List Byte) → Address → Option (Option Account)

/-! ### The public output -/

structure PublicInput where
  parentBlockHash : Word
  endBlockHash : Word
  endBlockNumber : BitVec 64
  endBlockTimestamp : BitVec 64
  l2L1Messages : List Word
  endL1L2BridgeRollingHash : Word
  endL1L2BridgeRollingHashMessageNumber : BitVec 64
  dynamicChainConfigHash : Word
  parentFtxRollingHash : Word
  parentFtxNumber : BitVec 64
  endFtxRollingHash : Word
  endProcessedFtxNumber : BitVec 64
  filteredAddresses : List Address
  txFromsHash : Word
  blockCount : Nat
  l2MessagingBlocksOffsets : List Nat

structure Output where
  publicInputs : PublicInput
  startBlockNumber : BitVec 64

/-! ### Constants -/

def bridgeL2L1MessageSentTopic0 : Word := 0xe856c2b8bd4eb0027ce32eeaf595c21b0b6b4644b326e5b7bd80a1cf8db72e6c

def addressBytes (a : Address) : List Byte := beBytes 20 a.toNat

end Lineth.L2Execution
